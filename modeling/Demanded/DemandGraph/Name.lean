import Demanded.Loc

/-!
# Names of the nodes of a demanded graph

A node stands for the state at a location or for a statement.  Statements between the same two
locations are told apart by their rank among them.  States come first in the order of names.
-/

namespace Demanded

/-- The name of a node. -/
inductive NodeName where
  /-- The state at a location. -/
  | state (loc : Loc)
  /-- A statement between two locations. -/
  | stmt (src dst : Loc) (rank : Nat)
deriving DecidableEq

namespace NodeName

/-- The numbers by which names are compared, one after the other. -/
def orderKey : NodeName → List Nat
  | state loc => [0, loc.rank]
  | stmt src dst rank => [1, src.rank, dst.rank, rank]

theorem orderKey_injective {a b : NodeName} (h : a.orderKey = b.orderKey) : a = b := by
  cases a with
  | state l =>
    cases b with
    | state l' =>
      simp only [orderKey, List.cons.injEq, and_true, true_and] at h
      rw [Loc.rank_injective h]
    | stmt _ _ _ => simp [orderKey] at h
  | stmt s d r =>
    cases b with
    | state _ => simp [orderKey] at h
    | stmt s' d' r' =>
      simp only [orderKey, List.cons.injEq, and_true, true_and] at h
      rw [Loc.rank_injective h.1, Loc.rank_injective h.2.1, h.2.2]

instance : Ord NodeName := ⟨compareOn orderKey⟩

instance : Std.TransOrd NodeName := inferInstanceAs (Std.TransCmp (compareOn orderKey))

instance : Std.LawfulEqOrd NodeName where
  compare_self := Std.ReflOrd.compare_self (α := List Nat)
  eq_of_compare h := orderKey_injective (Std.LawfulEqOrd.eq_of_compare (α := List Nat) h)

/-- Whether the node is a state. -/
def isState : NodeName → Bool
  | state _ => true
  | stmt .. => false

/-- The state that a statement starts from. -/
def pre? : NodeName → Option NodeName
  | state _ => none
  | stmt src _ _ => some (state src)

/-- The state that a statement leads to. -/
def post? : NodeName → Option NodeName
  | state _ => none
  | stmt _ dst _ => some (state dst)

/-- The text of a name. -/
def text : NodeName → String
  | state loc => "state(" ++ loc.text ++ ")"
  | stmt src dst rank =>
    "stmt(" ++ src.text ++ "->" ++ dst.text ++ "#" ++ toString rank ++ ")"

end NodeName

end Demanded
