import Demanded.Json.Shape

/-!
# Program locations

A location is one of the two sentinels, where execution enters and leaves, or is known by a number.
`LocSupply` hands out numbered locations in ascending order.
-/

namespace Demanded

/-- A point of a program. -/
inductive Loc where
  /-- Where execution enters. -/
  | entry
  /-- Where execution leaves. -/
  | exit
  /-- A numbered point. -/
  | id (n : Nat)
deriving DecidableEq

namespace Loc

/-- The place of a location in the order: the sentinels first, then by number. -/
def rank : Loc → Nat
  | entry => 0
  | exit => 1
  | id n => n + 2

theorem rank_injective {a b : Loc} (h : a.rank = b.rank) : a = b := by
  cases a <;> cases b <;> simp_all [rank]

instance : Ord Loc := ⟨compareOn rank⟩

instance : Std.TransOrd Loc := inferInstanceAs (Std.TransCmp (compareOn rank))

instance : Std.LawfulEqOrd Loc where
  compare_self := Std.ReflOrd.compare_self (α := Nat)
  eq_of_compare h := rank_injective (Std.LawfulEqOrd.eq_of_compare (α := Nat) h)

/-- Whether the location is where execution enters or leaves. -/
def isSentinel : Loc → Bool
  | entry | exit => true
  | id _ => false

/-- The text of a location. -/
def text : Loc → String
  | entry => "entry"
  | exit => "exit"
  | id n => "l" ++ toString n

/-- The form in which sets of locations are logged. -/
def debugText : Loc → String
  | entry => "Entry"
  | exit => "Exit"
  | id n => "Id(" ++ toString n ++ ")"

/-- The stored form of a location. -/
def toJson : Loc → Json
  | entry => Json.text "Entry"
  | exit => Json.text "Exit"
  | id n => Json.tag "Id" (Json.nat n)

/-- The greatest number of a stored location, `2 ^ 64 - 1`. -/
def maxId : Nat := 18446744073709551615

/-- Reads a location. -/
def ofJson? (levels : Nat) (j : Json) : Option Loc :=
  match j.unitTag? levels with
  | some "Entry" => some entry
  | some "Exit" => some exit
  | _ =>
    match levels, j.tagged? with
    | _ + 1, some ("Id", .num (some (.ofNat n))) => if n ≤ maxId then some (id n) else none
    | _, _ => none

end Loc

/-- Hands out locations that were not handed out before. -/
structure LocSupply where
  /-- How many locations have been handed out; the next one has this number. -/
  next : Nat
deriving DecidableEq

namespace LocSupply

/-- Nothing handed out yet. -/
def start : LocSupply := ⟨0⟩

/-- The next location. -/
def fresh (s : LocSupply) : Loc × LocSupply := (.id s.next, ⟨s.next + 1⟩)

end LocSupply

end Demanded
