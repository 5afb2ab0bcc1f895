import Demanded.Proofs.StatementOrder
import Mathlib.Data.Set.Card

/-!
# Where statements access arrays

A place in an expression is a path: which part of the expression to take, which part of that part,
and so on.  The expressions of a statement have places in the same way, and a write to an element is
an access at a place of its own (`Stmt.accessAt?`).  The same access may be at several places.

`Stmt.accesses` lists an access as often as there are places for it (`Stmt.count_accesses`).  The
places in an expression are the whole of it and the places in its parts, and these are counted apart
(`encard_places_add`).  The list has the same two shares (`Expr.accesses_eq`).
-/

namespace Demanded

instance : DecidableEq Expr := fun a b => decidable_of_iff _ (a.orderedAt.eq_iff b)

deriving instance DecidableEq for Access

/-! ## Places -/

namespace Expr

/-- The expressions of which an expression is made. -/
def parts : Expr → List Expr
  | var _ | lit _ => []
  | binary _ lhs rhs => [lhs, rhs]
  | unary _ operand => [operand]
  | field receiver _ => [receiver]
  | index receiver idx => [receiver, idx]
  | array elements => elements
  | call _ args => args

/-- The access that an expression is. -/
def access? : Expr → Option Access
  | index receiver idx => some ⟨receiver, idx⟩
  | _ => none

/-- The access at a path. -/
def accessAt? : Expr → List Nat → Option Access
  | e, [] => e.access?
  | e, k :: path => e.parts[k]?.bind fun part => part.accessAt? path

end Expr

/-- The access at a path in one of several expressions. -/
def accessIn? (es : List Expr) (place : Nat × List Nat) : Option Access :=
  es[place.1]?.bind fun e => e.accessAt? place.2

namespace Stmt

/-- The expressions of which a statement is made. -/
def parts : Stmt → List Expr
  | assign _ rhs => [rhs]
  | write receiver (.field _) rhs => [receiver, rhs]
  | write receiver (.index idx) rhs => [receiver, idx, rhs]
  | throw exn => [exn]
  | assume cond => [cond]
  | expr e => [e]
  | skip => []

/-- The access that a statement is: a write to an element. -/
def access? : Stmt → Option Access
  | write receiver (.index idx) _ => some ⟨receiver, idx⟩
  | _ => none

/-- The access at a place in a statement; there is one place for the statement itself. -/
def accessAt? (s : Stmt) : Option (Nat × List Nat) → Option Access
  | none => s.access?
  | some place => accessIn? s.parts place

end Stmt

/-! ## Counting places -/

section Counting

variable {P Q R : Type} {a : Access}

/-- The places for an access. -/
def places (at? : P → Option Access) (a : Access) : Set P := {p | at? p = some a}

/-- Places of two kinds are counted apart. -/
theorem encard_places_add {at? : R → Option Access} {f : P → R} {g : Q → R}
    (hf : Function.Injective f) (hg : Function.Injective g) (hfg : ∀ p q, f p ≠ g q)
    (hcover : ∀ r, (∃ p, f p = r) ∨ ∃ q, g q = r) :
    (places at? a).encard =
      (places (fun p => at? (f p)) a).encard + (places (fun q => at? (g q)) a).encard := by
  have hsplit : places at? a =
      f '' places (fun p => at? (f p)) a ∪ g '' places (fun q => at? (g q)) a := by
    ext r
    constructor
    · intro hr
      rcases hcover r with ⟨p, rfl⟩ | ⟨q, rfl⟩
      · exact .inl ⟨p, hr, rfl⟩
      · exact .inr ⟨q, hr, rfl⟩
    · rintro (⟨p, hp, rfl⟩ | ⟨q, hq, rfl⟩)
      · exact hp
      · exact hq
  have hdisjoint : Disjoint (f '' places (fun p => at? (f p)) a)
      (g '' places (fun q => at? (g q)) a) := by
    rw [Set.disjoint_left]
    rintro _ ⟨p, -, rfl⟩ ⟨q, -, hq⟩
    exact hfg p q hq.symm
  rw [hsplit, Set.encard_union_eq hdisjoint, hf.encard_image, hg.encard_image]

theorem encard_places_unit (found : Option Access) :
    (places (fun _ : Unit => found) a).encard = found.toList.count a := by
  by_cases h : found = some a
  · have hall : places (fun _ : Unit => found) a = {()} :=
      Set.eq_singleton_iff_unique_mem.2 ⟨h, fun _ _ => rfl⟩
    rw [hall, h]
    simp
  · have hnone : places (fun _ : Unit => found) a = ∅ :=
      Set.eq_empty_iff_forall_notMem.2 fun _ => h
    rw [hnone]
    cases found with
    | none => simp
    | some b =>
      have hne : b ≠ a := fun hba => h (congrArg some hba)
      simp [hne]

/-- The places in several expressions are counted one expression after the other. -/
theorem encard_accessIn {es : List Expr}
    (h : ∀ e ∈ es, (places e.accessAt? a).encard = e.accesses.count a) :
    (places (accessIn? es) a).encard = (es.flatMap Expr.accesses).count a := by
  induction es with
  | nil =>
    have hnone : places (accessIn? []) a = ∅ :=
      Set.eq_empty_iff_forall_notMem.2 fun p hp => by cases hp
    rw [hnone]
    simp
  | cons e rest ih =>
    have hadd : (places (accessIn? (e :: rest)) a).encard =
        (places e.accessAt? a).encard + (places (accessIn? rest) a).encard := by
      refine encard_places_add (f := fun path => (0, path))
        (g := fun p : Nat × List Nat => (p.1 + 1, p.2)) ?_ ?_ ?_ ?_
      · exact fun _ _ h => (Prod.mk.inj h).2
      · exact fun _ _ h => by simpa [Prod.ext_iff] using h
      · exact fun _ _ h => by cases h
      · rintro ⟨_ | k, path⟩
        · exact .inl ⟨path, rfl⟩
        · exact .inr ⟨(k, path), rfl⟩
    rw [hadd, h e List.mem_cons_self, ih fun e' he' => h e' (List.mem_cons_of_mem e he'),
      List.flatMap_cons, List.count_append, Nat.cast_add]

end Counting

namespace Expr

variable {a : Access}

theorem accessesList_eq (es : List Expr) : accessesList es = es.flatMap accesses := by
  induction es with
  | nil => rfl
  | cons e rest ih => rw [accessesList, List.flatMap_cons, ih]

theorem accesses_eq (e : Expr) : e.accesses = e.access?.toList ++ e.parts.flatMap accesses := by
  cases e <;> simp [accesses, access?, parts, accessesList_eq]

theorem sizeOf_lt_of_mem_parts {e part : Expr} (h : part ∈ e.parts) : sizeOf part < sizeOf e := by
  cases e with
  | var _ | lit _ => cases h
  | binary op lhs rhs =>
    rcases List.mem_pair.1 h with rfl | rfl <;> simp only [binary.sizeOf_spec] <;> omega
  | unary op operand =>
    rw [List.mem_singleton.1 h, unary.sizeOf_spec]
    omega
  | field receiver name =>
    rw [List.mem_singleton.1 h, field.sizeOf_spec]
    omega
  | index receiver idx =>
    rcases List.mem_pair.1 h with rfl | rfl <;> simp only [index.sizeOf_spec] <;> omega
  | array elements =>
    have hpart : sizeOf part < sizeOf elements := List.sizeOf_lt_of_mem h
    rw [array.sizeOf_spec]
    omega
  | call callee args =>
    have hpart : sizeOf part < sizeOf args := List.sizeOf_lt_of_mem h
    rw [call.sizeOf_spec]
    omega

/-- An access stands in the list as often as there are paths to it. -/
theorem encard_places (e : Expr) : (places e.accessAt? a).encard = e.accesses.count a := by
  have hadd : (places e.accessAt? a).encard =
      (places (fun _ : Unit => e.access?) a).encard + (places (accessIn? e.parts) a).encard := by
    refine encard_places_add (f := fun _ => []) (g := fun p : Nat × List Nat => p.1 :: p.2)
      ?_ ?_ ?_ ?_
    · exact fun _ _ _ => rfl
    · exact fun _ _ h => by simpa [Prod.ext_iff] using h
    · exact fun _ _ h => by cases h
    · rintro (_ | ⟨k, path⟩)
      · exact .inl ⟨(), rfl⟩
      · exact .inr ⟨(k, path), rfl⟩
  rw [hadd, encard_places_unit, encard_accessIn fun part hpart => encard_places part, accesses_eq e,
    List.count_append, Nat.cast_add]
termination_by e
decreasing_by exact sizeOf_lt_of_mem_parts hpart

end Expr

namespace Stmt

variable {a : Access}

theorem perm_accesses (s : Stmt) :
    s.accesses.Perm (s.access?.toList ++ s.parts.flatMap Expr.accesses) := by
  cases s with
  | write receiver sel rhs =>
    cases sel with
    | field name => simp [accesses, access?, parts]
    | index idx =>
      simp only [accesses, access?, parts, Option.toList_some, List.flatMap_cons, List.flatMap_nil,
        List.append_nil, List.cons_append, List.nil_append]
      exact (List.perm_append_comm_assoc _ _ _).cons _
  | _ => simp [accesses, access?, parts]

/-- An access stands in the list as often as there are places for it. -/
theorem count_accesses (s : Stmt) : s.accesses.count a = (places s.accessAt? a).encard := by
  have hadd : (places s.accessAt? a).encard =
      (places (fun _ : Unit => s.access?) a).encard + (places (accessIn? s.parts) a).encard := by
    refine encard_places_add (f := fun _ => none) (g := some) ?_ ?_ ?_ ?_
    · exact fun _ _ _ => rfl
    · exact Option.some_injective _
    · exact fun _ _ h => by cases h
    · rintro (_ | place)
      · exact .inl ⟨(), rfl⟩
      · exact .inr ⟨place, rfl⟩
  rw [hadd, encard_places_unit, encard_accessIn fun e _ => e.encard_places,
    s.perm_accesses.count_eq, List.count_append, Nat.cast_add]

end Stmt

end Demanded
