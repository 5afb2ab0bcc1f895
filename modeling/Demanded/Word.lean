/-!
# Signed 64-bit integers

A `Word` is an integer between `-2 ^ 63` and `2 ^ 63 - 1`, held by its value.  Arithmetic is
checked: each operation is done on the integers, and its result is kept only if it is a word again.

`Word.ofInt?_eq_some` is the one fact about the range that the operations below need: a checked
operation answers `w` exactly when the integer result is the value of `w`.
-/

namespace Demanded

/-- An integer in the range of a signed 64-bit machine word. -/
@[ext]
structure Word where
  /-- The value of the word. -/
  val : Int
  /-- The value is not below the range. -/
  min_le : -9223372036854775808 ≤ val
  /-- The value is not above the range. -/
  le_max : val ≤ 9223372036854775807
deriving DecidableEq

namespace Word

/-- The word with the value `n`, if there is one. -/
def ofInt? (n : Int) : Option Word :=
  if h : -9223372036854775808 ≤ n ∧ n ≤ 9223372036854775807 then some ⟨n, h.1, h.2⟩ else none

/-- The word `0`. -/
def zero : Word := ⟨0, by decide, by decide⟩

/-- The word `1`. -/
def one : Word := ⟨1, by decide, by decide⟩

instance : LE Word := ⟨fun a b => a.val ≤ b.val⟩

instance : LT Word := ⟨fun a b => a.val < b.val⟩

instance (a b : Word) : Decidable (a ≤ b) := inferInstanceAs (Decidable (a.val ≤ b.val))

instance (a b : Word) : Decidable (a < b) := inferInstanceAs (Decidable (a.val < b.val))

/-- Words are compared by value. -/
instance : Ord Word := ⟨compareOn val⟩

/-- The smaller of two words. -/
instance : Min Word := ⟨fun a b => if a ≤ b then a else b⟩

/-- The greater of two words. -/
instance : Max Word := ⟨fun a b => if a ≤ b then b else a⟩

/-! ## Checked arithmetic -/

/-- The sum, if it is a word. -/
def add? (a b : Word) : Option Word := ofInt? (a.val + b.val)

/-- The difference, if it is a word. -/
def sub? (a b : Word) : Option Word := ofInt? (a.val - b.val)

/-- The product, if it is a word. -/
def mul? (a b : Word) : Option Word := ofInt? (a.val * b.val)

/-- The opposite, if it is a word. -/
def neg? (a : Word) : Option Word := ofInt? (-a.val)

/-- The absolute value, if it is a word. -/
def abs? (a : Word) : Option Word := ofInt? a.val.natAbs

/-- The quotient rounded toward zero, if the divisor is not zero and the quotient is a word. -/
def quot? (a b : Word) : Option Word :=
  if b.val = 0 then none else ofInt? (a.val.tdiv b.val)

/-! ## The range -/

theorem ofInt?_eq_some {n : Int} {w : Word} : ofInt? n = some w ↔ n = w.val := by
  unfold ofInt?
  split
  · rename_i h
    constructor
    · intro he
      cases he
      rfl
    · intro he
      exact congrArg some (Word.ext he)
  · rename_i h
    constructor
    · intro he
      cases he
    · intro he
      exact absurd ⟨he ▸ w.min_le, he ▸ w.le_max⟩ h

@[simp]
theorem ofInt?_val (w : Word) : ofInt? w.val = some w :=
  ofInt?_eq_some.2 rfl

theorem le_iff {a b : Word} : a ≤ b ↔ a.val ≤ b.val := Iff.rfl

theorem lt_iff {a b : Word} : a < b ↔ a.val < b.val := Iff.rfl

end Word

end Demanded
