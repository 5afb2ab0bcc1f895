import Demanded.Proofs.Conditions
import Demanded.Proofs.NormalForm

/-!
# What the interval of a condition decides

The interval of a comparison or of a logical operator holds exactly the truth values that the
operator has on the integers of its operands (`holds_condition_iff`), and so does the interval of a
negation (`holds_not_iff`).  Since an interval is known by its integers, it is `[1, 1]`, `[0, 0]` or
`[0, 1]` exactly if the condition is always true, always false, or neither (`Interval.Decides`).

Everything else about conditions goes through these integers and not through the bounds: the
opposite of a comparison has the opposite interval (`evalBinary_of_negate?`), and changing the sides
of a comparison does not change its interval (`evalBinary_of_swap?`).
-/

namespace Demanded

theorem Truth.admits_always_iff {b : Bool} : Truth.always.Admits b ↔ b = true := by
  cases b <;> simp [Admits, mayBeTrue, mayBeFalse]

theorem Truth.admits_never_iff {b : Bool} : Truth.never.Admits b ↔ b = false := by
  cases b <;> simp [Admits, mayBeTrue, mayBeFalse]

namespace Interval

variable {a b c : Interval} {v : Int}

/-! ## The integers of a condition -/

theorem holds_ofTruth_iff {t : Truth} :
    (ofTruth t).Holds v ↔ ∃ b, t.Admits b ∧ v = truthValue b := by
  refine ⟨exists_of_holds_ofTruth, ?_⟩
  rintro ⟨b, hb, rfl⟩
  exact holds_ofTruth hb

theorem holds_condition_iff {op : BinaryOp} (ha : a.Ordered) (hb : b.Ordered)
    (hop : op.isComparison = true ∨ op = .and ∨ op = .or) :
    (evalBinary op a b).Holds v ↔ ∃ x y, a.Holds x ∧ b.Holds y ∧ v = truthValue (op.test x y) := by
  constructor
  · intro hv
    obtain ⟨x, y, hx, hy, hgives⟩ := results_of_condition ha hb hop hv
    exact ⟨x, y, hx, hy, (BinaryOp.gives_iff_test hop).1 hgives⟩
  · rintro ⟨x, y, hx, hy, hv⟩
    exact holds_evalBinary hx hy ((BinaryOp.gives_iff_test hop).2 hv)

theorem holds_not_iff (ha : a.Ordered) :
    (evalUnary .not a).Holds v ↔ ∃ x, a.Holds x ∧ v = truthValue (decide (x = 0)) := by
  refine ⟨exists_of_holds_not ha, ?_⟩
  rintro ⟨x, hx, hv⟩
  exact holds_evalUnary hx hv

/-! ## Decisions -/

/-- The interval says of a test whether it succeeds in all, in none or in some of the cases. -/
structure Decides {α : Type} (c : Interval) (S : α → Prop) (test : α → Bool) : Prop where
  always : c = constant Word.one ↔ ∀ i, S i → test i = true
  never : c = constant Word.zero ↔ ∀ i, S i → test i = false
  either : c = make (some Word.zero) (some Word.one) ↔
    (¬∀ i, S i → test i = true) ∧ ¬∀ i, S i → test i = false

section Decides

variable {α : Type} {S : α → Prop} {test : α → Bool}

/-- An interval around the truth values of a test admits those that occur. -/
theorem eq_ofTruth_iff {t : Truth} (hc : c.Ordered)
    (h : ∀ v, c.Holds v ↔ ∃ i, S i ∧ v = truthValue (test i)) :
    c = ofTruth t ↔ ∀ b, t.Admits b ↔ ∃ i, S i ∧ test i = b := by
  constructor
  · rintro rfl b
    have hb := h (truthValue b)
    simp only [holds_ofTruth_iff, truthValue_inj] at hb
    simpa [eq_comm] using hb
  · intro hadmits
    refine eq_of_holds_iff hc (ordered_ofTruth t) fun v => ?_
    rw [h, holds_ofTruth_iff]
    constructor
    · rintro ⟨i, hi, hv⟩
      exact ⟨test i, (hadmits _).2 ⟨i, hi, rfl⟩, hv⟩
    · rintro ⟨b, hb, hv⟩
      obtain ⟨i, hi, rfl⟩ := (hadmits b).1 hb
      exact ⟨i, hi, hv⟩

/-- Only one truth value occurs exactly if all cases have it. -/
theorem only_occurs_iff (hne : ∃ i, S i) {d : Bool} :
    (∀ b, b = d ↔ ∃ i, S i ∧ test i = b) ↔ ∀ i, S i → test i = d := by
  constructor
  · intro hall i hi
    exact (hall (test i)).2 ⟨i, hi, rfl⟩
  · intro hall b
    constructor
    · rintro rfl
      obtain ⟨i, hi⟩ := hne
      exact ⟨i, hi, hall i hi⟩
    · rintro ⟨i, hi, rfl⟩
      exact hall i hi

theorem decides_of_holds_iff (hc : c.Ordered) (hne : ∃ i, S i)
    (h : ∀ v, c.Holds v ↔ ∃ i, S i ∧ v = truthValue (test i)) : c.Decides S test where
  always := by
    rw [show constant Word.one = ofTruth .always from rfl, eq_ofTruth_iff hc h]
    simp only [Truth.admits_always_iff]
    exact only_occurs_iff hne
  never := by
    rw [show constant Word.zero = ofTruth .never from rfl, eq_ofTruth_iff hc h]
    simp only [Truth.admits_never_iff]
    exact only_occurs_iff hne
  either := by
    rw [show make (some Word.zero) (some Word.one) = ofTruth .either from rfl, eq_ofTruth_iff hc h]
    simp [Truth.admits_either]

end Decides

/-! ## The symmetries of comparisons -/

/-- The opposite of a comparison has the opposite interval. -/
theorem evalBinary_of_negate? {op op' : BinaryOp} (ha : a.Ordered) (hb : b.Ordered)
    (hop : op.negate? = some op') : evalBinary op' a b = evalUnary .not (evalBinary op a b) := by
  have hcomparison := BinaryOp.isComparison_of_negate? hop
  refine eq_of_holds_iff (ordered_evalBinary _ _ _) (ordered_evalUnary _ _) fun v => ?_
  rw [holds_condition_iff ha hb (.inl hcomparison.2), holds_not_iff (ordered_evalBinary _ _ _)]
  simp only [BinaryOp.test_of_negate? hop, holds_condition_iff ha hb (.inl hcomparison.1)]
  constructor
  · rintro ⟨x, y, hx, hy, hv⟩
    refine ⟨_, ⟨x, y, hx, hy, rfl⟩, ?_⟩
    rw [hv, decide_truthValue_eq_zero]
  · rintro ⟨_, ⟨x, y, hx, hy, rfl⟩, hv⟩
    rw [decide_truthValue_eq_zero] at hv
    exact ⟨x, y, hx, hy, hv⟩

/-- A comparison does not change when its operands change sides. -/
theorem evalBinary_of_swap? {op op' : BinaryOp} (ha : a.Ordered) (hb : b.Ordered)
    (hop : op.swap? = some op') : evalBinary op' b a = evalBinary op a b := by
  have hcomparison := BinaryOp.isComparison_of_swap? hop
  refine eq_of_holds_iff (ordered_evalBinary _ _ _) (ordered_evalBinary _ _ _) fun v => ?_
  rw [holds_condition_iff hb ha (.inl hcomparison.2),
    holds_condition_iff ha hb (.inl hcomparison.1)]
  constructor
  · rintro ⟨y, x, hy, hx, hv⟩
    exact ⟨x, y, hx, hy, BinaryOp.test_of_swap? hop ▸ hv⟩
  · rintro ⟨x, y, hx, hy, hv⟩
    exact ⟨y, x, hy, hx, BinaryOp.test_of_swap? hop ▸ hv⟩

/-- Conditions are exact on intervals with bounds that are not crossed, and agree with the
symmetries of comparisons. -/
theorem conditions_decided (ha : a.Ordered) (hb : b.Ordered) (hna : a ≠ bottom) (hnb : b ≠ bottom) :
    (∀ op : BinaryOp, op.isComparison = true ∨ op = .and ∨ op = .or →
      (evalBinary op a b).Decides (fun i : Int × Int => a.Holds i.1 ∧ b.Holds i.2)
        fun i => op.test i.1 i.2) ∧
      (evalUnary .not a).Decides a.Holds (fun x => decide (x = 0)) ∧
      ∀ op : BinaryOp, op.isComparison = true →
        (∃ op', op.negate? = some op' ∧
          evalBinary op' a b = evalUnary .not (evalBinary op a b)) ∧
        ∃ op', op.swap? = some op' ∧ evalBinary op' b a = evalBinary op a b := by
  refine ⟨fun op hop => ?_, ?_, fun op hop => ⟨?_, ?_⟩⟩
  · refine decides_of_holds_iff (ordered_evalBinary op a b) (exists_pair ha hb hna hnb) fun v => ?_
    rw [holds_condition_iff ha hb hop]
    simp only [Prod.exists, and_assoc]
  · exact decides_of_holds_iff (ordered_evalUnary _ a) (exists_holds ha hna) fun v =>
      holds_not_iff ha
  · obtain ⟨op', hnegate⟩ := Option.isSome_iff_exists.1 ((BinaryOp.negate?_isSome op).trans hop)
    exact ⟨op', hnegate, evalBinary_of_negate? ha hb hnegate⟩
  · obtain ⟨op', hswap⟩ := Option.isSome_iff_exists.1 ((BinaryOp.swap?_isSome op).trans hop)
    exact ⟨op', hswap, evalBinary_of_swap? ha hb hswap⟩

/-- Two intervals that touch at one: the first is at most the second, and they may be equal. -/
theorem conditions_decided_touching :
    evalBinary .le (atMost .one) (atLeast .one) = constant .one ∧
      (evalBinary .le (atMost .one) (atLeast .one)).Decides
        (fun i : Int × Int => (atMost .one).Holds i.1 ∧ (atLeast .one).Holds i.2)
        (fun i => BinaryOp.le.test i.1 i.2) ∧
      evalBinary .eq (atMost .one) (atLeast .one) = make (some .zero) (some .one) ∧
      (evalBinary .eq (atMost .one) (atLeast .one)).Decides
        (fun i : Int × Int => (atMost .one).Holds i.1 ∧ (atLeast .one).Holds i.2)
        (fun i => BinaryOp.eq.test i.1 i.2) := by
  have h := conditions_decided (ordered_make none (some .one)) (ordered_make (some .one) none)
    (by decide) (by decide)
  exact ⟨by decide, h.1 .le (.inl rfl), by decide, h.1 .eq (.inl rfl)⟩

end Interval

end Demanded
