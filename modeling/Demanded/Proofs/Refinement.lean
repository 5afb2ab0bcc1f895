import Demanded.Proofs.Conditions
import Demanded.Proofs.IntervalHull

/-!
# Refinement is exact

Refining an interval by a comparison keeps the hull of the integers for which the comparison can
hold (`Interval.Allowed`).  There is one exception: a strict comparison and `≠` move one bound by
one (`Interval.moved?`), and where this leaves the words, the interval stays as it is
(`Interval.refine_exact`).

All comparisons but `≠` leave exactly the integers that they allow (`holds_refine_iff`).  A `≠`
takes away one integer, which an interval can only show if it stands at an end; elsewhere both ends
are still reached (`isHull_exclude`).
-/

namespace Demanded

open Extended

namespace Interval

variable {op : BinaryOp} {a b : Interval} {V : Int → Prop}

/-! ## What a refinement has to keep -/

/-- The integers of `a` for which the comparison holds with some integer of `b`. -/
def Allowed (op : BinaryOp) (a b : Interval) (v : Int) : Prop :=
  a.Holds v ∧ ∃ w, b.Holds w ∧ op.test v w = true

/-- Where the end of an interval comes to stand that excluding `c` moves. -/
def movedEnd? (a : Interval) (c : Word) : Option Int :=
  match a with
  | bottom => none
  | range l u =>
    if l = some c then some (c.val + 1)
    else if u = some c then some (c.val - 1)
    else none

/-- Where the one bound comes to stand that a refinement moves. -/
def moved? (op : BinaryOp) (a b : Interval) : Option Int :=
  match op with
  | .lt => (b.bounds?.bind Prod.snd).map fun u => u.val - 1
  | .gt => (b.bounds?.bind Prod.fst).map fun l => l.val + 1
  | .ne => b.constant?.bind a.movedEnd?
  | _ => none

/-! ## Comparisons that leave an interval of integers -/

theorem holds_refine_iff (hop : op.isComparison = true) (hne : op ≠ .ne) (hb : b.Ordered)
    (hword : ∀ n ∈ moved? op a b, isWord n) {v : Int} :
    (a.refine op b).Holds v ↔ Allowed op a b v := by
  cases b with
  | bottom => simp [refine, Allowed]
  | range l u =>
    constructor
    · intro hv
      refine ⟨holds_of_holds_refine hv, exists_of_holds_refine hop hne hb ?_ ?_ hv⟩
      · rintro rfl d rfl
        exact hword _ rfl
      · rintro rfl d rfl
        exact hword _ rfl
    · rintro ⟨hv, w, hw, htest⟩
      exact holds_refine hv hw htest

/-! ## Excluding an integer -/

/-- An end that is not `n` is still reached when `n` is taken away. -/
theorem reached_of_ne {e : Extended} (h : e.Reached anyInt V) {n : Int}
    (hne : ∀ d, e = fin d → d.val ≠ n) : e.Reached anyInt fun v => V v ∧ v ≠ n := by
  cases e with
  | negInf =>
    intro m _
    obtain ⟨v, hv, hlt⟩ := h (min m n) trivial
    exact ⟨v, ⟨hv, by omega⟩, by omega⟩
  | fin d => exact ⟨h, hne d rfl⟩
  | posInf =>
    intro m _
    obtain ⟨v, hv, hlt⟩ := h (max m n) trivial
    exact ⟨v, ⟨hv, by omega⟩, by omega⟩

/-- What excluding an integer leaves is the hull of the others. -/
theorem isHull_exclude {d : Word} (ha : a.Ordered) (hword : ∀ n ∈ a.movedEnd? d, isWord n) :
    (a.meet (a.exclude d)).IsHull fun v => a.Holds v ∧ v ≠ d.val := by
  cases a with
  | bottom => exact isHull_bottom fun v hv => hv.1
  | range l u =>
    rw [movedEnd?] at hword
    rw [exclude]
    split
    · rename_i hl
      rw [if_pos hl] at hword
      obtain ⟨w, hw⟩ := hword _ rfl
      have hadd : d.add? Word.one = some w := Word.ofInt?_eq_some.2 hw.symm
      refine isHull_of_holds_iff (ordered_meet _ _) fun v => ?_
      rw [holds_meet_iff, holds_make, hadd, below_some]
      constructor
      · rintro ⟨hv, hle, -⟩
        exact ⟨hv, by omega⟩
      · rintro ⟨hv, hne⟩
        have := hv.1 d hl
        exact ⟨hv, by omega, hv.2⟩
    · rename_i hl
      rw [if_neg hl] at hword
      split
      · rename_i hu
        rw [if_pos hu] at hword
        obtain ⟨w, hw⟩ := hword _ rfl
        have hsub : d.sub? Word.one = some w := Word.ofInt?_eq_some.2 hw.symm
        refine isHull_of_holds_iff (ordered_meet _ _) fun v => ?_
        rw [holds_meet_iff, holds_make, hsub, above_some]
        constructor
        · rintro ⟨hv, -, hle⟩
          exact ⟨hv, by omega⟩
        · rintro ⟨hv, hne⟩
          have := hv.2 d hu
          exact ⟨hv, hv.1, by omega⟩
      · -- the integer is no end, so both ends are still reached
        rename_i hu
        rw [meet_eq_left ha fun v _ => holds_top v]
        refine isHull_of_reached (fun v hv => hv.1) (reached_of_ne (reached_ofLower ha) ?_)
          (reached_of_ne (reached_ofUpper ha) ?_)
        · intro e he hval
          exact hl ((Word.ext hval : e = d) ▸ mem_of_ofLower he)
        · intro e he hval
          exact hu ((Word.ext hval : e = d) ▸ mem_of_ofUpper he)

/-- An interval with more than one integer holds one that differs from a given one. -/
theorem exists_ne_of_constant?_eq_none (hb : b.Ordered) (hne : b ≠ bottom)
    (hconstant : b.constant? = none) (v : Int) : ∃ w, b.Holds w ∧ v ≠ w := by
  apply Classical.byContradiction
  intro hall
  have heq : ∀ w, b.Holds w → w = v := fun w hw =>
    Classical.byContradiction fun hwv => hall ⟨w, hw, Ne.symm hwv⟩
  obtain ⟨d, hd, -⟩ := constant?_of_forall_eq hb hne heq
  rw [hconstant] at hd
  cases hd

theorem isHull_refine_ne (ha : a.Ordered) (hb : b.Ordered)
    (hword : ∀ n ∈ moved? .ne a b, isWord n) : (a.refine .ne b).IsHull (Allowed .ne a b) := by
  cases b with
  | bottom =>
    refine isHull_bottom ?_
    rintro v ⟨-, w, hw, -⟩
    exact hw
  | range l u =>
    rw [moved?] at hword
    dsimp only [refine, constraint]
    cases hconstant : (range l u).constant? with
    | some d =>
      rw [hconstant] at hword
      refine (isHull_exclude ha hword).congr fun v => ?_
      have hiff : (∃ w, (range l u).Holds w ∧ BinaryOp.ne.test v w = true) ↔ v ≠ d.val := by
        constructor
        · rintro ⟨w, hw, htest⟩
          rw [← eq_of_constant? hconstant hw]
          exact of_decide_eq_true htest
        · intro hv
          obtain ⟨w, hw⟩ := exists_holds hb (by simp)
          exact ⟨w, hw, decide_eq_true (eq_of_constant? hconstant hw ▸ hv)⟩
      rw [Allowed, hiff]
    | none =>
      dsimp only
      rw [meet_eq_left ha fun v _ => holds_top v]
      refine isHull_of_holds_iff ha fun v => (and_iff_left ?_).symm
      obtain ⟨w, hw, hne⟩ := exists_ne_of_constant?_eq_none hb (by simp) hconstant v
      exact ⟨w, hw, decide_eq_true hne⟩

/-! ## Bounds that leave the words -/

theorem holds_exclude_of_overflow {d : Word} {n v : Int} (hn : n ∈ a.movedEnd? d)
    (hout : ¬isWord n) (hv : a.Holds v) : (a.exclude d).Holds v := by
  have hnone := not_isWord_iff.1 hout
  cases a with
  | bottom => exact hv.elim
  | range l u =>
    rw [movedEnd?] at hn
    rw [exclude]
    split at hn
    · rename_i hl
      cases hn
      have hadd : d.add? Word.one = none := hnone
      rw [if_pos hl, holds_make, hadd]
      exact ⟨below_none v, hv.2⟩
    · rename_i hl
      split at hn
      · rename_i hu
        cases hn
        have hsub : d.sub? Word.one = none := hnone
        rw [if_neg hl, if_pos hu, holds_make, hsub]
        exact ⟨hv.1, above_none v⟩
      · cases hn

theorem refine_eq_self (ha : a.Ordered) {n : Int} (hn : n ∈ moved? op a b) (hout : ¬isWord n) :
    a.refine op b = a := by
  have hnone := not_isWord_iff.1 hout
  cases b with
  | bottom => cases op <;> cases hn
  | range l u =>
    refine meet_eq_left ha fun v hv => ?_
    cases op with
    | lt =>
      obtain ⟨d, hd, rfl⟩ := Option.map_eq_some_iff.1 hn
      obtain rfl : u = some d := hd
      have hsub : d.sub? Word.one = none := hnone
      refine holds_make.2 ⟨below_none v, ?_⟩
      rw [Option.bind_some, hsub]
      exact above_none v
    | gt =>
      obtain ⟨d, hd, rfl⟩ := Option.map_eq_some_iff.1 hn
      obtain rfl : l = some d := hd
      have hadd : d.add? Word.one = none := hnone
      refine holds_make.2 ⟨?_, above_none v⟩
      rw [Option.bind_some, hadd]
      exact below_none v
    | ne =>
      obtain ⟨d, hd, hn⟩ := Option.bind_eq_some_iff.1 hn
      dsimp only [constraint]
      rw [hd]
      exact holds_exclude_of_overflow hn hout hv
    | le | ge | eq | add | sub | mul | div | rem | and | or => cases hn

/-- Refinement keeps the hull of the integers that the comparison allows, unless the bound that it
moves leaves the words: then it keeps all. -/
theorem refine_exact (hop : op.isComparison = true) (ha : a.Ordered) (hb : b.Ordered) :
    ((∀ n ∈ moved? op a b, isWord n) →
      (a.refine op b).IsHull (Allowed op a b) ∧
        (a.refine op b = bottom ↔ ∀ v, ¬Allowed op a b v)) ∧
      ∀ n ∈ moved? op a b, ¬isWord n → a.refine op b = a := by
  refine ⟨fun hword => ?_, fun n hn hout => refine_eq_self ha hn hout⟩
  have hhull : (a.refine op b).IsHull (Allowed op a b) := by
    by_cases hne : op = .ne
    · subst hne
      exact isHull_refine_ne ha hb hword
    · exact isHull_of_holds_iff (ordered_refine op a b) fun v => holds_refine_iff hop hne hb hword
  exact ⟨hhull, hhull.eq_bottom_iff⟩

/-- The least word. -/
def firstWord : Word := (Word.ofInt? (-9223372036854775808)).get rfl

/-- Of zero and one, only one is not zero.  Nothing is refined by being less than the least word. -/
theorem refine_exact_ends :
    ((range (some .zero) (some .one)).refine .ne (constant .zero) = constant .one ∧
      ((range (some .zero) (some .one)).refine .ne (constant .zero)).IsHull
        (Allowed .ne (range (some .zero) (some .one)) (constant .zero))) ∧
      (atLeast .zero).refine .lt (constant firstWord) = atLeast .zero := by
  have hrange : (range (some .zero) (some .one)).Ordered := ordered_make (some .zero) (some .one)
  refine ⟨⟨by decide, ?_⟩, ?_⟩
  · refine ((refine_exact rfl hrange (ordered_constant .zero)).1 fun n hn => ?_).1
    obtain rfl : 1 = n := Option.some.inj hn
    exact ⟨.one, rfl⟩
  · refine (refine_exact rfl (ordered_make (some .zero) none) (ordered_constant firstWord)).2
      (-9223372036854775809) (by decide) ?_
    rintro ⟨w, hw⟩
    have := w.min_le
    omega

end Interval

end Demanded
