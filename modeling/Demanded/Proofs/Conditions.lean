import Demanded.Proofs.IntervalEnds

/-!
# Conditions are exact

Comparisons look at bounds only, and nothing is lost by it: a truth value that the comparison of two
intervals admits is the one for some of their integers (`exists_of_admits_less_strict` and its
companions).  So the interval of a condition holds no other integers than the values of the
condition (`results_of_condition`).

Refinement is exact in the same way, as long as the bound that it moves by one stays a word
(`exists_of_holds_refine`).
-/

namespace Demanded

open Extended

/-! ## Truth -/

namespace Truth

variable {s t : Truth} {b : Bool}

theorem admits_of_not (h : t.not.Admits b) : t.Admits (!b) := by
  cases t <;> cases b <;> simp_all [Admits, Truth.not, mayBeTrue, mayBeFalse]

theorem exists_of_admits_and (h : (s.and t).Admits b) :
    ∃ c d, s.Admits c ∧ t.Admits d ∧ (c && d) = b := by
  cases s <;> cases t <;> cases b <;> simp_all [Admits, Truth.and, mayBeTrue, mayBeFalse]

theorem exists_of_admits_or (h : (s.or t).Admits b) :
    ∃ c d, s.Admits c ∧ t.Admits d ∧ (c || d) = b := by
  cases s <;> cases t <;> cases b <;> simp_all [Admits, Truth.or, mayBeTrue, mayBeFalse]

/-- A truth value is admitted only if it occurs, when one test tells that a property holds of all
cases and another that it holds of none. -/
theorem exists_of_admits_tests {α : Type} {S : α → Prop} {p : α → Bool} {c d : Prop} [Decidable c]
    [Decidable d] (hne : ∃ i, S i) (hall : c ↔ ∀ i, S i → p i = true)
    (hnone : (∀ i, S i → p i = false) → d)
    (h : (if c then Truth.always else if d then .never else .either).Admits b) :
    ∃ i, S i ∧ p i = b := by
  apply Classical.byContradiction
  intro habsent
  have hother : ∀ i, S i → p i = !b := by
    intro i hi
    have hpi : p i ≠ b := fun hp => habsent ⟨i, hi, hp⟩
    cases b <;> simp_all
  cases b with
  | false =>
    rw [if_pos (hall.2 hother)] at h
    cases h
  | true =>
    obtain ⟨i, hi⟩ := hne
    have hc : ¬c := by
      intro hc
      have := hother i hi
      simp [hall.1 hc i hi] at this
    rw [if_neg hc, if_pos (hnone hother)] at h
    cases h

end Truth

namespace Interval

variable {a b : Interval} {x y : Int} {c : Bool}

theorem exists_of_holds_ofTruth {t : Truth} {v : Int} (h : (ofTruth t).Holds v) :
    ∃ c, t.Admits c ∧ v = truthValue c := by
  cases t with
  | always => exact ⟨true, rfl, holds_constant.1 h⟩
  | never => exact ⟨false, rfl, holds_constant.1 h⟩
  | either =>
    rw [ofTruth, holds_make, below_some, above_some] at h
    have hlow : 0 ≤ v := h.1
    have hhigh : v ≤ 1 := h.2
    by_cases hv : v = 0
    · exact ⟨false, rfl, hv⟩
    · refine ⟨true, rfl, ?_⟩
      show v = 1
      omega
  | neither => exact h.elim

/-! ## Bounds -/

/-- Unless one interval has an upper and another a lower bound, some integer of the first is above
one of the second. -/
theorem bounded_or_above {l₁ u₁ l₂ u₂ : Bound} (h₁ : (range l₁ u₁).Ordered)
    (h₂ : (range l₂ u₂).Ordered) :
    (∃ c d, u₁ = some c ∧ l₂ = some d ∧ (range l₁ u₁).Holds c.val ∧ (range l₂ u₂).Holds d.val) ∨
      ∃ x y, (range l₁ u₁).Holds x ∧ (range l₂ u₂).Holds y ∧ y < x := by
  have hup := reached_ofUpper h₁
  have hlow := reached_ofLower h₂
  cases u₁ with
  | none =>
    obtain ⟨y, hy⟩ := exists_holds h₂ (by simp)
    obtain ⟨x, hx, hlt⟩ := hup y trivial
    exact .inr ⟨x, y, hx, hy, hlt⟩
  | some c =>
    cases l₂ with
    | none =>
      obtain ⟨x, hx⟩ := exists_holds h₁ (by simp)
      obtain ⟨y, hy, hlt⟩ := hlow x trivial
      exact .inr ⟨x, y, hx, hy, hlt⟩
    | some d => exact .inl ⟨c, d, rfl, rfl, hup, hlow⟩

/-- If the integers of one interval are at most those of another, the bounds say so. -/
theorem le_bounds {l₁ u₁ l₂ u₂ : Bound} (h₁ : (range l₁ u₁).Ordered) (h₂ : (range l₂ u₂).Ordered)
    (h : ∀ x y, (range l₁ u₁).Holds x → (range l₂ u₂).Holds y → x ≤ y) :
    (ofUpper u₁).le (ofLower l₂) = true := by
  rcases bounded_or_above h₁ h₂ with ⟨c, d, rfl, rfl, hc, hd⟩ | ⟨x, y, hx, hy, hlt⟩
  · exact decide_eq_true (h c.val d.val hc hd)
  · have := h x y hx hy
    omega

theorem lt_bounds {l₁ u₁ l₂ u₂ : Bound} (h₁ : (range l₁ u₁).Ordered) (h₂ : (range l₂ u₂).Ordered)
    (h : ∀ x y, (range l₁ u₁).Holds x → (range l₂ u₂).Holds y → x < y) :
    (ofUpper u₁).lt (ofLower l₂) = true := by
  rcases bounded_or_above h₁ h₂ with ⟨c, d, rfl, rfl, hc, hd⟩ | ⟨x, y, hx, hy, hlt⟩
  · have hcd := h c.val d.val hc hd
    simp only [ofUpper, ofLower, Extended.lt, le, Word.le_iff, Bool.not_eq_true',
      decide_eq_false_iff_not]
    omega
  · have := h x y hx hy
    omega

/-- An interval around a single integer is a constant. -/
theorem constant?_of_forall_eq {n : Int} (ha : a.Ordered) (hne : a ≠ bottom)
    (h : ∀ x, a.Holds x → x = n) : ∃ w, a.constant? = some w ∧ w.val = n := by
  cases a with
  | bottom => exact absurd rfl hne
  | range l u =>
    have hlow := reached_ofLower ha
    have hup := reached_ofUpper ha
    cases l with
    | none =>
      obtain ⟨x, hx, hlt⟩ := hlow n trivial
      have := h x hx
      omega
    | some d =>
      cases u with
      | none =>
        obtain ⟨x, hx, hlt⟩ := hup n trivial
        have := h x hx
        omega
      | some e =>
        have hd := h d.val hlow
        have he := h e.val hup
        have hde : d = e := Word.ext (hd.trans he.symm)
        exact ⟨d, if_pos hde, hd⟩

/-! ## Tests -/

theorem exists_of_admits_truth (ha : a.Ordered) (h : a.truth.Admits c) :
    ∃ x, a.Holds x ∧ decide (x ≠ 0) = c := by
  apply Classical.byContradiction
  intro habsent
  have hother : ∀ x, a.Holds x → decide (x ≠ 0) = !c := by
    intro x hx
    have hpx : decide (x ≠ 0) ≠ c := fun hp => habsent ⟨x, hx, hp⟩
    cases c <;> simp_all
  cases a with
  | bottom => cases c <;> cases h
  | range l u =>
    dsimp only [truth] at h
    cases c with
    | false =>
      have hzero : (range l u).contains Word.zero = false := by
        apply contains_zero_eq_false
        intro hzero
        have := hother 0 hzero
        simp at this
      have hconstant : (range l u).constant? ≠ some Word.zero := by
        intro hconstant
        obtain ⟨x, hx⟩ := exists_holds ha (by simp)
        have hx0 := eq_of_constant? hconstant hx
        have := hother x hx
        rw [hx0] at this
        cases this
      rw [if_neg hconstant, hzero, if_neg Bool.false_ne_true] at h
      cases h
    | true =>
      obtain ⟨w, hw, hzero⟩ : ∃ w, (range l u).constant? = some w ∧ w.val = 0 := by
        apply constant?_of_forall_eq ha (by simp)
        intro x hx
        simpa using hother x hx
      have hconstant : (range l u).constant? = some Word.zero := by
        rw [hw, (Word.ext hzero : w = Word.zero)]
      rw [if_pos hconstant] at h
      cases h

theorem exists_pair (ha : a.Ordered) (hb : b.Ordered) (hna : a ≠ bottom) (hnb : b ≠ bottom) :
    ∃ i : Int × Int, a.Holds i.1 ∧ b.Holds i.2 := by
  obtain ⟨x, hx⟩ := exists_holds ha hna
  obtain ⟨y, hy⟩ := exists_holds hb hnb
  exact ⟨(x, y), hx, hy⟩

theorem exists_of_admits_less_strict (ha : a.Ordered) (hb : b.Ordered)
    (h : (less true a b).Admits c) : ∃ x y, a.Holds x ∧ b.Holds y ∧ decide (x < y) = c := by
  cases a with
  | bottom => cases c <;> cases h
  | range l₁ u₁ =>
    cases b with
    | bottom => cases c <;> cases h
    | range l₂ u₂ =>
      obtain ⟨⟨x, y⟩, ⟨hx, hy⟩, hxy⟩ := Truth.exists_of_admits_tests
        (p := fun i : Int × Int => decide (i.1 < i.2)) (exists_pair ha hb (by simp) (by simp))
        ⟨fun hlt i hi => decide_eq_true (lt_of_bounds hlt hi.1.2 hi.2.1),
          fun hall => lt_bounds ha hb fun x y hx hy => of_decide_eq_true (hall (x, y) ⟨hx, hy⟩)⟩
        (fun hnone => le_bounds hb ha fun y x hy hx =>
          Int.not_lt.1 (of_decide_eq_false (hnone (x, y) ⟨hx, hy⟩))) h
      exact ⟨x, y, hx, hy, hxy⟩

theorem exists_of_admits_less (ha : a.Ordered) (hb : b.Ordered)
    (h : (less false a b).Admits c) : ∃ x y, a.Holds x ∧ b.Holds y ∧ decide (x ≤ y) = c := by
  cases a with
  | bottom => cases c <;> cases h
  | range l₁ u₁ =>
    cases b with
    | bottom => cases c <;> cases h
    | range l₂ u₂ =>
      obtain ⟨⟨x, y⟩, ⟨hx, hy⟩, hxy⟩ := Truth.exists_of_admits_tests
        (p := fun i : Int × Int => decide (i.1 ≤ i.2)) (exists_pair ha hb (by simp) (by simp))
        ⟨fun hle i hi => decide_eq_true (le_of_bounds hle hi.1.2 hi.2.1),
          fun hall => le_bounds ha hb fun x y hx hy => of_decide_eq_true (hall (x, y) ⟨hx, hy⟩)⟩
        (fun hnone => lt_bounds hb ha fun y x hy hx =>
          Int.not_le.1 (of_decide_eq_false (hnone (x, y) ⟨hx, hy⟩))) h
      exact ⟨x, y, hx, hy, hxy⟩

/-- Two intervals are the same constant if all their integers are equal. -/
theorem sameConstant_iff (ha : a.Ordered) (hb : b.Ordered) (hna : a ≠ bottom) (hnb : b ≠ bottom) :
    (a.constant?.isSome && a.constant? == b.constant?) = true ↔
      ∀ x y, a.Holds x → b.Holds y → x = y := by
  rw [Bool.and_eq_true, Option.isSome_iff_exists, beq_iff_eq]
  constructor
  · rintro ⟨⟨w, hw⟩, hsame⟩ x y hx hy
    exact (eq_of_constant? hw hx).trans (eq_of_constant? (hsame ▸ hw) hy).symm
  · intro heq
    obtain ⟨⟨x, y⟩, hx, hy⟩ := exists_pair ha hb hna hnb
    obtain ⟨w, hw, hwy⟩ := constant?_of_forall_eq ha hna fun x' hx' => heq x' y hx' hy
    obtain ⟨w', hw', hwx⟩ := constant?_of_forall_eq hb hnb fun y' hy' => (heq x y' hx hy').symm
    have hww : w = w' := Word.ext (hwy.trans ((heq x y hx hy).symm.trans hwx.symm))
    exact ⟨⟨w, hw⟩, by rw [hw, hw', hww]⟩

theorem isBottom_meet (h : ∀ v, a.Holds v → ¬b.Holds v) : (a.meet b).isBottom = true := by
  rw [isBottom_iff]
  apply Classical.byContradiction
  intro hmeet
  obtain ⟨v, hv⟩ := exists_holds (ordered_meet a b) hmeet
  exact h v (holds_meet_iff.1 hv).1 (holds_meet_iff.1 hv).2

theorem exists_of_admits_equal (ha : a.Ordered) (hb : b.Ordered) (h : (equal a b).Admits c) :
    ∃ x y, a.Holds x ∧ b.Holds y ∧ decide (x = y) = c := by
  unfold equal at h
  split at h
  · cases c <;> cases h
  · rename_i hbottom
    rw [Bool.or_eq_true, isBottom_iff, isBottom_iff, not_or] at hbottom
    obtain ⟨hna, hnb⟩ := hbottom
    have hsame := sameConstant_iff ha hb hna hnb
    obtain ⟨⟨x, y⟩, ⟨hx, hy⟩, hxy⟩ := Truth.exists_of_admits_tests
      (p := fun i : Int × Int => decide (i.1 = i.2)) (exists_pair ha hb hna hnb)
      ⟨fun h i hi => decide_eq_true (hsame.1 h i.1 i.2 hi.1 hi.2),
        fun hall => hsame.2 fun x y hx hy => of_decide_eq_true (hall (x, y) ⟨hx, hy⟩)⟩
      (fun hnone => isBottom_meet fun v hva hvb =>
        of_decide_eq_false (hnone (v, v) ⟨hva, hvb⟩) rfl) h
    exact ⟨x, y, hx, hy, hxy⟩

/-! ## Operators -/

theorem exists_of_holds_tests {t : Truth} {p : Int → Int → Bool} {v : Int}
    (h : ∀ c, t.Admits c → ∃ x y, a.Holds x ∧ b.Holds y ∧ p x y = c) (hv : (ofTruth t).Holds v) :
    ∃ x y, a.Holds x ∧ b.Holds y ∧ v = truthValue (p x y) := by
  obtain ⟨c, hc, rfl⟩ := exists_of_holds_ofTruth hv
  obtain ⟨x, y, hx, hy, rfl⟩ := h c hc
  exact ⟨x, y, hx, hy, rfl⟩

/-- The interval of a comparison or of a logical operator holds no other values than the operator
has. -/
theorem results_of_condition {op : BinaryOp} {v : Int} (ha : a.Ordered) (hb : b.Ordered)
    (hop : op.isComparison = true ∨ op = .and ∨ op = .or) (h : (evalBinary op a b).Holds v) :
    Results op a b v := by
  unfold evalBinary at h
  split at h
  · exact h.elim
  · cases op with
    | lt => exact exists_of_holds_tests (fun c hc => exists_of_admits_less_strict ha hb hc) h
    | le => exact exists_of_holds_tests (fun c hc => exists_of_admits_less ha hb hc) h
    | gt =>
      obtain ⟨y, x, hy, hx, hv⟩ :=
        exists_of_holds_tests (fun c hc => exists_of_admits_less_strict hb ha hc) h
      exact ⟨x, y, hx, hy, hv⟩
    | ge =>
      obtain ⟨y, x, hy, hx, hv⟩ :=
        exists_of_holds_tests (fun c hc => exists_of_admits_less hb ha hc) h
      exact ⟨x, y, hx, hy, hv⟩
    | eq => exact exists_of_holds_tests (fun c hc => exists_of_admits_equal ha hb hc) h
    | ne =>
      refine exists_of_holds_tests (fun c hc => ?_) h
      obtain ⟨x, y, hx, hy, hxy⟩ := exists_of_admits_equal ha hb (Truth.admits_of_not hc)
      exact ⟨x, y, hx, hy, by rw [BinaryOp.test, decide_not, hxy, Bool.not_not]⟩
    | and =>
      refine exists_of_holds_tests (fun c hc => ?_) h
      obtain ⟨d, e, hd, he, rfl⟩ := Truth.exists_of_admits_and hc
      obtain ⟨x, hx, rfl⟩ := exists_of_admits_truth ha hd
      obtain ⟨y, hy, rfl⟩ := exists_of_admits_truth hb he
      exact ⟨x, y, hx, hy, rfl⟩
    | or =>
      refine exists_of_holds_tests (fun c hc => ?_) h
      obtain ⟨d, e, hd, he, rfl⟩ := Truth.exists_of_admits_or hc
      obtain ⟨x, hx, rfl⟩ := exists_of_admits_truth ha hd
      obtain ⟨y, hy, rfl⟩ := exists_of_admits_truth hb he
      exact ⟨x, y, hx, hy, rfl⟩
    | add | sub | mul | div | rem => simp [BinaryOp.isComparison] at hop

theorem exists_of_holds_not {v : Int} (ha : a.Ordered) (h : (evalUnary .not a).Holds v) :
    ∃ x, a.Holds x ∧ UnaryOp.not.Gives x v := by
  obtain ⟨c, hc, rfl⟩ := exists_of_holds_ofTruth h
  obtain ⟨x, hx, hxc⟩ := exists_of_admits_truth ha (Truth.admits_of_not hc)
  refine ⟨x, hx, congrArg truthValue ?_⟩
  rw [← Bool.not_not (decide (x = 0)), ← decide_not, hxc, Bool.not_not]

/-! ## Refinement -/

theorem holds_of_holds_refine {op : BinaryOp} {v : Int} (h : (a.refine op b).Holds v) :
    a.Holds v := by
  cases b with
  | bottom => exact h.elim
  | range l u => exact (holds_meet_iff.1 h).1

/-- A comparison other than `≠` leaves only integers for which it holds, if the bound that it moves
by one stays a word. -/
theorem exists_of_holds_refine {op : BinaryOp} {l u : Bound} {v : Int}
    (hop : op.isComparison = true) (hne : op ≠ .ne) (hb : (range l u).Ordered)
    (hlt : op = .lt → ∀ d ∈ u, isWord (d.val - 1)) (hgt : op = .gt → ∀ d ∈ l, isWord (d.val + 1))
    (h : (a.refine op (range l u)).Holds v) : ∃ y, (range l u).Holds y ∧ op.test v y = true := by
  have hup := reached_ofUpper hb
  have hlow := reached_ofLower hb
  obtain ⟨-, hv⟩ := holds_meet_iff.1 h
  cases op with
  | lt =>
    rw [constraint, holds_make] at hv
    cases u with
    | none =>
      obtain ⟨y, hy, hvy⟩ := hup v trivial
      exact ⟨y, hy, decide_eq_true hvy⟩
    | some d =>
      obtain ⟨w, hw⟩ := hlt rfl d rfl
      have hle := hv.2 w (Word.ofInt?_eq_some.2 hw.symm)
      exact ⟨d.val, hup, decide_eq_true (by omega)⟩
  | le =>
    rw [constraint, holds_make] at hv
    cases u with
    | none =>
      obtain ⟨y, hy, hvy⟩ := hup v trivial
      exact ⟨y, hy, decide_eq_true (Int.le_of_lt hvy)⟩
    | some d => exact ⟨d.val, hup, decide_eq_true (hv.2 d rfl)⟩
  | gt =>
    rw [constraint, holds_make] at hv
    cases l with
    | none =>
      obtain ⟨y, hy, hvy⟩ := hlow v trivial
      exact ⟨y, hy, decide_eq_true hvy⟩
    | some d =>
      obtain ⟨w, hw⟩ := hgt rfl d rfl
      have hle := hv.1 w (Word.ofInt?_eq_some.2 hw.symm)
      exact ⟨d.val, hlow, decide_eq_true (by omega)⟩
  | ge =>
    rw [constraint, holds_make] at hv
    cases l with
    | none =>
      obtain ⟨y, hy, hvy⟩ := hlow v trivial
      exact ⟨y, hy, decide_eq_true (Int.le_of_lt hvy)⟩
    | some d => exact ⟨d.val, hlow, decide_eq_true (hv.1 d rfl)⟩
  | eq => exact ⟨v, hv, decide_eq_true rfl⟩
  | ne => exact absurd rfl hne
  | add | sub | mul | div | rem | and | or => cases hop

end Interval

end Demanded
