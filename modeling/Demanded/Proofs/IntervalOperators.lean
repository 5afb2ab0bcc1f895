import Demanded.Proofs.Semantics

/-!
# Operators on intervals hold what they give

If two integers lie in two intervals, then every integer that an operator gives for them lies in the
interval that it gives for these (`Interval.holds_evalBinary`).  If a comparison holds of them, then
refining the first interval keeps the first integer (`Interval.holds_refine`).

A product of bounds may be infinite because it is not a word.  So for products an infinite point is
compared with words only: `Extended.Under` says that a point is at most an integer, and an infinite
point above is so if the integer is greater than all words.
-/

namespace Demanded

/-! ## Bounds -/

theorem Word.ofInt?_eq_none {n : Int} (h : Word.ofInt? n = none) (w : Word) :
    (0 < n → w.val < n) ∧ (n < 0 → n < w.val) := by
  have hmin := w.min_le
  have hmax := w.le_max
  unfold Word.ofInt? at h
  split at h
  · cases h
  · rename_i hout
    omega

theorem below_ofInt? {n v : Int} (h : n ≤ v) : Bound.Below (Word.ofInt? n) v := by
  intro w hw
  rw [← Word.ofInt?_eq_some.1 hw]
  exact h

theorem above_ofInt? {n v : Int} (h : v ≤ n) : Bound.Above (Word.ofInt? n) v := by
  intro w hw
  rw [← Word.ofInt?_eq_some.1 hw]
  exact h

/-- A checked operation that keeps lower bounds does so on bounds. -/
theorem below_lift₂ {f : Word → Word → Option Word} {l₁ l₂ : Bound} {v : Int}
    (h : ∀ a ∈ l₁, ∀ b ∈ l₂, Bound.Below (f a b) v) : (Bound.lift₂ f l₁ l₂).Below v := by
  cases l₁ with
  | none => exact below_none v
  | some a =>
    cases l₂ with
    | none => exact below_none v
    | some b => exact h a rfl b rfl

theorem above_lift₂ {f : Word → Word → Option Word} {u₁ u₂ : Bound} {v : Int}
    (h : ∀ a ∈ u₁, ∀ b ∈ u₂, Bound.Above (f a b) v) : (Bound.lift₂ f u₁ u₂).Above v := by
  cases u₁ with
  | none => exact above_none v
  | some a =>
    cases u₂ with
    | none => exact above_none v
    | some b => exact h a rfl b rfl

theorem below_bind {f : Word → Option Word} {l : Bound} {v : Int}
    (h : ∀ a ∈ l, Bound.Below (f a) v) : Bound.Below (l.bind f) v := by
  cases l with
  | none => exact below_none v
  | some a => exact h a rfl

theorem above_bind {f : Word → Option Word} {u : Bound} {v : Int}
    (h : ∀ a ∈ u, Bound.Above (f a) v) : Bound.Above (u.bind f) v := by
  cases u with
  | none => exact above_none v
  | some a => exact h a rfl

namespace Interval

variable {a b : Interval} {x y : Int}

/-! ## Sums and differences -/

theorem holds_add (hx : a.Holds x) (hy : b.Holds y) : (a.add b).Holds (x + y) := by
  cases a with
  | bottom => exact hx.elim
  | range l₁ u₁ =>
    cases b with
    | bottom => exact hy.elim
    | range l₂ u₂ =>
      refine holds_make.2 ⟨below_lift₂ fun c hc d hd => ?_, above_lift₂ fun c hc d hd => ?_⟩
      · exact below_ofInt? (Int.add_le_add (hx.1 c hc) (hy.1 d hd))
      · exact above_ofInt? (Int.add_le_add (hx.2 c hc) (hy.2 d hd))

theorem holds_neg (hx : a.Holds x) : a.neg.Holds (-x) := by
  cases a with
  | bottom => exact hx.elim
  | range l u =>
    refine holds_make.2 ⟨below_bind fun c hc => ?_, above_bind fun c hc => ?_⟩
    · exact below_ofInt? (Int.neg_le_neg (hx.2 c hc))
    · exact above_ofInt? (Int.neg_le_neg (hx.1 c hc))

theorem holds_sub (hx : a.Holds x) (hy : b.Holds y) : (a.sub b).Holds (x - y) :=
  holds_add hx (holds_neg hy)

end Interval

/-! ## Products -/

namespace Extended

/-- The point is at most `v`; one above all words is so if `v` is above all words. -/
def Under : Extended → Int → Prop
  | negInf, _ => True
  | fin c, v => c.val ≤ v
  | posInf, v => ∀ w : Word, w.val < v

/-- The point is at least `v`; one below all words is so if `v` is below all words. -/
def Over : Extended → Int → Prop
  | negInf, v => ∀ w : Word, v < w.val
  | fin c, v => v ≤ c.val
  | posInf, _ => True

theorem le_total (a b : Extended) : a.le b = true ∨ b.le a = true := by
  cases a <;> cases b <;> simp [le, Word.le_iff]
  omega

theorem min_le_left (a b : Extended) : (a.min b).le a = true := by
  unfold min
  split
  · exact (le_total a a).elim id id
  · rename_i h
    exact (le_total a b).resolve_left h

theorem min_le_right (a b : Extended) : (a.min b).le b = true := by
  unfold min
  split
  · rename_i h
    exact h
  · exact (le_total b b).elim id id

theorem le_max_left (a b : Extended) : a.le (a.max b) = true := by
  unfold max
  split
  · rename_i h
    exact h
  · exact (le_total a a).elim id id

theorem le_max_right (a b : Extended) : b.le (a.max b) = true := by
  unfold max
  split
  · exact (le_total b b).elim id id
  · rename_i h
    exact (le_total a b).resolve_left h

theorem Under.of_le {a b : Extended} {v : Int} (hle : a.le b = true) (h : b.Under v) :
    a.Under v := by
  cases a with
  | negInf => trivial
  | fin c =>
    cases b with
    | negInf => cases hle
    | fin d => exact Int.le_trans (of_decide_eq_true hle : c ≤ d) h
    | posInf => exact Int.le_of_lt (h c)
  | posInf =>
    cases b with
    | posInf => exact h
    | _ => cases hle

theorem Over.of_le {a b : Extended} {v : Int} (hle : a.le b = true) (h : a.Over v) :
    b.Over v := by
  cases b with
  | posInf => trivial
  | fin c =>
    cases a with
    | posInf => cases hle
    | fin d => exact Int.le_trans h (of_decide_eq_true hle : d ≤ c)
    | negInf => exact Int.le_of_lt (h c)
  | negInf =>
    cases a with
    | negInf => exact h
    | _ => cases hle

theorem under_min {a b : Extended} {v : Int} (h : a.Under v ∨ b.Under v) : (a.min b).Under v :=
  h.elim (.of_le (min_le_left a b)) (.of_le (min_le_right a b))

theorem over_max {a b : Extended} {v : Int} (h : a.Over v ∨ b.Over v) : (a.max b).Over v :=
  h.elim (.of_le (le_max_left a b)) (.of_le (le_max_right a b))

theorem below_finite? {e : Extended} {v : Int} (h : e.Under v) : Bound.Below e.finite? v := by
  cases e with
  | negInf => exact below_none v
  | posInf => exact below_none v
  | fin c => exact below_some.2 h

theorem above_finite? {e : Extended} {v : Int} (h : e.Over v) : Bound.Above e.finite? v := by
  cases e with
  | negInf => exact above_none v
  | posInf => exact above_none v
  | fin c => exact above_some.2 h

/-- The point that stands for an integer: a word, or the infinity on the side where it lies. -/
def ofInt (n : Int) : Extended :=
  match Word.ofInt? n with
  | some w => fin w
  | none => infinity n.sign

/-- An integer is a word or lies beyond all words. -/
theorem ofInt_cases (n : Int) :
    (∃ w, ofInt n = fin w ∧ w.val = n) ∨
      (ofInt n = posInf ∧ ∀ w : Word, w.val < n) ∨
      (ofInt n = negInf ∧ ∀ w : Word, n < w.val) := by
  unfold ofInt
  cases h : Word.ofInt? n with
  | some w => exact .inl ⟨w, rfl, (Word.ofInt?_eq_some.1 h).symm⟩
  | none =>
    have hout := Word.ofInt?_eq_none h
    rcases Int.lt_trichotomy n 0 with hneg | rfl | hpos
    · refine .inr (.inr ⟨?_, fun w => (hout w).2 hneg⟩)
      exact if_pos (Int.sign_neg_iff.2 hneg)
    · -- zero is a word
      cases h
    · refine .inr (.inl ⟨?_, fun w => (hout w).1 hpos⟩)
      exact if_neg (Int.not_lt.2 (Int.sign_nonneg_iff.2 (Int.le_of_lt hpos)))

theorem under_ofInt {n v : Int} (h : n ≤ v) : (ofInt n).Under v := by
  rcases ofInt_cases n with ⟨w, heq, hw⟩ | ⟨heq, hw⟩ | ⟨heq, hw⟩
  · rw [heq, Under, hw]
    exact h
  · rw [heq]
    exact fun w => Int.lt_of_lt_of_le (hw w) h
  · rw [heq]
    trivial

theorem over_ofInt {n v : Int} (h : v ≤ n) : (ofInt n).Over v := by
  rcases ofInt_cases n with ⟨w, heq, hw⟩ | ⟨heq, hw⟩ | ⟨heq, hw⟩
  · rw [heq, Over, hw]
    exact h
  · rw [heq]
    trivial
  · rw [heq]
    exact fun w => Int.lt_of_le_of_lt h (hw w)

theorem mul_fin_fin (a b : Word) : (fin a).mul (fin b) = ofInt (a.val * b.val) := by
  cases h : Word.ofInt? (a.val * b.val) with
  | some w => simp [mul, ofInt, Word.mul?, h]
  | none => simp [mul, ofInt, Word.mul?, h, Int.sign_mul]

theorem under_mul_fin_fin {a b : Word} {v : Int} (h : a.val * b.val ≤ v) :
    ((fin a).mul (fin b)).Under v := by
  rw [mul_fin_fin]
  exact under_ofInt h

theorem over_mul_fin_fin {a b : Word} {v : Int} (h : v ≤ a.val * b.val) :
    ((fin a).mul (fin b)).Over v := by
  rw [mul_fin_fin]
  exact over_ofInt h

/-- A product with an infinite factor is known by its sign. -/
theorem mul_of_infinite {a b : Extended} (hinf : a.finite? = none ∨ b.finite? = none) :
    a.mul b = if a.sign * b.sign = 0 then fin Word.zero else infinity (a.sign * b.sign) := by
  cases a <;> cases b <;> simp_all [mul, finite?]

theorem under_mul_of_infinite {a b : Extended} (hinf : a.finite? = none ∨ b.finite? = none)
    {v : Int} (h : a.sign * b.sign < 0 ∨ a.sign * b.sign = 0 ∧ 0 ≤ v) : (a.mul b).Under v := by
  rw [mul_of_infinite hinf]
  rcases h with hneg | ⟨hzero, hv⟩
  · rw [if_neg (Int.ne_of_lt hneg), infinity, if_pos hneg]
    trivial
  · rw [if_pos hzero]
    exact hv

theorem over_mul_of_infinite {a b : Extended} (hinf : a.finite? = none ∨ b.finite? = none)
    {v : Int} (h : 0 < a.sign * b.sign ∨ a.sign * b.sign = 0 ∧ v ≤ 0) : (a.mul b).Over v := by
  rw [mul_of_infinite hinf]
  rcases h with hpos | ⟨hzero, hv⟩
  · rw [if_neg (Int.ne_of_gt hpos), infinity, if_neg (Int.not_lt.2 (Int.le_of_lt hpos))]
    trivial
  · rw [if_pos hzero]
    exact hv

theorem sign_ofLower_of_neg {l : Bound} {y : Int} (hl : l.Below y) (hy : y < 0) :
    (ofLower l).sign = -1 := by
  cases l with
  | none => rfl
  | some c => exact Int.sign_eq_neg_one_of_neg (Int.lt_of_le_of_lt (below_some.1 hl) hy)

theorem sign_ofUpper_of_pos {u : Bound} {y : Int} (hu : u.Above y) (hy : 0 < y) :
    (ofUpper u).sign = 1 := by
  cases u with
  | none => rfl
  | some c => exact Int.sign_eq_one_of_pos (Int.lt_of_lt_of_le hy (above_some.1 hu))

theorem sign_ofUpper_nonneg {u : Bound} (hu : u.Above 0) : 0 ≤ (ofUpper u).sign := by
  cases u with
  | none => decide
  | some c => exact Int.sign_nonneg_iff.2 (above_some.1 hu)

/-- Of a word and two points around `y`, one product is under every integer from `w * y` on. -/
theorem under_mul_left {w : Word} {l u : Bound} {y v : Int} (hl : l.Below y) (hu : u.Above y)
    (h : w.val * y ≤ v) :
    ((fin w).mul (ofLower l)).Under v ∨ ((fin w).mul (ofUpper u)).Under v := by
  rcases Int.lt_or_le w.val 0 with hw | hw
  · refine .inr ?_
    cases u with
    | none =>
      exact under_mul_of_infinite (.inr rfl) (.inl (by simpa [sign, ofLower, ofUpper] using hw))
    | some c =>
      have hc := Int.mul_le_mul_of_nonpos_left (Int.le_of_lt hw) (above_some.1 hu)
      exact under_mul_fin_fin (Int.le_trans hc h)
  · refine .inl ?_
    cases l with
    | none =>
      refine under_mul_of_infinite (.inr rfl) ?_
      rcases Int.lt_or_eq_of_le hw with hpos | hzero
      · exact .inl (by simpa [sign, ofLower, ofUpper] using hpos)
      · exact .inr ⟨by simp [sign, ← hzero], by rwa [← hzero, Int.zero_mul] at h⟩
    | some c =>
      have hc := Int.mul_le_mul_of_nonneg_left (below_some.1 hl) hw
      exact under_mul_fin_fin (Int.le_trans hc h)

theorem over_mul_left {w : Word} {l u : Bound} {y v : Int} (hl : l.Below y) (hu : u.Above y)
    (h : v ≤ w.val * y) :
    ((fin w).mul (ofLower l)).Over v ∨ ((fin w).mul (ofUpper u)).Over v := by
  rcases Int.lt_or_le w.val 0 with hw | hw
  · refine .inl ?_
    cases l with
    | none =>
      exact over_mul_of_infinite (.inr rfl) (.inl (by simpa [sign, ofLower, ofUpper] using hw))
    | some c =>
      have hc := Int.mul_le_mul_of_nonpos_left (Int.le_of_lt hw) (below_some.1 hl)
      exact over_mul_fin_fin (Int.le_trans h hc)
  · refine .inr ?_
    cases u with
    | none =>
      refine over_mul_of_infinite (.inr rfl) ?_
      rcases Int.lt_or_eq_of_le hw with hpos | hzero
      · exact .inl (by simpa [sign, ofLower, ofUpper] using hpos)
      · exact .inr ⟨by simp [sign, ← hzero], by rwa [← hzero, Int.zero_mul] at h⟩
    | some c =>
      have hc := Int.mul_le_mul_of_nonneg_left (above_some.1 hu) hw
      exact over_mul_fin_fin (Int.le_trans h hc)

section Corners

variable {l₁ u₁ l₂ u₂ : Bound} {x y : Int}

/-- One product of points around `x` and points around `y` is under `x * y`. -/
theorem under_mul (hl₁ : l₁.Below x) (hu₁ : u₁.Above x) (hl₂ : l₂.Below y) (hu₂ : u₂.Above y) :
    (((ofLower l₁).mul (ofLower l₂)).Under (x * y) ∨
      ((ofLower l₁).mul (ofUpper u₂)).Under (x * y)) ∨
    (((ofUpper u₁).mul (ofLower l₂)).Under (x * y) ∨
      ((ofUpper u₁).mul (ofUpper u₂)).Under (x * y)) := by
  rcases Int.lt_or_le y 0 with hy | hy
  · refine .inr ?_
    cases u₁ with
    | some c =>
      have hc := Int.mul_le_mul_of_nonpos_right (above_some.1 hu₁) (Int.le_of_lt hy)
      exact under_mul_left hl₂ hu₂ hc
    | none =>
      refine .inl (under_mul_of_infinite (.inl rfl) (.inl ?_))
      rw [sign_ofLower_of_neg hl₂ hy]
      decide
  · refine .inl ?_
    cases l₁ with
    | some c =>
      exact under_mul_left hl₂ hu₂ (Int.mul_le_mul_of_nonneg_right (below_some.1 hl₁) hy)
    | none =>
      refine .inr (under_mul_of_infinite (.inl rfl) ?_)
      rcases Int.lt_or_eq_of_le hy with hpos | rfl
      · rw [sign_ofUpper_of_pos hu₂ hpos]
        exact .inl (by decide)
      · have hsign := sign_ofUpper_nonneg hu₂
        rw [Int.mul_zero, ofLower, sign]
        omega

/-- One product of points around `x` and points around `y` is over `x * y`. -/
theorem over_mul (hl₁ : l₁.Below x) (hu₁ : u₁.Above x) (hl₂ : l₂.Below y) (hu₂ : u₂.Above y) :
    (((ofLower l₁).mul (ofLower l₂)).Over (x * y) ∨
      ((ofLower l₁).mul (ofUpper u₂)).Over (x * y)) ∨
    (((ofUpper u₁).mul (ofLower l₂)).Over (x * y) ∨
      ((ofUpper u₁).mul (ofUpper u₂)).Over (x * y)) := by
  rcases Int.lt_or_le y 0 with hy | hy
  · refine .inl ?_
    cases l₁ with
    | some c =>
      have hc := Int.mul_le_mul_of_nonpos_right (below_some.1 hl₁) (Int.le_of_lt hy)
      exact over_mul_left hl₂ hu₂ hc
    | none =>
      refine .inl (over_mul_of_infinite (.inl rfl) (.inl ?_))
      rw [sign_ofLower_of_neg hl₂ hy]
      decide
  · refine .inr ?_
    cases u₁ with
    | some c =>
      exact over_mul_left hl₂ hu₂ (Int.mul_le_mul_of_nonneg_right (above_some.1 hu₁) hy)
    | none =>
      refine .inr (over_mul_of_infinite (.inl rfl) ?_)
      rcases Int.lt_or_eq_of_le hy with hpos | rfl
      · rw [sign_ofUpper_of_pos hu₂ hpos]
        exact .inl (by decide)
      · have hsign := sign_ofUpper_nonneg hu₂
        rw [Int.mul_zero, ofUpper, sign]
        omega

end Corners

end Extended

namespace Interval

variable {a b : Interval} {x y : Int}

theorem holds_mul (hx : a.Holds x) (hy : b.Holds y) : (a.mul b).Holds (x * y) := by
  cases a with
  | bottom => exact hx.elim
  | range l₁ u₁ =>
    cases b with
    | bottom => exact hy.elim
    | range l₂ u₂ =>
      refine holds_make.2 ⟨?_, ?_⟩
      · refine Extended.below_finite? (Extended.under_min ?_)
        exact (Extended.under_mul hx.1 hx.2 hy.1 hy.2).imp Extended.under_min Extended.under_min
      · refine Extended.above_finite? (Extended.over_max ?_)
        exact (Extended.over_mul hx.1 hx.2 hy.1 hy.2).imp Extended.over_max Extended.over_max

/-! ## Quotients and remainders -/

/-- Without zero between its bounds, an interval lies on one side of it. -/
theorem pos_or_neg_of_not_contains {l u : Bound} (h : (range l u).contains Word.zero = false) :
    (∃ w ∈ l, 0 < w.val) ∨ ∃ w ∈ u, w.val < 0 := by
  rw [contains, Bool.and_eq_false_iff] at h
  refine h.imp (fun hl => ?_) fun hu => ?_
  · cases l with
    | none => cases hl
    | some w => exact ⟨w, rfl, Int.not_le.1 (of_decide_eq_false hl)⟩
  · cases u with
    | none => cases hu
    | some w => exact ⟨w, rfl, Int.not_le.1 (of_decide_eq_false hu)⟩

theorem ne_zero_of_not_contains {l u : Bound} (h : (range l u).contains Word.zero = false)
    (hy : (range l u).Holds y) : y ≠ 0 := by
  rcases pos_or_neg_of_not_contains h with ⟨w, hw, hpos⟩ | ⟨w, hw, hneg⟩
  · have := hy.1 w hw
    omega
  · have := hy.2 w hw
    omega

end Interval

/-- A quotient lies between those of two numbers around the dividend. -/
theorem tdiv_between_left {l x u y : Int} (hy : y ≠ 0) (hl : l ≤ x) (hu : x ≤ u) :
    (l.tdiv y ≤ x.tdiv y ∧ x.tdiv y ≤ u.tdiv y) ∨ (u.tdiv y ≤ x.tdiv y ∧ x.tdiv y ≤ l.tdiv y) := by
  rcases Int.lt_or_gt_of_ne hy with hneg | hpos
  · have hl' := Int.tdiv_le_tdiv (c := -y) (by omega) hl
    have hu' := Int.tdiv_le_tdiv (c := -y) (by omega) hu
    rw [Int.tdiv_neg, Int.tdiv_neg] at hl' hu'
    omega
  · exact .inl ⟨Int.tdiv_le_tdiv hpos hl, Int.tdiv_le_tdiv hpos hu⟩

/-- A greater divisor makes the quotient smaller. -/
theorem tdiv_le_tdiv_right {a b c : Int} (ha : 0 ≤ a) (hb : 0 < b) (hbc : b ≤ c) :
    a.tdiv c ≤ a.tdiv b := by
  have hnonneg := Int.tdiv_nonneg ha (Int.le_trans (Int.le_of_lt hb) hbc)
  refine Int.le_tdiv_of_mul_le hb ?_
  calc a.tdiv c * b ≤ a.tdiv c * c := Int.mul_le_mul_of_nonneg_left hbc hnonneg
    _ = c * a.tdiv c := Int.mul_comm _ _
    _ ≤ a := Int.mul_tdiv_self_le ha

/-- A quotient lies between those by two numbers around the divisor, if zero is not between them. -/
theorem tdiv_between_right {c l y u : Int} (hl : l ≤ y) (hu : y ≤ u) (h : 0 < l ∨ u < 0) :
    (c.tdiv l ≤ c.tdiv y ∧ c.tdiv y ≤ c.tdiv u) ∨ (c.tdiv u ≤ c.tdiv y ∧ c.tdiv y ≤ c.tdiv l) := by
  -- on one side of zero, the quotients of a number and of its opposite change in opposite ways
  have hside : ∀ l y u : Int, 0 < l → l ≤ y → y ≤ u →
      (c.tdiv l ≤ c.tdiv y ∧ c.tdiv y ≤ c.tdiv u) ∨
        (c.tdiv u ≤ c.tdiv y ∧ c.tdiv y ≤ c.tdiv l) := by
    intro l y u hpos hl hu
    rcases Int.le_total 0 c with hc | hc
    · exact .inr ⟨tdiv_le_tdiv_right hc (by omega) hu, tdiv_le_tdiv_right hc hpos hl⟩
    · have hu' := tdiv_le_tdiv_right (a := -c) (by omega) (Int.lt_of_lt_of_le hpos hl) hu
      have hl' := tdiv_le_tdiv_right (a := -c) (by omega) hpos hl
      rw [Int.neg_tdiv, Int.neg_tdiv] at hu' hl'
      omega
  rcases h with hpos | hneg
  · exact hside l y u hpos hl hu
  · have hflip := hside (-u) (-y) (-l) (by omega) (by omega) (by omega)
    rw [Int.tdiv_neg, Int.tdiv_neg, Int.tdiv_neg] at hflip
    omega

namespace Interval

variable {a b : Interval} {x y : Int}

theorem val_of_quot? {a b q : Word} (h : a.quot? b = some q) : q.val = a.val.tdiv b.val := by
  unfold Word.quot? at h
  split at h
  · cases h
  · exact (Word.ofInt?_eq_some.1 h).symm

theorem holds_divFinite {l₁ u₁ l₂ u₂ : Word} (hx : (range (some l₁) (some u₁)).Holds x)
    (hy : (range (some l₂) (some u₂)).Holds y) (hzero : 0 < l₂.val ∨ u₂.val < 0) :
    (divFinite l₁ u₁ l₂ u₂).Holds (x.tdiv y) := by
  simp only [Holds, below_some, above_some] at hx hy
  unfold divFinite
  split
  · rename_i a b c d ha hb hc hd
    have hleft := tdiv_between_left (y := y) (by omega) hx.1 hx.2
    have hlow := tdiv_between_right (c := l₁.val) hy.1 hy.2 hzero
    have hhigh := tdiv_between_right (c := u₁.val) hy.1 hy.2 hzero
    rw [holds_make, below_some, above_some]
    simp only [Word.val_min, Word.val_max, val_of_quot? ha, val_of_quot? hb, val_of_quot? hc,
      val_of_quot? hd]
    omega
  · exact holds_top _

theorem holds_div {v : Int} (hx : a.Holds x) (hy : b.Holds y) (hv : y ≠ 0 → v = x.tdiv y) :
    (a.div b).Holds v := by
  cases a with
  | bottom => exact hx.elim
  | range l₁ u₁ =>
    cases b with
    | bottom => exact hy.elim
    | range l₂ u₂ =>
      dsimp only [div]
      split
      · exact holds_top v
      · rename_i hcontains
        rw [Bool.not_eq_true] at hcontains
        rw [hv (ne_zero_of_not_contains hcontains hy)]
        split
        · refine holds_divFinite hx hy ?_
          simpa using pos_or_neg_of_not_contains hcontains
        · exact holds_top _

/-- A remainder is smaller than the greatest divisor. -/
theorem above_remMagnitude {l u : Bound} (hy : (range l u).Holds y) (hzero : y ≠ 0) (x : Int) :
    (remMagnitude l u).Above (x.tmod y).natAbs := by
  have hlt : (x.tmod y).natAbs < y.natAbs := by
    rw [Int.natAbs_tmod]
    exact Nat.mod_lt _ (Int.natAbs_pos.2 hzero)
  refine above_bind fun m hm => above_ofInt? ?_
  have hgreatest : y.natAbs ≤ m.val := by
    refine above_lift₂ (fun c hc d hd => ?_) m hm
    obtain ⟨l', hl', hc⟩ := Option.bind_eq_some_iff.1 hc
    obtain ⟨u', hu', hd⟩ := Option.bind_eq_some_iff.1 hd
    have hlow := hy.1 l' hl'
    have hhigh := hy.2 u' hu'
    rw [above_some, Word.val_max, ← Word.ofInt?_eq_some.1 hc, ← Word.ofInt?_eq_some.1 hd]
    omega
  show _ ≤ m.val - 1
  omega

theorem holds_rem {v : Int} (hx : a.Holds x) (hy : b.Holds y) (hv : y ≠ 0 → v = x.tmod y) :
    (a.rem b).Holds v := by
  cases a with
  | bottom => exact hx.elim
  | range l₁ u₁ =>
    cases b with
    | bottom => exact hy.elim
    | range l₂ u₂ =>
      dsimp only [rem]
      split
      · exact holds_top v
      · rename_i hcontains
        rw [Bool.not_eq_true] at hcontains
        have hne := ne_zero_of_not_contains hcontains hy
        have hmagnitude := above_remMagnitude hy hne x
        have hsize : (x.tmod y).natAbs ≤ x.natAbs := by
          rw [Int.natAbs_tmod]
          exact Nat.mod_le _ _
        have hlow : Bound.Below ((remMagnitude l₂ u₂).bind Word.neg?) (x.tmod y) := by
          refine below_bind fun m hm => below_ofInt? ?_
          have := hmagnitude m hm
          omega
        have hhigh : (remMagnitude l₂ u₂).Above (x.tmod y) := by
          intro m hm
          have := hmagnitude m hm
          omega
        rw [hv hne]
        split
        · -- the dividend is not negative, and neither is the remainder
          rename_i hl
          obtain ⟨w, hw, hpos⟩ := (Option.any_eq_true _ _).1 hl
          have hxpos : 0 ≤ x := Int.le_trans (of_decide_eq_true hpos) (hx.1 w hw)
          have hnonneg := Int.tmod_nonneg y hxpos
          rw [holds_make, below_some, above_minUpper]
          refine ⟨hnonneg, fun c hc => ?_, hhigh⟩
          have := hx.2 c hc
          omega
        · split
          · rename_i hu
            obtain ⟨w, hw, hneg⟩ := (Option.any_eq_true _ _).1 hu
            have hxneg : x ≤ 0 := Int.le_trans (hx.2 w hw) (of_decide_eq_true hneg)
            have hnonpos := Int.tmod_nonneg y (Int.neg_nonneg_of_nonpos hxneg)
            rw [Int.neg_tmod] at hnonpos
            rw [holds_make, above_some, below_maxLower]
            refine ⟨⟨fun c hc => ?_, hlow⟩, Int.nonpos_of_neg_nonneg hnonpos⟩
            have := hx.1 c hc
            omega
          · exact holds_make.2 ⟨hlow, hhigh⟩

end Interval

/-! ## Conditions -/

/-- The value may have the truth. -/
def Truth.Admits (t : Truth) (b : Bool) : Prop :=
  if b then t.mayBeTrue = true else t.mayBeFalse = true

namespace Truth

theorem admits_not {t : Truth} {b : Bool} (h : t.Admits b) : t.not.Admits (!b) := by
  cases t <;> cases b <;> simp_all [Admits, Truth.not, mayBeTrue, mayBeFalse]

theorem admits_and {s t : Truth} {b c : Bool} (hs : s.Admits b) (ht : t.Admits c) :
    (s.and t).Admits (b && c) := by
  cases s <;> cases t <;> cases b <;> cases c <;>
    simp_all [Admits, Truth.and, mayBeTrue, mayBeFalse]

theorem admits_or {s t : Truth} {b c : Bool} (hs : s.Admits b) (ht : t.Admits c) :
    (s.or t).Admits (b || c) := by
  cases s <;> cases t <;> cases b <;> cases c <;>
    simp_all [Admits, Truth.or, mayBeTrue, mayBeFalse]

theorem admits_either (b : Bool) : Truth.either.Admits b := by
  cases b <;> rfl

/-- A test for truth and a test for falsehood admit the truth. -/
theorem admits_of_tests {p : Prop} [Decidable p] {c d : Prop} [Decidable c] [Decidable d]
    (hc : c → p) (hd : d → ¬p) :
    (if c then Truth.always else if d then .never else .either).Admits (decide p) := by
  split
  · rename_i h
    rw [decide_eq_true (hc h)]
    rfl
  · split
    · rename_i h
      rw [decide_eq_false (hd h)]
      rfl
    · exact admits_either _

end Truth

theorem lt_of_bounds {u l : Bound} {x y : Int}
    (h : (Extended.ofUpper u).lt (Extended.ofLower l) = true) (hx : u.Above x) (hy : l.Below y) :
    x < y := by
  cases u <;> cases l <;>
    simp [Extended.lt, Extended.le, Extended.ofUpper, Extended.ofLower, Word.le_iff] at h hx hy
  omega

theorem le_of_bounds {u l : Bound} {x y : Int}
    (h : (Extended.ofUpper u).le (Extended.ofLower l) = true) (hx : u.Above x) (hy : l.Below y) :
    x ≤ y := by
  cases u <;> cases l <;>
    simp [Extended.le, Extended.ofUpper, Extended.ofLower, Word.le_iff] at h hx hy
  omega

namespace Interval

variable {a b : Interval} {x y : Int}

theorem holds_ofTruth {t : Truth} {c : Bool} (h : t.Admits c) :
    (ofTruth t).Holds (truthValue c) := by
  cases t with
  | always =>
    cases c with
    | true => exact holds_constant.2 rfl
    | false => cases h
  | never =>
    cases c with
    | true => cases h
    | false => exact holds_constant.2 rfl
  | either =>
    rw [ofTruth, holds_make, below_some, above_some]
    cases c <;> decide
  | neither => cases c <;> cases h

theorem eq_of_constant? {w : Word} (h : a.constant? = some w) (hx : a.Holds x) : x = w.val := by
  unfold constant? at h
  split at h
  · split at h
    · rename_i hlu
      cases h
      subst hlu
      simp only [Holds, below_some, above_some] at hx
      omega
    · cases h
  · cases h

theorem admits_truth (hx : a.Holds x) : a.truth.Admits (decide (x ≠ 0)) := by
  cases a with
  | bottom => exact hx.elim
  | range l u =>
    dsimp only [truth]
    split
    · rename_i hconstant
      rw [eq_of_constant? hconstant hx]
      rfl
    · split
      · exact Truth.admits_either _
      · rename_i hcontains
        rw [Bool.not_eq_true] at hcontains
        rw [decide_eq_true (ne_zero_of_not_contains hcontains hx)]
        rfl

theorem admits_less_strict (hx : a.Holds x) (hy : b.Holds y) :
    (less true a b).Admits (decide (x < y)) := by
  cases a with
  | bottom => exact hx.elim
  | range l₁ u₁ =>
    cases b with
    | bottom => exact hy.elim
    | range l₂ u₂ =>
      exact Truth.admits_of_tests (fun h => lt_of_bounds h hx.2 hy.1)
        fun h => Int.not_lt.2 (le_of_bounds h hy.2 hx.1)

theorem admits_less (hx : a.Holds x) (hy : b.Holds y) :
    (less false a b).Admits (decide (x ≤ y)) := by
  cases a with
  | bottom => exact hx.elim
  | range l₁ u₁ =>
    cases b with
    | bottom => exact hy.elim
    | range l₂ u₂ =>
      exact Truth.admits_of_tests (fun h => le_of_bounds h hx.2 hy.1)
        fun h => Int.not_le.2 (lt_of_bounds h hy.2 hx.1)

theorem isBottom_of_holds (hx : a.Holds x) : a.isBottom = false := by
  cases a with
  | bottom => exact hx.elim
  | range l u => rfl

theorem admits_equal (hx : a.Holds x) (hy : b.Holds y) : (equal a b).Admits (decide (x = y)) := by
  rw [equal, isBottom_of_holds hx, isBottom_of_holds hy, Bool.or_false, if_neg Bool.false_ne_true]
  refine Truth.admits_of_tests (fun hsame => ?_) fun hmeet => ?_
  · rw [Bool.and_eq_true, Option.isSome_iff_exists, beq_iff_eq] at hsame
    obtain ⟨⟨w, hw⟩, hsame⟩ := hsame
    exact (eq_of_constant? hw hx).trans (eq_of_constant? (hsame ▸ hw) hy).symm
  · rintro rfl
    rw [isBottom_of_holds (holds_meet_iff.2 ⟨hx, hy⟩)] at hmeet
    cases hmeet

/-! ## Operators of expressions -/

theorem holds_evalBinary {op : BinaryOp} {v : Int} (hx : a.Holds x) (hy : b.Holds y)
    (h : op.Gives x y v) : (evalBinary op a b).Holds v := by
  unfold evalBinary
  rw [isBottom_of_holds hx, isBottom_of_holds hy, Bool.or_false, if_neg Bool.false_ne_true]
  cases op with
  | add => exact h ▸ holds_add hx hy
  | sub => exact h ▸ holds_sub hx hy
  | mul => exact h ▸ holds_mul hx hy
  | div => exact holds_div hx hy h
  | rem => exact holds_rem hx hy h
  | lt => exact h ▸ holds_ofTruth (admits_less_strict hx hy)
  | le => exact h ▸ holds_ofTruth (admits_less hx hy)
  | gt => exact h ▸ holds_ofTruth (admits_less_strict hy hx)
  | ge => exact h ▸ holds_ofTruth (admits_less hy hx)
  | eq => exact h ▸ holds_ofTruth (admits_equal hx hy)
  | ne =>
    rw [h, BinaryOp.test, decide_not]
    exact holds_ofTruth (Truth.admits_not (admits_equal hx hy))
  | and => exact h ▸ holds_ofTruth (Truth.admits_and (admits_truth hx) (admits_truth hy))
  | or => exact h ▸ holds_ofTruth (Truth.admits_or (admits_truth hx) (admits_truth hy))

theorem holds_evalUnary {op : UnaryOp} {v : Int} (hx : a.Holds x) (h : op.Gives x v) :
    (evalUnary op a).Holds v := by
  cases op with
  | neg => exact h ▸ holds_neg hx
  | not =>
    have hnot := Truth.admits_not (admits_truth hx)
    rw [decide_not, Bool.not_not] at hnot
    exact h ▸ holds_ofTruth hnot

/-! ## Refinement -/

theorem holds_exclude (hx : a.Holds x) {c : Word} (hne : x ≠ c.val) : (a.exclude c).Holds x := by
  cases a with
  | bottom => exact hx.elim
  | range l u =>
    rw [exclude]
    split
    · rename_i hl
      have hc := hx.1 c hl
      refine holds_make.2 ⟨below_ofInt? ?_, hx.2⟩
      show c.val + 1 ≤ x
      omega
    · split
      · rename_i hu
        have hc := hx.2 c hu
        refine holds_make.2 ⟨hx.1, above_ofInt? ?_⟩
        show x ≤ c.val - 1
        omega
      · exact holds_top x

/-- What a comparison says about its left side is true of it. -/
theorem holds_constraint {op : BinaryOp} {l u : Bound} (hx : a.Holds x)
    (hy : (range l u).Holds y) (h : op.test x y = true) :
    (constraint op a (range l u) l u).Holds x := by
  cases op with
  | lt =>
    have hlt : x < y := of_decide_eq_true h
    refine holds_make.2 ⟨below_none x, above_bind fun c hc => above_ofInt? ?_⟩
    have := hy.2 c hc
    show x ≤ c.val - 1
    omega
  | le =>
    have hle : x ≤ y := of_decide_eq_true h
    exact holds_make.2 ⟨below_none x, fun c hc => Int.le_trans hle (hy.2 c hc)⟩
  | gt =>
    have hlt : y < x := of_decide_eq_true h
    refine holds_make.2 ⟨below_bind fun c hc => below_ofInt? ?_, above_none x⟩
    have := hy.1 c hc
    show c.val + 1 ≤ x
    omega
  | ge =>
    have hle : y ≤ x := of_decide_eq_true h
    exact holds_make.2 ⟨fun c hc => Int.le_trans (hy.1 c hc) hle, above_none x⟩
  | eq =>
    have heq : x = y := of_decide_eq_true h
    exact heq ▸ hy
  | ne =>
    have hne : x ≠ y := of_decide_eq_true h
    dsimp only [constraint]
    split
    · rename_i c hc
      exact holds_exclude hx (eq_of_constant? hc hy ▸ hne)
    · exact holds_top x
  | add | sub | mul | div | rem | and | or => exact holds_top x

theorem holds_refine {op : BinaryOp} (hx : a.Holds x) (hy : b.Holds y) (h : op.test x y = true) :
    (a.refine op b).Holds x := by
  cases b with
  | bottom => exact hy.elim
  | range l u => exact holds_meet_iff.2 ⟨hx, holds_constraint hx hy h⟩

end Interval

end Demanded
