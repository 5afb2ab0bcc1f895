import Demanded.Proofs.IntervalOperators

/-!
# The ends of exact results

Arithmetic on intervals is known by the two ends of the exact results.  `Extended.Reached` says that
integers reach a point: they include it, or they go beyond every number that is far out on the side
of an infinite point.  Which numbers are far out is a parameter.  With all integers, a point that is
reached is an exact end; with words only it is one up to overflow, which is all that an interval
with words as bounds can tell.

`Ends` puts together what is known of both ends, and `ends_add`, `ends_neg` and `ends_mul` say where
the ends of sums, opposites and products are.  An interval between the ends is the least one around
the results, unless they lie beyond all words (`Ends.implies`).
-/

namespace Demanded

/-! ## Points that integers reach -/

/-- Every integer. -/
def anyInt (_ : Int) : Prop := True

/-- The integer is a word. -/
def isWord (n : Int) : Prop := ∃ w : Word, w.val = n

theorem isWord_iff {n : Int} : isWord n ↔ Word.ofInt? n ≠ none := by
  constructor
  · rintro ⟨w, rfl⟩
    simp
  · intro h
    obtain ⟨w, hw⟩ := Option.ne_none_iff_exists'.1 h
    exact ⟨w, (Word.ofInt?_eq_some.1 hw).symm⟩

theorem not_isWord_iff {n : Int} : ¬isWord n ↔ Word.ofInt? n = none := by
  rw [isWord_iff, Decidable.not_not]

/-- An integer may stand for its own point: it is a word, or only words are far out. -/
def Tolerates (far : Int → Prop) (n : Int) : Prop := ¬isWord n → ∀ m, far m → isWord m

namespace Extended

variable {far V W : Int → Prop} {e f : Extended}

/-- The integers reach the point: it is one of them, or beyond each number that is far out on the
side of the infinite point there is one of them. -/
def Reached (far V : Int → Prop) : Extended → Prop
  | negInf => ∀ n, far n → ∃ v, V v ∧ v < n
  | fin c => V c.val
  | posInf => ∀ n, far n → ∃ v, V v ∧ n < v

theorem Reached.exists (h : e.Reached anyInt V) : ∃ v, V v := by
  cases e with
  | negInf =>
    obtain ⟨v, hv, -⟩ := h 0 trivial
    exact ⟨v, hv⟩
  | fin c => exact ⟨c.val, h⟩
  | posInf =>
    obtain ⟨v, hv, -⟩ := h 0 trivial
    exact ⟨v, hv⟩

theorem reached_min (he : e.Reached far V) (hf : f.Reached far V) : (e.min f).Reached far V := by
  unfold min
  split
  · exact he
  · exact hf

theorem reached_max (he : e.Reached far V) (hf : f.Reached far V) : (e.max f).Reached far V := by
  unfold max
  split
  · exact hf
  · exact he

theorem reached_ofLower {l u : Bound} (h : (Interval.range l u).Ordered) :
    (ofLower l).Reached anyInt (Interval.range l u).Holds := by
  cases l with
  | some c => exact ⟨below_some.2 (Int.le_refl _), fun w hw => h c rfl w hw⟩
  | none =>
    intro n _
    obtain ⟨v, hv⟩ := Interval.exists_holds h (by simp)
    refine ⟨Min.min v (n - 1), ⟨below_none _, fun w hw => ?_⟩, by omega⟩
    have := hv.2 w hw
    omega

theorem reached_ofUpper {l u : Bound} (h : (Interval.range l u).Ordered) :
    (ofUpper u).Reached anyInt (Interval.range l u).Holds := by
  cases u with
  | some c => exact ⟨fun w hw => h w hw c rfl, above_some.2 (Int.le_refl _)⟩
  | none =>
    intro n _
    obtain ⟨v, hv⟩ := Interval.exists_holds h (by simp)
    refine ⟨Max.max v (n + 1), ⟨fun w hw => ?_, above_none _⟩, by omega⟩
    have := hv.1 w hw
    omega

/-! ## The point of an integer -/

theorem finite?_ofInt (n : Int) : (ofInt n).finite? = Word.ofInt? n := by
  unfold ofInt infinity
  split
  · rename_i w h
    exact h.symm
  · rename_i h
    rw [h]
    split <;> rfl

/-- An integer reaches its own point. -/
theorem reached_ofInt {n : Int} (hn : V n) (hfar : Tolerates far n) : (ofInt n).Reached far V := by
  rcases ofInt_cases n with ⟨w, heq, hw⟩ | ⟨heq, hw⟩ | ⟨heq, hw⟩
  · rw [heq, Reached, hw]
    exact hn
  · rw [heq]
    intro m hm
    have hout : ¬isWord n := by
      rintro ⟨w, rfl⟩
      exact Int.lt_irrefl _ (hw w)
    obtain ⟨w, rfl⟩ := hfar hout m hm
    exact ⟨n, hn, hw w⟩
  · rw [heq]
    intro m hm
    have hout : ¬isWord n := by
      rintro ⟨w, rfl⟩
      exact Int.lt_irrefl _ (hw w)
    obtain ⟨w, rfl⟩ := hfar hout m hm
    exact ⟨n, hn, hw w⟩

/-! ## Sums and opposites of points -/

/-- The sum of two points on the same side of a set of integers. -/
def add : Extended → Extended → Extended
  | fin a, fin b => ofInt (a.val + b.val)
  | fin _, f => f
  | e, _ => e

/-- The opposite of a point. -/
def neg : Extended → Extended
  | negInf => posInf
  | fin a => ofInt (-a.val)
  | posInf => negInf

theorem reached_add (he : e.Reached anyInt V) (hf : f.Reached anyInt W)
    (hfar : ∀ a b, e = fin a → f = fin b → Tolerates far (a.val + b.val)) :
    (e.add f).Reached far fun v => ∃ x y, V x ∧ W y ∧ v = x + y := by
  obtain ⟨y, hy⟩ := hf.exists
  cases e with
  | negInf =>
    intro n _
    obtain ⟨x, hx, hlt⟩ := he (n - y) trivial
    exact ⟨x + y, ⟨x, y, hx, hy, rfl⟩, by omega⟩
  | posInf =>
    intro n _
    obtain ⟨x, hx, hlt⟩ := he (n - y) trivial
    exact ⟨x + y, ⟨x, y, hx, hy, rfl⟩, by omega⟩
  | fin a =>
    cases f with
    | negInf =>
      intro n _
      obtain ⟨y, hy, hlt⟩ := hf (n - a.val) trivial
      exact ⟨a.val + y, ⟨a.val, y, he, hy, rfl⟩, by omega⟩
    | posInf =>
      intro n _
      obtain ⟨y, hy, hlt⟩ := hf (n - a.val) trivial
      exact ⟨a.val + y, ⟨a.val, y, he, hy, rfl⟩, by omega⟩
    | fin b => exact reached_ofInt ⟨a.val, b.val, he, hf, rfl⟩ (hfar a b rfl rfl)

theorem reached_neg (he : e.Reached anyInt V) (hfar : ∀ a, e = fin a → Tolerates far (-a.val)) :
    e.neg.Reached far fun v => ∃ x, V x ∧ v = -x := by
  cases e with
  | negInf =>
    intro n _
    obtain ⟨x, hx, hlt⟩ := he (-n) trivial
    exact ⟨-x, ⟨x, hx, rfl⟩, by omega⟩
  | posInf =>
    intro n _
    obtain ⟨x, hx, hlt⟩ := he (-n) trivial
    exact ⟨-x, ⟨x, hx, rfl⟩, by omega⟩
  | fin a => exact reached_ofInt ⟨a.val, he, rfl⟩ (hfar a rfl)

theorem under_add {l₁ l₂ : Bound} {x y : Int} (hx : l₁.Below x) (hy : l₂.Below y) :
    ((ofLower l₁).add (ofLower l₂)).Under (x + y) := by
  cases l₁ with
  | none => trivial
  | some c =>
    cases l₂ with
    | none => trivial
    | some d => exact under_ofInt (Int.add_le_add (below_some.1 hx) (below_some.1 hy))

theorem over_add {u₁ u₂ : Bound} {x y : Int} (hx : u₁.Above x) (hy : u₂.Above y) :
    ((ofUpper u₁).add (ofUpper u₂)).Over (x + y) := by
  cases u₁ with
  | none => trivial
  | some c =>
    cases u₂ with
    | none => trivial
    | some d => exact over_ofInt (Int.add_le_add (above_some.1 hx) (above_some.1 hy))

theorem under_neg {u : Bound} {x : Int} (hx : u.Above x) : (ofUpper u).neg.Under (-x) := by
  cases u with
  | none => trivial
  | some c => exact under_ofInt (Int.neg_le_neg (above_some.1 hx))

theorem over_neg {l : Bound} {x : Int} (hx : l.Below x) : (ofLower l).neg.Over (-x) := by
  cases l with
  | none => trivial
  | some c => exact over_ofInt (Int.neg_le_neg (below_some.1 hx))

theorem ofInt_eq_fin {n : Int} (h : isWord n) : ∃ w, ofInt n = fin w := by
  obtain ⟨w, rfl⟩ := h
  exact ⟨w, by simp [ofInt]⟩

theorem add_ne_posInf {l₁ l₂ : Bound} (h : ∀ c ∈ l₁, ∀ d ∈ l₂, isWord (c.val + d.val)) :
    (ofLower l₁).add (ofLower l₂) ≠ posInf := by
  cases l₁ with
  | none => simp [ofLower, add]
  | some c =>
    cases l₂ with
    | none => simp [ofLower, add]
    | some d =>
      obtain ⟨w, hw⟩ := ofInt_eq_fin (h c rfl d rfl)
      simp [ofLower, add, hw]

theorem add_ne_negInf {u₁ u₂ : Bound} (h : ∀ c ∈ u₁, ∀ d ∈ u₂, isWord (c.val + d.val)) :
    (ofUpper u₁).add (ofUpper u₂) ≠ negInf := by
  cases u₁ with
  | none => simp [ofUpper, add]
  | some c =>
    cases u₂ with
    | none => simp [ofUpper, add]
    | some d =>
      obtain ⟨w, hw⟩ := ofInt_eq_fin (h c rfl d rfl)
      simp [ofUpper, add, hw]

theorem neg_ne_posInf {u : Bound} (h : ∀ c ∈ u, isWord (-c.val)) : (ofUpper u).neg ≠ posInf := by
  cases u with
  | none => simp [ofUpper, neg]
  | some c =>
    obtain ⟨w, hw⟩ := ofInt_eq_fin (h c rfl)
    simp [ofUpper, neg, hw]

theorem neg_ne_negInf {l : Bound} (h : ∀ c ∈ l, isWord (-c.val)) : (ofLower l).neg ≠ negInf := by
  cases l with
  | none => simp [ofLower, neg]
  | some c =>
    obtain ⟨w, hw⟩ := ofInt_eq_fin (h c rfl)
    simp [ofLower, neg, hw]

/-! ## Products of points -/

/-- The products of two sets of integers. -/
def products (V W : Int → Prop) (v : Int) : Prop := ∃ x y, V x ∧ W y ∧ v = x * y

/-- Integers that reach an infinite point go beyond every number on its side. -/
theorem exists_of_infinite (hinf : e.finite? = none) (h : e.Reached anyInt V) (n : Int) :
    ∃ v, V v ∧ n ≤ e.sign * v := by
  cases e with
  | negInf =>
    obtain ⟨v, hv, hlt⟩ := h (-n) trivial
    refine ⟨v, hv, ?_⟩
    rw [sign]
    omega
  | fin c => cases hinf
  | posInf =>
    obtain ⟨v, hv, hlt⟩ := h n trivial
    refine ⟨v, hv, ?_⟩
    rw [sign]
    omega

/-- Integers that reach a point apart from zero are not all on the other side of zero. -/
theorem exists_of_sign_ne_zero (hsign : e.sign ≠ 0) (h : e.Reached anyInt V) :
    ∃ v, V v ∧ 1 ≤ e.sign * v := by
  cases e with
  | negInf => exact exists_of_infinite rfl h 1
  | fin c =>
    refine ⟨c.val, h, ?_⟩
    rw [sign] at hsign ⊢
    rw [Int.sign_mul_self]
    have hc : c.val ≠ 0 := by
      intro hc
      rw [hc] at hsign
      exact hsign rfl
    omega
  | posInf => exact exists_of_infinite rfl h 1

theorem sign_trichotomy (e : Extended) : e.sign = 1 ∨ e.sign = 0 ∨ e.sign = -1 := by
  cases e with
  | negInf => exact .inr (.inr rfl)
  | fin c => exact Int.sign_trichotomy c.val
  | posInf => exact .inl rfl

theorem reached_infinity {s : Int} (hs : s = -1 ∨ s = 1) (h : ∀ n, ∃ v, V v ∧ n ≤ s * v) :
    (infinity s).Reached far V := by
  rcases hs with rfl | rfl
  · intro n _
    obtain ⟨v, hv, hle⟩ := h (1 - n)
    exact ⟨v, hv, by omega⟩
  · intro n _
    obtain ⟨v, hv, hle⟩ := h (n + 1)
    exact ⟨v, hv, by omega⟩

/-- One infinite factor takes the products beyond every number. -/
theorem exists_product {e f : Extended} (hinf : e.finite? = none) (hsign : f.sign ≠ 0)
    (he : e.Reached anyInt V) (hf : f.Reached anyInt W) (n : Int) :
    ∃ x y, V x ∧ W y ∧ n ≤ e.sign * f.sign * (x * y) := by
  obtain ⟨y, hy, hone⟩ := exists_of_sign_ne_zero hsign hf
  obtain ⟨x, hx, hle⟩ := exists_of_infinite hinf he (Max.max n 0)
  refine ⟨x, y, hx, hy, ?_⟩
  have hgrow := Int.mul_le_mul_of_nonneg_left hone (by omega : 0 ≤ e.sign * x)
  calc n ≤ e.sign * x * 1 := by omega
    _ ≤ e.sign * x * (f.sign * y) := hgrow
    _ = e.sign * f.sign * (x * y) := by ac_rfl

theorem reached_mul (he : e.Reached anyInt V) (hf : f.Reached anyInt W)
    (hfar : ∀ a b, e = fin a → f = fin b → Tolerates far (a.val * b.val)) :
    (e.mul f).Reached far (products V W) := by
  by_cases hinf : e.finite? = none ∨ f.finite? = none
  · rw [mul_of_infinite hinf]
    split
    · -- one factor is zero, so the product with any integer of the other is
      rename_i hzero
      obtain ⟨x, hx⟩ := he.exists
      obtain ⟨y, hy⟩ := hf.exists
      rcases Int.mul_eq_zero.1 hzero with hsign | hsign
      · cases e with
        | fin c =>
          refine ⟨c.val, y, he, hy, ?_⟩
          rw [Int.sign_eq_zero_iff_zero.1 hsign, Int.zero_mul]
          rfl
        | _ => cases hsign
      · cases f with
        | fin c =>
          refine ⟨x, c.val, hx, hf, ?_⟩
          rw [Int.sign_eq_zero_iff_zero.1 hsign, Int.mul_zero]
          rfl
        | _ => cases hsign
    · rename_i hne
      have hesign : e.sign ≠ 0 := fun h => hne (by rw [h, Int.zero_mul])
      have hfsign : f.sign ≠ 0 := fun h => hne (by rw [h, Int.mul_zero])
      have hunit : e.sign * f.sign = -1 ∨ e.sign * f.sign = 1 := by
        rcases sign_trichotomy e with h | h | h <;> rcases sign_trichotomy f with h' | h' | h' <;>
          simp_all
      refine reached_infinity hunit fun n => ?_
      rcases hinf with hinf | hinf
      · obtain ⟨x, y, hx, hy, hle⟩ := exists_product hinf hfsign he hf n
        exact ⟨x * y, ⟨x, y, hx, hy, rfl⟩, hle⟩
      · obtain ⟨y, x, hy, hx, hle⟩ := exists_product hinf hesign hf he n
        refine ⟨x * y, ⟨x, y, hx, hy, rfl⟩, ?_⟩
        rwa [Int.mul_comm e.sign, Int.mul_comm x]
  · cases e with
    | fin a =>
      cases f with
      | fin b =>
        rw [mul_fin_fin]
        exact reached_ofInt ⟨a.val, b.val, he, hf, rfl⟩ (hfar a b rfl rfl)
      | _ => exact absurd (.inr rfl) hinf
    | _ => exact absurd (.inl rfl) hinf

theorem eq_posInf_of_le (h : posInf.le e = true) : e = posInf := by
  cases e with
  | negInf => cases h
  | fin a => cases h
  | posInf => rfl

theorem eq_negInf_of_le (h : e.le negInf = true) : e = negInf := by
  cases e with
  | negInf => rfl
  | fin a => cases h
  | posInf => cases h

theorem min_eq_posInf (h : e.min f = posInf) : e = posInf ∧ f = posInf :=
  ⟨eq_posInf_of_le (h ▸ min_le_left e f), eq_posInf_of_le (h ▸ min_le_right e f)⟩

theorem max_eq_negInf (h : e.max f = negInf) : e = negInf ∧ f = negInf :=
  ⟨eq_negInf_of_le (h ▸ le_max_left e f), eq_negInf_of_le (h ▸ le_max_right e f)⟩

/-- A product that does not overflow is infinite only if a factor is, on the side of its sign. -/
theorem infinite_of_mul (hword : ∀ a b, e = fin a → f = fin b → isWord (a.val * b.val))
    (hinf : (e.mul f).finite? = none) :
    (e.finite? = none ∨ f.finite? = none) ∧ e.mul f = infinity (e.sign * f.sign) ∧
      e.sign * f.sign ≠ 0 := by
  by_cases hfactor : e.finite? = none ∨ f.finite? = none
  · rw [mul_of_infinite hfactor] at hinf ⊢
    split at hinf
    · cases hinf
    · rename_i hne
      exact ⟨hfactor, if_neg hne, hne⟩
  · cases e with
    | fin a =>
      cases f with
      | fin b =>
        obtain ⟨w, hw⟩ := ofInt_eq_fin (hword a b rfl rfl)
        rw [mul_fin_fin, hw] at hinf
        cases hinf
      | _ => exact absurd (.inr rfl) hfactor
    | _ => exact absurd (.inl rfl) hfactor

theorem pos_of_mul_eq_posInf (hword : ∀ a b, e = fin a → f = fin b → isWord (a.val * b.val))
    (h : e.mul f = posInf) : (e.finite? = none ∨ f.finite? = none) ∧ 0 < e.sign * f.sign := by
  obtain ⟨hfactor, hmul, hne⟩ := infinite_of_mul hword (by rw [h]; rfl)
  refine ⟨hfactor, ?_⟩
  rw [h, infinity] at hmul
  split at hmul
  · cases hmul
  · omega

theorem neg_of_mul_eq_negInf (hword : ∀ a b, e = fin a → f = fin b → isWord (a.val * b.val))
    (h : e.mul f = negInf) : (e.finite? = none ∨ f.finite? = none) ∧ e.sign * f.sign < 0 := by
  obtain ⟨hfactor, hmul, -⟩ := infinite_of_mul hword (by rw [h]; rfl)
  refine ⟨hfactor, ?_⟩
  rw [h, infinity] at hmul
  split at hmul
  · assumption
  · cases hmul

section Corners

variable {l₁ u₁ l₂ u₂ : Bound}

/-- The least product of a bound of one interval and a bound of another. -/
def leastCorner (l₁ u₁ l₂ u₂ : Bound) : Extended :=
  (((ofLower l₁).mul (ofLower l₂)).min ((ofLower l₁).mul (ofUpper u₂))).min
    (((ofUpper u₁).mul (ofLower l₂)).min ((ofUpper u₁).mul (ofUpper u₂)))

/-- The greatest product of a bound of one interval and a bound of another. -/
def greatestCorner (l₁ u₁ l₂ u₂ : Bound) : Extended :=
  (((ofLower l₁).mul (ofLower l₂)).max ((ofLower l₁).mul (ofUpper u₂))).max
    (((ofUpper u₁).mul (ofLower l₂)).max ((ofUpper u₁).mul (ofUpper u₂)))

/-- What holds of the products of finite bounds. -/
def Corners (P : Int → Prop) (l₁ u₁ l₂ u₂ : Bound) : Prop :=
  ∀ e ∈ [ofLower l₁, ofUpper u₁], ∀ f ∈ [ofLower l₂, ofUpper u₂], ∀ a b,
    e = fin a → f = fin b → P (a.val * b.val)

/-- Without overflow the least product is not above all words. -/
theorem leastCorner_ne_posInf (hword : Corners isWord l₁ u₁ l₂ u₂) :
    leastCorner l₁ u₁ l₂ u₂ ≠ posInf := by
  intro h
  obtain ⟨hleft, hright⟩ := min_eq_posInf h
  obtain ⟨hll, hlu⟩ := min_eq_posInf hleft
  obtain ⟨-, huu⟩ := min_eq_posInf hright
  obtain ⟨hll, hllpos⟩ := pos_of_mul_eq_posInf (hword _ (.head _) _ (.head _)) hll
  obtain ⟨hlu, hlupos⟩ := pos_of_mul_eq_posInf (hword _ (.head _) _ (.tail _ (.head _))) hlu
  obtain ⟨huu, huupos⟩ :=
    pos_of_mul_eq_posInf (hword _ (.tail _ (.head _)) _ (.tail _ (.head _))) huu
  cases l₁ with
  | none =>
    -- the second factor ends below zero, so the first one does not go up without end
    cases u₂ <;> cases u₁ <;> simp_all [ofLower, ofUpper, sign, finite?]
    omega
  | some c =>
    -- the second factor goes on in both directions, on different sides of zero
    cases l₂ <;> cases u₂ <;> simp_all [ofLower, ofUpper, sign, finite?]
    omega

/-- Without overflow the greatest product is not below all words. -/
theorem greatestCorner_ne_negInf (hword : Corners isWord l₁ u₁ l₂ u₂) :
    greatestCorner l₁ u₁ l₂ u₂ ≠ negInf := by
  intro h
  obtain ⟨hleft, hright⟩ := max_eq_negInf h
  obtain ⟨hll, hlu⟩ := max_eq_negInf hleft
  obtain ⟨hul, -⟩ := max_eq_negInf hright
  obtain ⟨hll, hllneg⟩ := neg_of_mul_eq_negInf (hword _ (.head _) _ (.head _)) hll
  obtain ⟨hlu, hluneg⟩ := neg_of_mul_eq_negInf (hword _ (.head _) _ (.tail _ (.head _))) hlu
  obtain ⟨hul, hulneg⟩ := neg_of_mul_eq_negInf (hword _ (.tail _ (.head _)) _ (.head _)) hul
  cases l₁ with
  | none =>
    cases l₂ <;> cases u₁ <;> simp_all [ofLower, ofUpper, sign, finite?]
    omega
  | some c =>
    cases l₂ <;> cases u₂ <;> simp_all [ofLower, ofUpper, sign, finite?]
    omega

end Corners

end Extended

/-! ## Ends -/

/-- The points `e` and `f` are where the integers end below and above. -/
structure Ends (far V : Int → Prop) (e f : Extended) : Prop where
  below : e.Reached far V
  above : f.Reached far V
  least : ∀ v, V v → e.Under v
  greatest : ∀ v, V v → f.Over v

open Extended Demanded.Interval

namespace Ends

variable {far V : Int → Prop} {e f : Extended}

theorem holds (h : Ends far V e f) {v : Int} (hv : V v) : (make e.finite? f.finite?).Holds v :=
  holds_make.2 ⟨below_finite? (h.least v hv), above_finite? (h.greatest v hv)⟩

/-- A word among the integers is neither above nor below all words. -/
theorem ne_infinite (h : Ends far V e f) (hfits : ∃ w : Word, V w.val) :
    e ≠ posInf ∧ f ≠ negInf := by
  obtain ⟨w, hw⟩ := hfits
  constructor
  · rintro rfl
    exact Int.lt_irrefl _ (h.least _ hw w)
  · rintro rfl
    exact Int.lt_irrefl _ (h.greatest _ hw w)

/-- Between its ends stands the least interval around the integers. -/
theorem implies (h : Ends far V e f) (hfar : ∀ w : Word, far w.val) (he : e ≠ posInf)
    (hf : f ≠ negInf) (hne : ∃ v, V v) {d : Interval} (hd : ∀ v, V v → d.Holds v) :
    (make e.finite? f.finite?).implies d = true := by
  refine make_implies ?_
  cases d with
  | bottom =>
    obtain ⟨v, hv⟩ := hne
    exact (hd v hv).elim
  | range l u =>
    rw [Interval.implies, Bool.and_eq_true]
    constructor
    · cases l with
      | none => rfl
      | some w =>
        cases e with
        | negInf =>
          obtain ⟨v, hv, hlt⟩ := h.below w.val (hfar w)
          have := (hd v hv).1 w rfl
          omega
        | fin c => exact decide_eq_true ((hd c.val h.below).1 w rfl)
        | posInf => exact absurd rfl he
    · cases u with
      | none => cases f <;> rfl
      | some w =>
        cases f with
        | negInf => exact absurd rfl hf
        | fin c => exact decide_eq_true ((hd c.val h.above).2 w rfl)
        | posInf =>
          obtain ⟨v, hv, hlt⟩ := h.above w.val (hfar w)
          have := (hd v hv).2 w rfl
          omega

end Ends

/-! ## Ends of the exact results -/

namespace Interval

/-- The integers that an operator gives for the integers of two intervals. -/
def Results (op : BinaryOp) (a b : Interval) (v : Int) : Prop :=
  ∃ x y, a.Holds x ∧ b.Holds y ∧ op.Gives x y v

/-- The opposites of the integers of an interval. -/
def Opposites (a : Interval) (v : Int) : Prop := ∃ x, a.Holds x ∧ v = -x

section Ends

variable {far : Int → Prop} {l₁ u₁ l₂ u₂ : Bound}

theorem add_eq_make : (range l₁ u₁).add (range l₂ u₂) =
    make ((ofLower l₁).add (ofLower l₂)).finite? ((ofUpper u₁).add (ofUpper u₂)).finite? := by
  have hlow : ((ofLower l₁).add (ofLower l₂)).finite? = Bound.lift₂ Word.add? l₁ l₂ := by
    cases l₁ <;> cases l₂ <;> first | rfl | exact finite?_ofInt _
  have hhigh : ((ofUpper u₁).add (ofUpper u₂)).finite? = Bound.lift₂ Word.add? u₁ u₂ := by
    cases u₁ <;> cases u₂ <;> first | rfl | exact finite?_ofInt _
  rw [hlow, hhigh]
  rfl

theorem ends_add (h₁ : (range l₁ u₁).Ordered) (h₂ : (range l₂ u₂).Ordered)
    (hlow : ∀ c ∈ l₁, ∀ d ∈ l₂, Tolerates far (c.val + d.val))
    (hhigh : ∀ c ∈ u₁, ∀ d ∈ u₂, Tolerates far (c.val + d.val)) :
    Ends far (Results .add (range l₁ u₁) (range l₂ u₂))
      ((ofLower l₁).add (ofLower l₂)) ((ofUpper u₁).add (ofUpper u₂)) where
  below := reached_add (reached_ofLower h₁) (reached_ofLower h₂) (by
    intro a b ha hb
    cases l₁ <;> cases ha
    cases l₂ <;> cases hb
    exact hlow _ rfl _ rfl)
  above := reached_add (reached_ofUpper h₁) (reached_ofUpper h₂) (by
    intro a b ha hb
    cases u₁ <;> cases ha
    cases u₂ <;> cases hb
    exact hhigh _ rfl _ rfl)
  least := by
    rintro v ⟨x, y, hx, hy, rfl⟩
    exact under_add hx.1 hy.1
  greatest := by
    rintro v ⟨x, y, hx, hy, rfl⟩
    exact over_add hx.2 hy.2

theorem neg_eq_make : (range l₁ u₁).neg =
    make (ofUpper u₁).neg.finite? (ofLower l₁).neg.finite? := by
  have hlow : (ofUpper u₁).neg.finite? = u₁.bind Word.neg? := by
    cases u₁ <;> first | rfl | exact finite?_ofInt _
  have hhigh : (ofLower l₁).neg.finite? = l₁.bind Word.neg? := by
    cases l₁ <;> first | rfl | exact finite?_ofInt _
  rw [hlow, hhigh]
  rfl

theorem ends_neg (h : (range l₁ u₁).Ordered) (hlow : ∀ c ∈ u₁, Tolerates far (-c.val))
    (hhigh : ∀ c ∈ l₁, Tolerates far (-c.val)) :
    Ends far (Opposites (range l₁ u₁)) (ofUpper u₁).neg (ofLower l₁).neg where
  below := reached_neg (reached_ofUpper h) (by
    intro a ha
    cases u₁ <;> cases ha
    exact hlow _ rfl)
  above := reached_neg (reached_ofLower h) (by
    intro a ha
    cases l₁ <;> cases ha
    exact hhigh _ rfl)
  least := by
    rintro v ⟨x, hx, rfl⟩
    exact under_neg hx.2
  greatest := by
    rintro v ⟨x, hx, rfl⟩
    exact over_neg hx.1

theorem ends_mul (h₁ : (range l₁ u₁).Ordered) (h₂ : (range l₂ u₂).Ordered)
    (hfar : Corners (Tolerates far) l₁ u₁ l₂ u₂) :
    Ends far (Results .mul (range l₁ u₁) (range l₂ u₂))
      (leastCorner l₁ u₁ l₂ u₂) (greatestCorner l₁ u₁ l₂ u₂) := by
  have hll := reached_mul (reached_ofLower h₁) (reached_ofLower h₂) (hfar _ (.head _) _ (.head _))
  have hlu := reached_mul (reached_ofLower h₁) (reached_ofUpper h₂)
    (hfar _ (.head _) _ (.tail _ (.head _)))
  have hul := reached_mul (reached_ofUpper h₁) (reached_ofLower h₂)
    (hfar _ (.tail _ (.head _)) _ (.head _))
  have huu := reached_mul (reached_ofUpper h₁) (reached_ofUpper h₂)
    (hfar _ (.tail _ (.head _)) _ (.tail _ (.head _)))
  refine ⟨reached_min (reached_min hll hlu) (reached_min hul huu),
    reached_max (reached_max hll hlu) (reached_max hul huu), ?_, ?_⟩
  · rintro v ⟨x, y, hx, hy, rfl⟩
    exact under_min ((under_mul hx.1 hx.2 hy.1 hy.2).imp under_min under_min)
  · rintro v ⟨x, y, hx, hy, rfl⟩
    exact over_max ((over_mul hx.1 hx.2 hy.1 hy.2).imp over_max over_max)

end Ends

end Interval

end Demanded
