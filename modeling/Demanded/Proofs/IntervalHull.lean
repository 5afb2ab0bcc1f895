import Demanded.Proofs.IntervalEnds
import Demanded.Proofs.NormalForm

/-!
# Arithmetic on intervals is tight

Where no checked operation overflows, a sum, difference, product, opposite or quotient of intervals
is the least interval around the exact results, with an infinite bound only where the results have
no bound: it is their hull (`Interval.IsHull`, `Interval.arithmetic_sound_tight`).  Without overflow
both ends of the results are exact, so this follows from where the ends are.

`Interval.checks` lists the checked operations that an operator makes on two intervals.
-/

namespace Demanded

open Extended

/-! ## Hulls -/

namespace Interval

/-- The least interval around some integers.  A bound is infinite exactly where they have none. -/
structure IsHull (c : Interval) (V : Int → Prop) : Prop where
  holds : ∀ v, V v → c.Holds v
  least : ∀ d : Interval, (∀ v, V v → d.Holds v) → c.implies d = true
  unbounded_below : (∃ u, c = range none u) ↔ ∀ n, ∃ v, V v ∧ v < n
  unbounded_above : (∃ l, c = range l none) ↔ ∀ n, ∃ v, V v ∧ n < v

theorem isHull_bottom {V : Int → Prop} (h : ∀ v, ¬V v) : bottom.IsHull V where
  holds v hv := absurd hv (h v)
  least _ _ := rfl
  unbounded_below := by
    constructor
    · rintro ⟨u, hu⟩
      cases hu
    · intro hall
      obtain ⟨v, hv, -⟩ := hall 0
      exact absurd hv (h v)
  unbounded_above := by
    constructor
    · rintro ⟨l, hl⟩
      cases hl
    · intro hall
      obtain ⟨v, hv, -⟩ := hall 0
      exact absurd hv (h v)

theorem IsHull.congr {c : Interval} {V W : Int → Prop} (h : c.IsHull V) (hVW : ∀ v, V v ↔ W v) :
    c.IsHull W := by
  obtain rfl : V = W := funext fun v => propext (hVW v)
  exact h

end Interval

open Demanded.Interval in
/-- If the ends are exact, the interval between them is the hull. -/
theorem Ends.isHull {V : Int → Prop} {e f : Extended} (h : Ends anyInt V e f) (he : e ≠ posInf)
    (hf : f ≠ negInf) : (make e.finite? f.finite?).IsHull V := by
  obtain ⟨v, hv⟩ := h.below.exists
  have hrange : make e.finite? f.finite? = range e.finite? f.finite? := by
    have hbetween : (range e.finite? f.finite?).Holds v := holds_make.1 (h.holds hv)
    exact make_of_ordered (ordered_of_holds hbetween)
  refine ⟨fun v hv => h.holds hv, fun d hd => h.implies (fun _ => trivial) he hf ⟨v, hv⟩ hd, ?_, ?_⟩
  · rw [hrange]
    constructor
    · rintro ⟨u, hu⟩ n
      cases e with
      | negInf => exact h.below n trivial
      | fin c => cases hu
      | posInf => exact absurd rfl he
    · intro hall
      cases e with
      | negInf => exact ⟨_, rfl⟩
      | fin c =>
        obtain ⟨v, hv, hlt⟩ := hall c.val
        exact absurd (h.least v hv) (Int.not_le.2 hlt)
      | posInf => exact absurd rfl he
  · rw [hrange]
    constructor
    · rintro ⟨l, hl⟩ n
      cases f with
      | negInf => exact absurd rfl hf
      | fin c => cases hl
      | posInf => exact h.above n trivial
    · intro hall
      cases f with
      | negInf => exact absurd rfl hf
      | fin c =>
        obtain ⟨v, hv, hlt⟩ := hall c.val
        exact absurd (h.greatest v hv) (Int.not_le.2 hlt)
      | posInf => exact ⟨_, rfl⟩

namespace Interval

variable {c : Interval} {V : Int → Prop}

/-- An interval around some integers is their hull if they reach both of its ends. -/
theorem isHull_of_reached {l u : Bound} (hholds : ∀ v, V v → (range l u).Holds v)
    (hlow : (ofLower l).Reached anyInt V) (hhigh : (ofUpper u).Reached anyInt V) :
    (range l u).IsHull V := by
  have hends : Ends anyInt V (ofLower l) (ofUpper u) := by
    refine ⟨hlow, hhigh, fun v hv => ?_, fun v hv => ?_⟩
    · cases l with
      | none => trivial
      | some d => exact (hholds v hv).1 d rfl
    · cases u with
      | none => trivial
      | some d => exact (hholds v hv).2 d rfl
  obtain ⟨v, hv⟩ := hlow.exists
  have hmake : make (ofLower l).finite? (ofUpper u).finite? = range l u := by
    have hl : (ofLower l).finite? = l := by cases l <;> rfl
    have hu : (ofUpper u).finite? = u := by cases u <;> rfl
    rw [hl, hu]
    exact make_of_ordered (ordered_of_holds (hholds v hv))
  rw [← hmake]
  exact hends.isHull (by cases l <;> simp [ofLower]) (by cases u <;> simp [ofUpper])

theorem isHull_of_holds_iff (hc : c.Ordered) (h : ∀ v, c.Holds v ↔ V v) : c.IsHull V := by
  refine IsHull.congr ?_ h
  cases c with
  | bottom => exact isHull_bottom not_holds_bottom
  | range l u => exact isHull_of_reached (fun v => id) (reached_ofLower hc) (reached_ofUpper hc)

theorem IsHull.eq_bottom_iff (h : c.IsHull V) : c = bottom ↔ ∀ v, ¬V v := by
  constructor
  · rintro rfl v hv
    exact h.holds v hv
  · intro hnone
    have hle := h.least bottom fun v hv => absurd hv (hnone v)
    cases c with
    | bottom => rfl
    | range l u => cases hle

end Interval

/-! ## Overflow -/

namespace Interval

/-- The checked operation on two bounds, made if both are finite. -/
def boundChecks (f : Word → Word → Option Word) : Bound → Bound → List (Option Word)
  | some a, some b => [f a b]
  | _, _ => []

/-- The checked operations of a sum. -/
def addChecks : Interval → Interval → List (Option Word)
  | range l₁ u₁, range l₂ u₂ => boundChecks Word.add? l₁ l₂ ++ boundChecks Word.add? u₁ u₂
  | _, _ => []

/-- The checked operations of an opposite. -/
def negChecks : Interval → List (Option Word)
  | range l u => (u.map Word.neg?).toList ++ (l.map Word.neg?).toList
  | bottom => []

/-- The checked operations of a product. -/
def mulChecks : Interval → Interval → List (Option Word)
  | range l₁ u₁, range l₂ u₂ =>
    boundChecks Word.mul? l₁ l₂ ++ boundChecks Word.mul? l₁ u₂ ++
      boundChecks Word.mul? u₁ l₂ ++ boundChecks Word.mul? u₁ u₂
  | _, _ => []

/-- The checked operations of a quotient. -/
def divChecks : Interval → Interval → List (Option Word)
  | range (some l₁) (some u₁), range (some l₂) (some u₂) =>
    if (range (some l₂) (some u₂)).contains Word.zero then []
    else [l₁.quot? l₂, l₁.quot? u₂, u₁.quot? l₂, u₁.quot? u₂]
  | _, _ => []

/-- The checked operations that a sum, a difference, a product or a quotient of two intervals makes,
with their results. -/
def checks (op : BinaryOp) (a b : Interval) : List (Option Word) :=
  match op with
  | .add => addChecks a b
  | .sub => negChecks b ++ addChecks a b.neg
  | .mul => mulChecks a b
  | .div => divChecks a b
  | _ => []

theorem mem_of_ofLower {l : Bound} {c : Word} (h : ofLower l = fin c) : c ∈ l := by
  cases l <;> cases h
  rfl

theorem mem_of_ofUpper {u : Bound} {c : Word} (h : ofUpper u = fin c) : c ∈ u := by
  cases u <;> cases h
  rfl

theorem isWord_of_boundChecks {f : Word → Word → Option Word} {g : Word → Word → Int}
    (hf : ∀ a b, f a b = Word.ofInt? (g a b)) {l₁ l₂ : Bound} (h : none ∉ boundChecks f l₁ l₂) :
    ∀ c ∈ l₁, ∀ d ∈ l₂, isWord (g c d) := by
  rintro c rfl d rfl
  rw [isWord_iff, ← hf]
  intro hnone
  exact h (by simp [boundChecks, hnone])

theorem tolerates_of_isWord {far : Int → Prop} {n : Int} (h : isWord n) : Tolerates far n :=
  fun hout => absurd h hout

theorem isWord_of_negChecks {b : Bound} (h : none ∉ (b.map Word.neg?).toList) :
    ∀ c ∈ b, isWord (-c.val) := by
  rintro c rfl
  rw [isWord_iff]
  intro hnone
  exact h (by simp [Word.neg?, hnone])

theorem corners_of_mulChecks {l₁ u₁ l₂ u₂ : Bound}
    (h : none ∉ mulChecks (range l₁ u₁) (range l₂ u₂)) : Corners isWord l₁ u₁ l₂ u₂ := by
  simp only [mulChecks, List.mem_append, not_or] at h
  obtain ⟨⟨⟨hll, hlu⟩, hul⟩, huu⟩ := h
  intro e he f hf c d hc hd
  simp only [List.mem_cons, List.not_mem_nil, or_false] at he hf
  rcases he with rfl | rfl <;> rcases hf with rfl | rfl
  · exact isWord_of_boundChecks (fun _ _ => rfl) hll c (mem_of_ofLower hc) d (mem_of_ofLower hd)
  · exact isWord_of_boundChecks (fun _ _ => rfl) hlu c (mem_of_ofLower hc) d (mem_of_ofUpper hd)
  · exact isWord_of_boundChecks (fun _ _ => rfl) hul c (mem_of_ofUpper hc) d (mem_of_ofLower hd)
  · exact isWord_of_boundChecks (fun _ _ => rfl) huu c (mem_of_ofUpper hc) d (mem_of_ofUpper hd)

/-! ## Hulls of results -/

variable {a b : Interval}

theorem not_results_bottom_left (op : BinaryOp) (b : Interval) (v : Int) :
    ¬Results op bottom b v := by
  rintro ⟨x, y, hx, -⟩
  exact hx

theorem not_results_bottom_right (op : BinaryOp) (a : Interval) (v : Int) :
    ¬Results op a bottom v := by
  rintro ⟨x, y, -, hy, -⟩
  exact hy

theorem isHull_add (ha : a.Ordered) (hb : b.Ordered) (h : none ∉ addChecks a b) :
    (a.add b).IsHull (Results .add a b) := by
  cases a with
  | bottom => exact isHull_bottom (not_results_bottom_left _ _)
  | range l₁ u₁ =>
    cases b with
    | bottom => exact isHull_bottom (not_results_bottom_right _ _)
    | range l₂ u₂ =>
      rw [addChecks, List.mem_append, not_or] at h
      have hlow := isWord_of_boundChecks (fun _ _ => rfl) h.1
      have hhigh := isWord_of_boundChecks (fun _ _ => rfl) h.2
      have hends : Ends anyInt _ _ _ := ends_add ha hb
        (fun c hc d hd => tolerates_of_isWord (hlow c hc d hd))
        (fun c hc d hd => tolerates_of_isWord (hhigh c hc d hd))
      rw [add_eq_make]
      exact hends.isHull (add_ne_posInf hlow) (add_ne_negInf hhigh)

theorem isHull_neg (ha : a.Ordered) (h : none ∉ negChecks a) : a.neg.IsHull (Opposites a) := by
  cases a with
  | bottom =>
    refine isHull_bottom ?_
    rintro v ⟨x, hx, -⟩
    exact hx
  | range l u =>
    rw [negChecks, List.mem_append, not_or] at h
    have hlow := isWord_of_negChecks h.1
    have hhigh := isWord_of_negChecks h.2
    have hends : Ends anyInt _ _ _ := ends_neg ha
      (fun c hc => tolerates_of_isWord (hlow c hc)) (fun c hc => tolerates_of_isWord (hhigh c hc))
    rw [neg_eq_make]
    exact hends.isHull (neg_ne_posInf hlow) (neg_ne_negInf hhigh)

/-- Without overflow an opposite loses nothing. -/
theorem holds_neg_iff (h : none ∉ negChecks a) {v : Int} : a.neg.Holds v ↔ a.Holds (-v) := by
  cases a with
  | bottom => exact Iff.rfl
  | range l u =>
    rw [negChecks, List.mem_append, not_or] at h
    have hlow : Bound.Below (u.bind Word.neg?) v ↔ u.Above (-v) := by
      cases u with
      | none => simp
      | some c =>
        obtain ⟨w, hw⟩ := isWord_of_negChecks h.1 c rfl
        simp only [Option.bind_some, Word.neg?, ← hw, Word.ofInt?_val, below_some, above_some]
        omega
    have hhigh : Bound.Above (l.bind Word.neg?) v ↔ l.Below (-v) := by
      cases l with
      | none => simp
      | some c =>
        obtain ⟨w, hw⟩ := isWord_of_negChecks h.2 c rfl
        simp only [Option.bind_some, Word.neg?, ← hw, Word.ofInt?_val, below_some, above_some]
        omega
    rw [neg, holds_make, hlow, hhigh, and_comm]
    rfl

theorem isHull_sub (ha : a.Ordered) (h : none ∉ negChecks b ++ addChecks a b.neg) :
    (a.sub b).IsHull (Results .sub a b) := by
  rw [List.mem_append, not_or] at h
  refine (isHull_add ha (ordered_neg b) h.2).congr fun v => ?_
  constructor
  · rintro ⟨x, y, hx, hy, rfl⟩
    refine ⟨x, -y, hx, (holds_neg_iff h.1).1 hy, ?_⟩
    show x + y = x - -y
    omega
  · rintro ⟨x, y, hx, hy, rfl⟩
    refine ⟨x, -y, hx, (holds_neg_iff h.1).2 (by rwa [Int.neg_neg]), ?_⟩
    show x - y = x + -y
    omega

theorem isHull_mul (ha : a.Ordered) (hb : b.Ordered) (h : none ∉ mulChecks a b) :
    (a.mul b).IsHull (Results .mul a b) := by
  cases a with
  | bottom => exact isHull_bottom (not_results_bottom_left _ _)
  | range l₁ u₁ =>
    cases b with
    | bottom => exact isHull_bottom (not_results_bottom_right _ _)
    | range l₂ u₂ =>
      have hword := corners_of_mulChecks h
      have hends : Ends anyInt _ _ _ :=
        ends_mul ha hb fun e he f hf c d hc hd => tolerates_of_isWord (hword e he f hf c d hc hd)
      exact hends.isHull (leastCorner_ne_posInf hword) (greatestCorner_ne_negInf hword)

/-- Both bounds are finite, or there are none. -/
def IsFinite : Interval → Prop
  | bottom => True
  | range l u => l ≠ none ∧ u ≠ none

/-- What holds of two words holds of the smaller one. -/
theorem min_word {p : Word → Prop} {c d : Word} (hc : p c) (hd : p d) : p (min c d) := by
  show p (if c ≤ d then c else d)
  split
  · exact hc
  · exact hd

/-- What holds of two words holds of the greater one. -/
theorem max_word {p : Word → Prop} {c d : Word} (hc : p c) (hd : p d) : p (max c d) := by
  show p (if c ≤ d then d else c)
  split
  · exact hd
  · exact hc

/-- Integers between the least and the greatest of four of them end there. -/
theorem ends_of_four {V : Int → Prop} {p q r s : Word} (hp : V p.val) (hq : V q.val)
    (hr : V r.val) (hs : V s.val)
    (h : ∀ v, V v →
      (make (some (min (min p q) (min r s))) (some (max (max p q) (max r s)))).Holds v) :
    Ends anyInt V (fin (min (min p q) (min r s))) (fin (max (max p q) (max r s))) := by
  simp only [holds_make, below_some, above_some] at h
  let P : Word → Prop := fun w => V w.val
  have hleast : P (min (min p q) (min r s)) := min_word (min_word hp hq) (min_word hr hs)
  have hgreatest : P (max (max p q) (max r s)) := max_word (max_word hp hq) (max_word hr hs)
  exact ⟨hleast, hgreatest, fun v hv => (h v hv).1, fun v hv => (h v hv).2⟩

theorem isHull_divFinite {l₁ u₁ l₂ u₂ : Word} (ha : (range (some l₁) (some u₁)).Ordered)
    (hb : (range (some l₂) (some u₂)).Ordered)
    (hzero : (range (some l₂) (some u₂)).contains Word.zero = false)
    (h : none ∉ [l₁.quot? l₂, l₁.quot? u₂, u₁.quot? l₂, u₁.quot? u₂]) :
    (divFinite l₁ u₁ l₂ u₂).IsHull
      (Results .div (range (some l₁) (some u₁)) (range (some l₂) (some u₂))) := by
  -- the quotient of two bounds is a result
  have hquot : ∀ c d : Word, c.quot? d ∈ [l₁.quot? l₂, l₁.quot? u₂, u₁.quot? l₂, u₁.quot? u₂] →
      (range (some l₁) (some u₁)).Holds c.val → (range (some l₂) (some u₂)).Holds d.val →
      ∃ q, c.quot? d = some q ∧
        Results .div (range (some l₁) (some u₁)) (range (some l₂) (some u₂)) q.val := by
    intro c d hmem hc hd
    obtain ⟨q, hq⟩ := Option.ne_none_iff_exists'.1 fun hnone => h (hnone ▸ hmem)
    exact ⟨q, hq, c.val, d.val, hc, hd, fun _ => val_of_quot? hq⟩
  obtain ⟨p, hp, hresp⟩ := hquot l₁ l₂ (by simp) (reached_ofLower ha) (reached_ofLower hb)
  obtain ⟨q, hq, hresq⟩ := hquot l₁ u₂ (by simp) (reached_ofLower ha) (reached_ofUpper hb)
  obtain ⟨r, hr, hresr⟩ := hquot u₁ l₂ (by simp) (reached_ofUpper ha) (reached_ofLower hb)
  obtain ⟨s, hs, hress⟩ := hquot u₁ u₂ (by simp) (reached_ofUpper ha) (reached_ofUpper hb)
  have hdiv : divFinite l₁ u₁ l₂ u₂ =
      make (some (min (min p q) (min r s))) (some (max (max p q) (max r s))) := by
    rw [divFinite, hp, hq, hr, hs]
  rw [hdiv]
  refine (ends_of_four hresp hresq hresr hress ?_).isHull (by simp) (by simp)
  rintro v ⟨x, y, hx, hy, hv⟩
  rw [← hdiv, hv (ne_zero_of_not_contains hzero hy)]
  refine holds_divFinite hx hy ?_
  simpa using pos_or_neg_of_not_contains hzero

theorem isHull_div (ha : a.Ordered) (hb : b.Ordered) (hfa : a.IsFinite) (hfb : b.IsFinite)
    (hzero : ¬b.Holds 0) (h : none ∉ divChecks a b) : (a.div b).IsHull (Results .div a b) := by
  cases a with
  | bottom => exact isHull_bottom (not_results_bottom_left _ _)
  | range l₁ u₁ =>
    cases b with
    | bottom => exact isHull_bottom (not_results_bottom_right _ _)
    | range l₂ u₂ =>
      obtain ⟨l₁, rfl⟩ := Option.ne_none_iff_exists'.1 hfa.1
      obtain ⟨u₁, rfl⟩ := Option.ne_none_iff_exists'.1 hfa.2
      obtain ⟨l₂, rfl⟩ := Option.ne_none_iff_exists'.1 hfb.1
      obtain ⟨u₂, rfl⟩ := Option.ne_none_iff_exists'.1 hfb.2
      have hzero := contains_zero_eq_false hzero
      rw [divChecks, hzero, if_neg Bool.false_ne_true] at h
      have hdiv : (range (some l₁) (some u₁)).div (range (some l₂) (some u₂)) =
          divFinite l₁ u₁ l₂ u₂ := by
        simp [div, hzero]
      rw [hdiv]
      exact isHull_divFinite ha hb hzero h

/-! ## Operators -/

theorem evalBinary_arithmetic (a b : Interval) :
    evalBinary .add a b = a.add b ∧ evalBinary .sub a b = a.sub b ∧
      evalBinary .mul a b = a.mul b ∧ evalBinary .div a b = a.div b := by
  cases a <;> cases b <;> exact ⟨rfl, rfl, rfl, rfl⟩

/-- Arithmetic holds the exact results.  Where no checked operation overflows it is tight; division
is so if both sides are finite and zero is not among the divisors. -/
theorem arithmetic_sound_tight (ha : a.Ordered) (hb : b.Ordered) :
    (∀ x y, a.Holds x → b.Holds y →
      (evalBinary .add a b).Holds (x + y) ∧ (evalBinary .sub a b).Holds (x - y) ∧
        (evalBinary .mul a b).Holds (x * y) ∧
        (y ≠ 0 → (evalBinary .div a b).Holds (x.tdiv y) ∧
          (evalBinary .rem a b).Holds (x.tmod y))) ∧
      (∀ x, a.Holds x → (evalUnary .neg a).Holds (-x)) ∧
      (∀ op, op = .add ∨ op = .sub ∨ op = .mul ∨
          op = .div ∧ a.IsFinite ∧ b.IsFinite ∧ ¬b.Holds 0 →
        none ∉ checks op a b → (evalBinary op a b).IsHull (Results op a b)) ∧
      (none ∉ negChecks a → (evalUnary .neg a).IsHull (Opposites a)) := by
  obtain ⟨hadd, hsub, hmul, hdiv⟩ := evalBinary_arithmetic a b
  refine ⟨?_, ?_, ?_, isHull_neg ha⟩
  · intro x y hx hy
    refine ⟨holds_evalBinary hx hy rfl, holds_evalBinary hx hy rfl, holds_evalBinary hx hy rfl, ?_⟩
    intro hzero
    exact ⟨holds_evalBinary hx hy fun _ => rfl, holds_evalBinary hx hy fun _ => rfl⟩
  · intro x hx
    exact holds_evalUnary hx rfl
  · rintro op (rfl | rfl | rfl | ⟨rfl, hfa, hfb, hzero⟩) h
    · rw [hadd]
      exact isHull_add ha hb h
    · rw [hsub]
      exact isHull_sub ha h
    · rw [hmul]
      exact isHull_mul ha hb h
    · rw [hdiv]
      exact isHull_div ha hb hfa hfb hzero h

/-- The products of zero and one with the positive integers are not bounded above. -/
theorem arithmetic_sound_tight_products :
    evalBinary .mul (range (some .zero) (some .one)) (.atLeast .one) = .atLeast .zero ∧
      (evalBinary .mul (range (some .zero) (some .one)) (.atLeast .one)).IsHull
        (Results .mul (range (some .zero) (some .one)) (.atLeast .one)) := by
  have ha : (range (some .zero) (some .one)).Ordered := ordered_make (some .zero) (some .one)
  have hb : (atLeast .one).Ordered := ordered_make (some .one) none
  exact ⟨by decide,
    (arithmetic_sound_tight ha hb).2.2.1 .mul (.inr (.inr (.inl rfl))) (by decide)⟩

end Interval

end Demanded
