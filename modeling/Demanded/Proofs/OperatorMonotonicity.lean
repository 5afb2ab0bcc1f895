import Demanded.Proofs.Conditions
import Demanded.Proofs.IntervalHull

/-!
# Which operators are monotone

A bound that overflows becomes infinite on its own side, whichever way it overflows.  If all exact
results lie beyond the words, this loses both bounds, and a smaller operand may give a larger
interval.  `FitsBinary` and `FitsUnary` rule this out: some exact result is a word.  They are all
that is needed, at any two intervals (`monotoneAt_iff` and `monotoneAtUnary_iff`).

Refinement moves a bound by one in the same way; `FitsComparison` is what it needs.
-/

namespace Demanded

open Extended

/-- The integers do not all lie beyond the words. -/
def MeetsWords (V : Int → Prop) : Prop := (∃ v, V v) → ∃ w : Word, V w.val

theorem meetsWords_of_not_beyond {V : Int → Prop} (h : ∀ v, V v → ¬∀ w : Word, ¬V w.val) :
    MeetsWords V := by
  rintro ⟨v, hv⟩
  apply Classical.byContradiction
  intro hout
  exact h v hv fun w hw => hout ⟨w, hw⟩

theorem tolerates_isWord (n : Int) : Tolerates isWord n := fun _ _ h => h

theorem isWord_of_between {p q : Word} {n : Int} (hp : p.val ≤ n) (hq : n ≤ q.val) : isWord n := by
  have hmin := p.min_le
  have hmax := q.le_max
  exact ⟨⟨n, by omega, by omega⟩, rfl⟩

open Demanded.Interval in
/-- An interval between the ends of results that include a word is within every interval around
them. -/
theorem Ends.implies_of_meetsWords {V : Int → Prop} {e f : Extended} (h : Ends isWord V e f)
    (hne : ∃ v, V v) (hfits : MeetsWords V) {d : Interval} (hd : ∀ v, V v → d.Holds v) :
    (make e.finite? f.finite?).implies d = true := by
  obtain ⟨he, hf⟩ := h.ne_infinite (hfits hne)
  exact h.implies (fun w => ⟨w, rfl⟩) he hf hne hd

/-- If no result is a word, both bounds are lost. -/
theorem Ends.eq_top {V : Int → Prop} {e f : Extended} (h : Ends isWord V e f)
    (hout : ∀ w : Word, ¬V w.val) : Interval.make e.finite? f.finite? = Interval.top := by
  cases e with
  | fin c => exact absurd h.below (hout c)
  | negInf | posInf =>
    cases f with
    | fin d => exact absurd h.above (hout d)
    | negInf | posInf => rfl

/-- Results without a gap at zero of which none is a word are all above or all below the words. -/
theorem Ends.one_side {V : Int → Prop} {e f : Extended} (h : Ends isWord V e f)
    (hout : ∀ w : Word, ¬V w.val) (hgap : ∀ v v', V v → V v' → v < 0 → 0 < v' → V 0) :
    (∀ v, V v → ∀ w : Word, w.val < v) ∨ ∀ v, V v → ∀ w : Word, v < w.val := by
  cases e with
  | fin c => exact absurd h.below (hout c)
  | posInf => exact .inl h.least
  | negInf =>
    cases f with
    | fin d => exact absurd h.above (hout d)
    | negInf => exact .inr h.greatest
    | posInf =>
      obtain ⟨v, hv, hneg⟩ := h.below 0 ⟨Word.zero, rfl⟩
      obtain ⟨v', hv', hpos⟩ := h.above 0 ⟨Word.zero, rfl⟩
      exact absurd (hgap v v' hv hv' hneg hpos) (hout Word.zero)

namespace Interval

variable {a a' b b' : Interval}

theorem exists_results {op : BinaryOp} {l₁ u₁ l₂ u₂ : Bound} (h₁ : (range l₁ u₁).Ordered)
    (h₂ : (range l₂ u₂).Ordered) (hop : ∀ x y, ∃ v, op.Gives x y v) :
    ∃ v, Results op (range l₁ u₁) (range l₂ u₂) v := by
  obtain ⟨x, hx⟩ := exists_holds h₁ (by simp)
  obtain ⟨y, hy⟩ := exists_holds h₂ (by simp)
  obtain ⟨v, hv⟩ := hop x y
  exact ⟨v, x, y, hx, hy, hv⟩

/-- A larger interval has a lower bound only where the smaller one has one that is no less. -/
theorem exists_lower_of_implies {l u u' : Bound} {c' : Word}
    (h : (range l u).implies (range (some c') u') = true) : ∃ c, l = some c ∧ c'.val ≤ c.val := by
  rw [implies, Bool.and_eq_true] at h
  cases l with
  | none => cases h.1
  | some c => exact ⟨c, rfl, (of_decide_eq_true h.1 : c' ≤ c)⟩

theorem exists_upper_of_implies {l u l' : Bound} {d' : Word}
    (h : (range l u).implies (range l' (some d')) = true) : ∃ d, u = some d ∧ d.val ≤ d'.val := by
  rw [implies, Bool.and_eq_true] at h
  cases u with
  | none => cases h.2
  | some d => exact ⟨d, rfl, (of_decide_eq_true h.2 : d ≤ d')⟩

/-! ## Arithmetic -/

section Ends

variable {l₁ u₁ l₂ u₂ : Bound}

theorem ends_add_isWord (ha : (range l₁ u₁).Ordered) (hb : (range l₂ u₂).Ordered) :
    Ends isWord (Results .add (range l₁ u₁) (range l₂ u₂))
      ((ofLower l₁).add (ofLower l₂)) ((ofUpper u₁).add (ofUpper u₂)) :=
  ends_add ha hb (fun _ _ _ _ => tolerates_isWord _) fun _ _ _ _ => tolerates_isWord _

theorem ends_neg_isWord (ha : (range l₁ u₁).Ordered) :
    Ends isWord (Opposites (range l₁ u₁)) (ofUpper u₁).neg (ofLower l₁).neg :=
  ends_neg ha (fun _ _ => tolerates_isWord _) fun _ _ => tolerates_isWord _

theorem ends_mul_isWord (ha : (range l₁ u₁).Ordered) (hb : (range l₂ u₂).Ordered) :
    Ends isWord (Results .mul (range l₁ u₁) (range l₂ u₂))
      (leastCorner l₁ u₁ l₂ u₂) (greatestCorner l₁ u₁ l₂ u₂) :=
  ends_mul ha hb fun _ _ _ _ _ _ _ _ => tolerates_isWord _

end Ends

theorem add_mono (ha : a.Ordered) (hb : b.Ordered) (haa : a.implies a' = true)
    (hbb : b.implies b' = true) (hfits : MeetsWords (Results .add a b)) :
    (a.add b).implies (a'.add b') = true := by
  cases a with
  | bottom => rfl
  | range l₁ u₁ =>
    cases b with
    | bottom => rfl
    | range l₂ u₂ =>
      have hends := ends_add_isWord ha hb
      rw [add_eq_make]
      refine hends.implies_of_meetsWords (exists_results ha hb fun x y => ⟨_, rfl⟩) hfits ?_
      rintro v ⟨x, y, hx, hy, rfl⟩
      exact holds_add (holds_of_implies haa hx) (holds_of_implies hbb hy)

theorem neg_mono (ha : a.Ordered) (haa : a.implies a' = true) (hfits : MeetsWords (Opposites a)) :
    a.neg.implies a'.neg = true := by
  cases a with
  | bottom => rfl
  | range l u =>
    have hends := ends_neg_isWord ha
    obtain ⟨x, hx⟩ := exists_holds ha (by simp)
    rw [neg_eq_make]
    refine hends.implies_of_meetsWords ⟨-x, x, hx, rfl⟩ hfits ?_
    rintro v ⟨x, hx, rfl⟩
    exact holds_neg (holds_of_implies haa hx)

theorem mul_mono (ha : a.Ordered) (hb : b.Ordered) (haa : a.implies a' = true)
    (hbb : b.implies b' = true) (hfits : MeetsWords (Results .mul a b)) :
    (a.mul b).implies (a'.mul b') = true := by
  cases a with
  | bottom => rfl
  | range l₁ u₁ =>
    cases b with
    | bottom => rfl
    | range l₂ u₂ =>
      refine (ends_mul_isWord ha hb).implies_of_meetsWords
        (exists_results ha hb fun x y => ⟨_, rfl⟩) hfits ?_
      rintro v ⟨x, y, hx, hy, rfl⟩
      exact holds_mul (holds_of_implies haa hx) (holds_of_implies hbb hy)

/-! ## Quotients -/

/-- A quotient is unconstrained unless the operands are finite, and then it is between two words. -/
theorem div_eq_top_or (l₁ u₁ l₂ u₂ : Bound) :
    (range l₁ u₁).div (range l₂ u₂) = top ∨
      (range l₂ u₂).contains Word.zero = false ∧
        (∃ c d e f, l₁ = some c ∧ u₁ = some d ∧ l₂ = some e ∧ u₂ = some f) ∧
        ∃ p q, (range l₁ u₁).div (range l₂ u₂) = make (some p) (some q) := by
  dsimp only [div]
  split
  · exact .inl rfl
  · rename_i hzero
    rw [Bool.not_eq_true] at hzero
    split
    · rename_i c d e f
      unfold divFinite
      split
      · exact .inr ⟨hzero, ⟨c, d, e, f, rfl, rfl, rfl, rfl⟩, _, _, rfl⟩
      · exact .inl rfl
    · exact .inl rfl

theorem exists_finite_of_implies {l u : Bound} {c d : Word}
    (h : (range l u).implies (range (some c) (some d)) = true) :
    ∃ c' d', l = some c' ∧ u = some d' := by
  obtain ⟨c', hc, -⟩ := exists_lower_of_implies h
  obtain ⟨d', hd, -⟩ := exists_upper_of_implies h
  exact ⟨c', d', hc, hd⟩

theorem contains_zero_of_implies (h : b.implies b' = true) (hzero : b'.contains Word.zero = false) :
    b.contains Word.zero = false := by
  apply contains_zero_eq_false
  intro hb
  rw [contains_iff_holds.2 (holds_of_implies h hb : b'.Holds Word.zero.val)] at hzero
  cases hzero

theorem quot?_ne_none {c d : Word} (hd : d.val ≠ 0) (h : isWord (c.val.tdiv d.val)) :
    c.quot? d ≠ none := by
  rw [Word.quot?, if_neg hd]
  exact isWord_iff.1 h

/-- Quotients that all lie between two words do not overflow. -/
theorem isHull_div_of_between {c d e f p q : Word} (ha : (range (some c) (some d)).Ordered)
    (hb : (range (some e) (some f)).Ordered)
    (hzero : (range (some e) (some f)).contains .zero = false)
    (h : ∀ v, Results .div (range (some c) (some d)) (range (some e) (some f)) v →
      (make (some p) (some q)).Holds v) :
    ((range (some c) (some d)).div (range (some e) (some f))).IsHull
      (Results .div (range (some c) (some d)) (range (some e) (some f))) := by
  have hquot : ∀ x y : Word, (range (some c) (some d)).Holds x.val →
      (range (some e) (some f)).Holds y.val → x.quot? y ≠ none := by
    intro x y hx hy
    have hv := h (x.val.tdiv y.val) ⟨x.val, y.val, hx, hy, fun _ => rfl⟩
    rw [holds_make, below_some, above_some] at hv
    exact quot?_ne_none (ne_zero_of_not_contains hzero hy) (isWord_of_between hv.1 hv.2)
  have hc : (range (some c) (some d)).Holds c.val := reached_ofLower ha
  have hd : (range (some c) (some d)).Holds d.val := reached_ofUpper ha
  have he : (range (some e) (some f)).Holds e.val := reached_ofLower hb
  have hf : (range (some e) (some f)).Holds f.val := reached_ofUpper hb
  have hdiv : (range (some c) (some d)).div (range (some e) (some f)) = divFinite c d e f := by
    simp [div, hzero]
  rw [hdiv]
  apply isHull_divFinite ha hb hzero
  simp [(hquot c e hc he).symm, (hquot c f hc hf).symm, (hquot d e hd he).symm,
    (hquot d f hd hf).symm]

theorem div_mono {l₁ u₁ l₂ u₂ l₁' u₁' l₂' u₂' : Bound} (ha : (range l₁ u₁).Ordered)
    (hb : (range l₂ u₂).Ordered) (haa : (range l₁ u₁).implies (range l₁' u₁') = true)
    (hbb : (range l₂ u₂).implies (range l₂' u₂') = true) :
    ((range l₁ u₁).div (range l₂ u₂)).implies ((range l₁' u₁').div (range l₂' u₂')) = true := by
  have hresults : ∀ v, Results .div (range l₁ u₁) (range l₂ u₂) v →
      ((range l₁' u₁').div (range l₂' u₂')).Holds v := by
    rintro v ⟨x, y, hx, hy, hv⟩
    exact holds_div (holds_of_implies haa hx) (holds_of_implies hbb hy) hv
  rcases div_eq_top_or l₁' u₁' l₂' u₂' with
    htop | ⟨hzero', ⟨c', d', e', f', rfl, rfl, rfl, rfl⟩, p, q, hpq⟩
  · rw [htop]
    exact implies_top _
  · obtain ⟨c, d, rfl, rfl⟩ := exists_finite_of_implies haa
    obtain ⟨e, f, rfl, rfl⟩ := exists_finite_of_implies hbb
    have hzero := contains_zero_of_implies hbb hzero'
    rw [hpq] at hresults ⊢
    exact (isHull_div_of_between ha hb hzero hresults).least _ hresults

/-! ## Remainders -/

theorem remMagnitude_eq_some_iff {l u : Bound} {m : Word} :
    remMagnitude l u = some m ↔ ∃ c d p : Word, l = some c ∧ u = some d ∧
      p.val = max (c.val.natAbs : Int) d.val.natAbs ∧ m.val = p.val - 1 := by
  constructor
  · intro h
    obtain ⟨p, hp, hm⟩ := Option.bind_eq_some_iff.1 h
    have hm : p.val - 1 = m.val := Word.ofInt?_eq_some.1 hm
    cases l with
    | none => cases hp
    | some c =>
      cases u with
      | none => cases hc : c.abs? <;> simp [Bound.lift₂, hc] at hp
      | some d =>
        cases hc : c.abs? <;> cases hd : d.abs? <;> simp [Bound.lift₂, hc, hd] at hp
        refine ⟨c, d, p, rfl, rfl, ?_, hm.symm⟩
        rw [← hp, Word.val_max, ← Word.ofInt?_eq_some.1 hc, ← Word.ofInt?_eq_some.1 hd]
  · rintro ⟨c, d, p, rfl, rfl, hp, hm⟩
    have hword : ∀ e : Word, e.val.natAbs ≤ p.val →
        ∃ q, e.abs? = some q ∧ q.val = e.val.natAbs := by
      intro e he
      obtain ⟨q, hq⟩ := isWord_of_between (p := Word.zero) (Int.natCast_nonneg _) he
      exact ⟨q, Word.ofInt?_eq_some.2 hq.symm, hq⟩
    obtain ⟨q, hq, hqc⟩ := hword c (by omega)
    obtain ⟨r, hr, hrd⟩ := hword d (by omega)
    have hmax : max q r = p := by
      apply Word.ext
      rw [Word.val_max]
      omega
    have hsub : p.sub? Word.one = some m := Word.ofInt?_eq_some.2 hm.symm
    simp [remMagnitude, Bound.lift₂, hq, hr, hmax, hsub]

/-- Divisors from a smaller interval leave smaller remainders. -/
theorem above_remMagnitude_of_implies {l u l' u' : Bound} (h : (range l u).Ordered)
    (himp : (range l u).implies (range l' u') = true) {n : Int} (hn : (remMagnitude l u).Above n) :
    (remMagnitude l' u').Above n := by
  intro m' hm'
  obtain ⟨c', d', p', rfl, rfl, hp', hm'⟩ := remMagnitude_eq_some_iff.1 hm'
  obtain ⟨c, d, rfl, rfl⟩ := exists_finite_of_implies himp
  have hc := holds_of_implies himp (reached_ofLower h : (range (some c) (some d)).Holds c.val)
  have hd := holds_of_implies himp (reached_ofUpper h : (range (some c) (some d)).Holds d.val)
  simp only [Holds, below_some, above_some] at hc hd
  have hmax := p'.le_max
  obtain ⟨p, hp⟩ : isWord (max (c.val.natAbs : Int) d.val.natAbs) :=
    ⟨⟨_, by omega, by omega⟩, rfl⟩
  have hpp : p.val ≤ p'.val := by omega
  obtain ⟨m, hm⟩ : isWord (p.val - 1) := ⟨⟨p.val - 1, by omega, by omega⟩, rfl⟩
  have hnm := hn m (remMagnitude_eq_some_iff.2 ⟨c, d, p, rfl, rfl, hp, hm⟩)
  omega

theorem below_neg_remMagnitude {l u : Bound} {v : Int} :
    Bound.Below ((remMagnitude l u).bind Word.neg?) v ↔ (remMagnitude l u).Above (-v) := by
  constructor
  · intro h m hm
    obtain ⟨c, d, p, -, -, hp, hmp⟩ := remMagnitude_eq_some_iff.1 hm
    have hmax := m.le_max
    obtain ⟨w, hw⟩ : isWord (-m.val) := ⟨⟨-m.val, by omega, by omega⟩, rfl⟩
    have hle := h w (Option.bind_eq_some_iff.2 ⟨m, hm, Word.ofInt?_eq_some.2 hw.symm⟩)
    omega
  · intro h
    refine below_bind fun m hm => below_ofInt? ?_
    have := h m hm
    omega

theorem remMagnitude_nonneg {l u : Bound} {m : Word} (h : (range l u).Ordered)
    (hzero : (range l u).contains Word.zero = false) (hm : remMagnitude l u = some m) :
    0 ≤ m.val := by
  obtain ⟨c, d, p, rfl, rfl, hp, hmp⟩ := remMagnitude_eq_some_iff.1 hm
  have hc := ne_zero_of_not_contains hzero
    (reached_ofLower h : (range (some c) (some d)).Holds c.val)
  omega

/-- The remainders: at most the magnitude that the divisor allows, on the side of the dividend. -/
theorem holds_rem_iff {l₁ u₁ l₂ u₂ : Bound} {v : Int} (ha : (range l₁ u₁).Ordered)
    (hb : (range l₂ u₂).Ordered) (hzero : (range l₂ u₂).contains Word.zero = false) :
    ((range l₁ u₁).rem (range l₂ u₂)).Holds v ↔
      (remMagnitude l₂ u₂).Above v ∧ (remMagnitude l₂ u₂).Above (-v) ∧
        ((∃ c ∈ l₁, 0 ≤ c.val) → 0 ≤ v ∧ u₁.Above v) ∧
        ((∃ d ∈ u₁, d.val ≤ 0) → v ≤ 0 ∧ l₁.Below v) := by
  have hnonneg : ∀ m ∈ remMagnitude l₂ u₂, 0 ≤ m.val := fun m hm => remMagnitude_nonneg hb hzero hm
  have hlow : (l₁.any fun l => decide (Word.zero ≤ l)) = true ↔ ∃ c ∈ l₁, 0 ≤ c.val := by
    simp only [Option.any_eq_true, decide_eq_true_eq]
    rfl
  have hup : (u₁.any fun u => decide (u ≤ Word.zero)) = true ↔ ∃ d ∈ u₁, d.val ≤ 0 := by
    simp only [Option.any_eq_true, decide_eq_true_eq]
    rfl
  dsimp only [rem]
  rw [hzero, if_neg Bool.false_ne_true]
  split
  · rename_i hl
    rw [hlow] at hl
    rw [holds_make, below_some, above_minUpper]
    constructor
    · rintro ⟨hv, hvu, hvm⟩
      have hv : 0 ≤ v := hv
      refine ⟨hvm, fun m hm => ?_, fun _ => ⟨hv, hvu⟩, ?_⟩
      · have := hnonneg m hm
        omega
      · rintro ⟨d, hd, hneg⟩
        have hle := hvu d hd
        refine ⟨by omega, fun c hc => ?_⟩
        have := ha c hc d hd
        omega
    · rintro ⟨hvm, -, hside, -⟩
      exact ⟨(hside hl).1, (hside hl).2, hvm⟩
  · rename_i hl
    rw [hlow] at hl
    split
    · rename_i hu
      rw [hup] at hu
      rw [holds_make, above_some, below_maxLower, below_neg_remMagnitude]
      constructor
      · rintro ⟨⟨hvl, hvm⟩, hv⟩
        have hv : v ≤ 0 := hv
        refine ⟨fun m hm => ?_, hvm, fun hpos => absurd hpos hl, fun _ => ⟨hv, hvl⟩⟩
        have := hnonneg m hm
        omega
      · rintro ⟨-, hvm, -, hside⟩
        exact ⟨⟨(hside hu).2, hvm⟩, (hside hu).1⟩
    · rename_i hu
      rw [hup] at hu
      rw [holds_make, below_neg_remMagnitude]
      constructor
      · rintro ⟨hnvm, hvm⟩
        exact ⟨hvm, hnvm, fun hpos => absurd hpos hl, fun hneg => absurd hneg hu⟩
      · rintro ⟨hvm, hnvm, -⟩
        exact ⟨hnvm, hvm⟩

theorem rem_mono {l₁ u₁ l₂ u₂ l₁' u₁' l₂' u₂' : Bound} (ha : (range l₁ u₁).Ordered)
    (hb : (range l₂ u₂).Ordered) (haa : (range l₁ u₁).implies (range l₁' u₁') = true)
    (hbb : (range l₂ u₂).implies (range l₂' u₂') = true) :
    ((range l₁ u₁).rem (range l₂ u₂)).implies ((range l₁' u₁').rem (range l₂' u₂')) = true := by
  cases hzero' : (range l₂' u₂').contains Word.zero with
  | true =>
    have htop : (range l₁' u₁').rem (range l₂' u₂') = top := by simp [rem, hzero']
    rw [htop]
    exact implies_top _
  | false =>
    obtain ⟨x, hx⟩ := exists_holds ha (by simp)
    obtain ⟨y, hy⟩ := exists_holds hb (by simp)
    have ha' := ordered_of_holds (holds_of_implies haa hx)
    have hb' := ordered_of_holds (holds_of_implies hbb hy)
    rw [implies_iff_holds (ordered_rem _ _)]
    intro v hv
    rw [holds_rem_iff ha hb (contains_zero_of_implies hbb hzero')] at hv
    rw [holds_rem_iff ha' hb' hzero']
    obtain ⟨hvm, hnvm, hpos, hneg⟩ := hv
    have hbounds := haa
    rw [implies, Bool.and_eq_true] at hbounds
    refine ⟨above_remMagnitude_of_implies hb hbb hvm, above_remMagnitude_of_implies hb hbb hnvm,
      ?_, ?_⟩
    · rintro ⟨c', rfl, hc0⟩
      obtain ⟨c, hc, hle⟩ := exists_lower_of_implies haa
      have hside := hpos ⟨c, hc, Int.le_trans hc0 hle⟩
      exact ⟨hside.1, above_of_le hbounds.2 hside.2⟩
    · rintro ⟨d', rfl, hd0⟩
      obtain ⟨d, hd, hle⟩ := exists_upper_of_implies haa
      have hside := hneg ⟨d, hd, Int.le_trans hle hd0⟩
      exact ⟨hside.1, below_of_le hbounds.1 hside.2⟩

/-! ## Operators -/

/-- What makes a unary operator monotone at an interval. -/
def FitsUnary (op : UnaryOp) (a : Interval) : Prop :=
  match op with
  | .neg => MeetsWords (Opposites a)
  | .not => True

/-- What makes a binary operator monotone at two intervals.  A difference is the sum with the
opposite; the opposite need not fit if there is no lower bound that it could lose. -/
def FitsBinary (op : BinaryOp) (a b : Interval) : Prop :=
  match op with
  | .add => MeetsWords (Results .add a b)
  | .sub => MeetsWords (Results .add a b.neg) ∧
      ((∃ c u, a = range (some c) u) → MeetsWords (Opposites b))
  | .mul => MeetsWords (Results .mul a b)
  | _ => True

/-- If no opposite is a word, the opposites are not bounded above in any larger interval. -/
theorem neg_eq_range_none (hb : b.Ordered) (hne : b ≠ bottom) (hbb : b.implies b' = true)
    (h : ¬MeetsWords (Opposites b)) : ∃ l, b'.neg = range l none := by
  obtain ⟨w, hw⟩ := exists_word hb hne
  have hmin : ¬isWord (-w.val) := by
    rintro ⟨w', hw'⟩
    exact h fun _ => ⟨w', w.val, hw, hw'⟩
  have hw' := holds_of_implies hbb hw
  cases b' with
  | bottom => exact hw'.elim
  | range l u =>
    have hnone : l.bind Word.neg? = none := by
      cases l with
      | none => rfl
      | some c =>
        have hle : c.val ≤ w.val := hw'.1 c rfl
        have hmax := w.le_max
        refine Option.eq_none_iff_forall_ne_some.2 fun d hd => hmin ?_
        have hval : -c.val = d.val := Word.ofInt?_eq_some.1 hd
        have := d.le_max
        exact ⟨⟨-w.val, by omega, by omega⟩, rfl⟩
    rw [neg, hnone]
    cases u.bind Word.neg? with
    | none => exact ⟨none, rfl⟩
    | some d => exact ⟨some d, rfl⟩

theorem sub_mono (ha : a.Ordered) (hb : b.Ordered) (hne : b ≠ bottom) (haa : a.implies a' = true)
    (hbb : b.implies b' = true) (hfits : FitsBinary .sub a b) :
    (a.sub b).implies (a'.sub b') = true := by
  by_cases hneg : MeetsWords (Opposites b)
  · exact add_mono ha (ordered_neg b) haa (neg_mono hb hbb hneg) hfits.1
  · obtain ⟨l, hl⟩ := neg_eq_range_none hb hne hbb hneg
    cases a with
    | bottom => rfl
    | range l₁ u₁ =>
      cases l₁ with
      | some c => exact absurd (hfits.2 ⟨c, u₁, rfl⟩) hneg
      | none =>
        -- the larger difference has no bounds at all
        cases a' with
        | bottom => cases haa
        | range l₁' u₁' =>
          cases l₁' with
          | some c => cases haa
          | none =>
            have htop : (range none u₁').sub b' = top := by
              rw [sub, hl]
              cases u₁' <;> rfl
            rw [htop]
            exact implies_top _

/-- The results of an operator lie in its interval for larger operands. -/
theorem holds_of_results {op : BinaryOp} (haa : a.implies a' = true) (hbb : b.implies b' = true)
    {v : Int} (h : Results op a b v) : (evalBinary op a' b').Holds v := by
  obtain ⟨x, y, hx, hy, hv⟩ := h
  exact holds_evalBinary (holds_of_implies haa hx) (holds_of_implies hbb hy) hv

theorem evalBinary_mono {op : BinaryOp} (ha : a.Ordered) (hb : b.Ordered)
    (haa : a.implies a' = true) (hbb : b.implies b' = true) (hfits : FitsBinary op a b) :
    (evalBinary op a b).implies (evalBinary op a' b') = true := by
  by_cases hop : op.isComparison = true ∨ op = .and ∨ op = .or
  · rw [implies_iff_holds (ordered_evalBinary op a b)]
    intro v hv
    exact holds_of_results haa hbb (results_of_condition ha hb hop hv)
  · cases a with
    | bottom => rfl
    | range l₁ u₁ =>
      cases b with
      | bottom => rfl
      | range l₂ u₂ =>
        cases a' with
        | bottom => cases haa
        | range l₁' u₁' =>
          cases b' with
          | bottom => cases hbb
          | range l₂' u₂' =>
            cases op with
            | add => exact add_mono ha hb haa hbb hfits
            | sub => exact sub_mono ha hb (by simp) haa hbb hfits
            | mul => exact mul_mono ha hb haa hbb hfits
            | div => exact div_mono ha hb haa hbb
            | rem => exact rem_mono ha hb haa hbb
            | lt | le | gt | ge | eq | ne | and | or => simp [BinaryOp.isComparison] at hop

theorem evalUnary_mono {op : UnaryOp} (ha : a.Ordered) (haa : a.implies a' = true)
    (hfits : FitsUnary op a) : (evalUnary op a).implies (evalUnary op a') = true := by
  cases op with
  | neg => exact neg_mono ha haa hfits
  | not =>
    rw [implies_iff_holds (ordered_evalUnary .not a)]
    intro v hv
    obtain ⟨x, hx, hxv⟩ := exists_of_holds_not ha hv
    exact holds_evalUnary (holds_of_implies haa hx) hxv

/-! ## Only operators that fit are monotone -/

/-- The operator gives a larger interval for any larger ones. -/
def MonotoneAt (op : BinaryOp) (a b : Interval) : Prop :=
  ∀ a' b', a.implies a' = true → b.implies b' = true →
    (evalBinary op a b).implies (evalBinary op a' b') = true

/-- The operator gives a larger interval for any larger one. -/
def MonotoneAtUnary (op : UnaryOp) (a : Interval) : Prop :=
  ∀ a', a.implies a' = true → (evalUnary op a).implies (evalUnary op a') = true

theorem implies_atLeast_zero (ha : a.Ordered) (h : ∀ x, a.Holds x → 0 ≤ x) :
    a.implies (atLeast .zero) = true := by
  rw [implies_iff_holds ha]
  intro x hx
  rw [atLeast, holds_make, below_some]
  exact ⟨h x hx, above_none x⟩

theorem implies_atMost_zero (ha : a.Ordered) (h : ∀ x, a.Holds x → x ≤ 0) :
    a.implies (atMost .zero) = true := by
  rw [implies_iff_holds ha]
  intro x hx
  rw [atMost, holds_make, above_some]
  exact ⟨below_none x, h x hx⟩

/-- There is no integer missing between two integers of an interval. -/
theorem holds_of_between {x y z : Int} (hx : a.Holds x) (hz : a.Holds z) (hxy : x ≤ y)
    (hyz : y ≤ z) : a.Holds y := by
  cases a with
  | bottom => exact hx
  | range l u =>
    exact ⟨fun c hc => Int.le_trans (hx.1 c hc) hxy, fun d hd => Int.le_trans hyz (hz.2 d hd)⟩

theorem neg_of_beyond (ha : a.Ordered) (hne : a ≠ bottom) (hout : ∀ w : Word, ¬Opposites a w.val) :
    a.neg = top ∧ (a.implies (atMost .zero) = true ∨ a.implies (atLeast .zero) = true) := by
  cases a with
  | bottom => exact absurd rfl hne
  | range l u =>
    have hends := ends_neg_isWord ha
    refine ⟨neg_eq_make.trans (hends.eq_top hout), ?_⟩
    have hside := hends.one_side hout (by
      rintro v v' ⟨x, hx, rfl⟩ ⟨x', hx', rfl⟩ hneg hpos
      exact ⟨0, holds_of_between hx' hx (by omega) (by omega), rfl⟩)
    rcases hside with habove | hbelow
    · left
      apply implies_atMost_zero ha
      intro x hx
      have : (0 : Int) < -x := habove (-x) ⟨x, hx, rfl⟩ Word.zero
      omega
    · right
      apply implies_atLeast_zero ha
      intro x hx
      have : -x < (0 : Int) := hbelow (-x) ⟨x, hx, rfl⟩ Word.zero
      omega

theorem add_of_beyond (ha : a.Ordered) (hb : b.Ordered) (hna : a ≠ bottom) (hnb : b ≠ bottom)
    (hout : ∀ w : Word, ¬Results .add a b w.val) :
    a.add b = top ∧
      (a.implies (atLeast .zero) = true ∧ b.implies (atLeast .zero) = true ∨
        a.implies (atMost .zero) = true ∧ b.implies (atMost .zero) = true) := by
  obtain ⟨v, hv⟩ := exists_word ha hna
  obtain ⟨w, hw⟩ := exists_word hb hnb
  cases a with
  | bottom => exact absurd rfl hna
  | range l₁ u₁ =>
    cases b with
    | bottom => exact absurd rfl hnb
    | range l₂ u₂ =>
      have hends := ends_add_isWord ha hb
      refine ⟨add_eq_make.trans (hends.eq_top hout), ?_⟩
      have hside := hends.one_side hout (by
        rintro s s' ⟨x, y, hx, hy, rfl⟩ ⟨x', y', hx', hy', rfl⟩ hneg hpos
        -- from one pair to the other, first one summand moves and then the other
        rcases Int.lt_or_le (x' + y) 0 with hlt | hle
        · exact ⟨x', -x', hx', holds_of_between hy hy' (by omega) (by omega),
            (Int.add_right_neg x').symm⟩
        · exact ⟨-y, y, holds_of_between hx hx' (by omega) (by omega), hy,
            (Int.add_left_neg y).symm⟩)
      -- the other summand may be a word
      rcases hside with habove | hbelow
      · left
        constructor
        · apply implies_atLeast_zero ha
          intro x hx
          have := habove (x + w.val) ⟨x, w.val, hx, hw, rfl⟩ w
          omega
        · apply implies_atLeast_zero hb
          intro y hy
          have := habove (v.val + y) ⟨v.val, y, hv, hy, rfl⟩ v
          omega
      · right
        constructor
        · apply implies_atMost_zero ha
          intro x hx
          have := hbelow (x + w.val) ⟨x, w.val, hx, hw, rfl⟩ w
          omega
        · apply implies_atMost_zero hb
          intro y hy
          have := hbelow (v.val + y) ⟨v.val, y, hv, hy, rfl⟩ v
          omega

theorem implies_half_line (ha : a.Ordered) (hzero : ¬a.Holds 0) :
    a.implies (atLeast .zero) = true ∨ a.implies (atMost .zero) = true := by
  by_cases hneg : ∃ x, a.Holds x ∧ x < 0
  · right
    obtain ⟨x, hx, hlt⟩ := hneg
    apply implies_atMost_zero ha
    intro y hy
    apply Classical.byContradiction
    intro hpos
    exact hzero (holds_of_between hx hy (by omega) (by omega))
  · left
    apply implies_atLeast_zero ha
    intro x hx
    apply Classical.byContradiction
    intro hlt
    exact hneg ⟨x, hx, by omega⟩

theorem mul_of_beyond (ha : a.Ordered) (hb : b.Ordered) (hna : a ≠ bottom) (hnb : b ≠ bottom)
    (hout : ∀ w : Word, ¬Results .mul a b w.val) :
    a.mul b = top ∧ (a.implies (atLeast .zero) = true ∨ a.implies (atMost .zero) = true) ∧
      (b.implies (atLeast .zero) = true ∨ b.implies (atMost .zero) = true) := by
  obtain ⟨x, hx⟩ := exists_holds ha hna
  obtain ⟨y, hy⟩ := exists_holds hb hnb
  -- with a factor zero, zero would be a product
  have hzero : ¬a.Holds 0 := fun h => hout Word.zero ⟨0, y, h, hy, (Int.zero_mul y).symm⟩
  have hzero' : ¬b.Holds 0 := fun h => hout Word.zero ⟨x, 0, hx, h, (Int.mul_zero x).symm⟩
  refine ⟨?_, implies_half_line ha hzero, implies_half_line hb hzero'⟩
  cases a with
  | bottom => exact absurd rfl hna
  | range l₁ u₁ =>
    cases b with
    | bottom => exact absurd rfl hnb
    | range l₂ u₂ =>
      exact (ends_mul_isWord ha hb).eq_top hout

theorem monotoneAtUnary_iff {op : UnaryOp} (ha : a.Ordered) :
    MonotoneAtUnary op a ↔ FitsUnary op a := by
  refine ⟨fun h => ?_, fun h a' haa => evalUnary_mono ha haa h⟩
  cases op with
  | not => trivial
  | neg =>
    apply meetsWords_of_not_beyond
    rintro v ⟨x, hx, -⟩ hout
    obtain ⟨htop, hside⟩ := neg_of_beyond ha (ne_bottom_of_holds hx) hout
    have himp : ∀ a', a.implies a' = true → top.implies (evalUnary .neg a') = true := by
      intro a' haa
      have hmono := h a' haa
      rwa [evalUnary, htop] at hmono
    rcases hside with hside | hside <;> exact absurd (himp _ hside) (by decide)

theorem top_implies_of_monotoneAt {op : BinaryOp} (h : MonotoneAt op a b)
    (htop : evalBinary op a b = top) (haa : a.implies a' = true) (hbb : b.implies b' = true) :
    top.implies (evalBinary op a' b') = true := by
  rw [← htop]
  exact h a' b' haa hbb

theorem meetsWords_add (ha : a.Ordered) (hb : b.Ordered) (h : MonotoneAt .add a b) :
    MeetsWords (Results .add a b) := by
  apply meetsWords_of_not_beyond
  rintro v ⟨x, y, hx, hy, -⟩ hout
  obtain ⟨htop, hside⟩ :=
    add_of_beyond ha hb (ne_bottom_of_holds hx) (ne_bottom_of_holds hy) hout
  have hval := (evalBinary_arithmetic a b).1.trans htop
  rcases hside with ⟨haa, hbb⟩ | ⟨haa, hbb⟩ <;>
    exact absurd (top_implies_of_monotoneAt h hval haa hbb) (by decide)

theorem meetsWords_mul (ha : a.Ordered) (hb : b.Ordered) (h : MonotoneAt .mul a b) :
    MeetsWords (Results .mul a b) := by
  apply meetsWords_of_not_beyond
  rintro v ⟨x, y, hx, hy, -⟩ hout
  obtain ⟨htop, haa, hbb⟩ :=
    mul_of_beyond ha hb (ne_bottom_of_holds hx) (ne_bottom_of_holds hy) hout
  have hval := (evalBinary_arithmetic a b).2.2.1.trans htop
  rcases haa with haa | haa <;> rcases hbb with hbb | hbb <;>
    exact absurd (top_implies_of_monotoneAt h hval haa hbb) (by decide)

theorem meetsWords_sub (ha : a.Ordered) (hb : b.Ordered) (h : MonotoneAt .sub a b) :
    MeetsWords (Results .add a b.neg) := by
  apply meetsWords_of_not_beyond
  rintro v ⟨x, z, hx, hz, -⟩ hout
  obtain ⟨htop, hside⟩ :=
    add_of_beyond ha (ordered_neg b) (ne_bottom_of_holds hx) (ne_bottom_of_holds hz) hout
  have hval := (evalBinary_arithmetic a b).2.1.trans htop
  -- the subtrahend is on the other side of zero than its opposite
  rcases hside with ⟨haa, hbb⟩ | ⟨haa, hbb⟩
  · have hflip : b.implies (atMost .zero) = true := by
      apply implies_atMost_zero hb
      intro y hy
      have hneg := (holds_make.1 (holds_of_implies hbb (holds_neg hy))).1 Word.zero rfl
      have : (0 : Int) ≤ -y := hneg
      omega
    exact absurd (top_implies_of_monotoneAt h hval haa hflip) (by decide)
  · have hflip : b.implies (atLeast .zero) = true := by
      apply implies_atLeast_zero hb
      intro y hy
      have hneg := (holds_make.1 (holds_of_implies hbb (holds_neg hy))).2 Word.zero rfl
      have : -y ≤ (0 : Int) := hneg
      omega
    exact absurd (top_implies_of_monotoneAt h hval haa hflip) (by decide)

/-- A minuend with a lower bound loses it if the opposites of the subtrahend do not fit. -/
theorem meetsWords_opposites {c : Word} {u : Bound} (ha : (range (some c) u).Ordered)
    (hb : b.Ordered) (h : MonotoneAt .sub (range (some c) u) b) : MeetsWords (Opposites b) := by
  apply meetsWords_of_not_beyond
  rintro v ⟨y, hy, -⟩ hout
  have hne := ne_bottom_of_holds hy
  obtain ⟨htop, hside⟩ := neg_of_beyond hb hne hout
  rcases hside with hbb | hbb
  · have hval : evalBinary .sub (range (some c) u) b = top := by
      rw [(evalBinary_arithmetic _ _).2.1, sub, htop]
      cases u <;> rfl
    have haa : (range (some c) u).implies (range (some c) none) = true :=
      (implies_iff_holds ha).2 fun x hx => ⟨hx.1, above_none x⟩
    have hlarger : evalBinary .sub (range (some c) none) (atMost .zero) = range (some c) none := by
      have hzero : (atMost .zero).neg = range (some .zero) none := by decide
      have hsum : c.add? .zero = some c := Word.ofInt?_eq_some.2 (Int.add_zero c.val)
      rw [(evalBinary_arithmetic _ _).2.1, sub, hzero, add, Bound.lift₂, hsum]
      rfl
    have himp := top_implies_of_monotoneAt h hval haa hbb
    rw [hlarger] at himp
    cases himp
  · -- the opposite of a word that is not negative is a word
    obtain ⟨w, hw⟩ := exists_word hb hne
    have hpos : (0 : Int) ≤ w.val := (holds_make.1 (holds_of_implies hbb hw)).1 Word.zero rfl
    have hmax := w.le_max
    exact hout ⟨-w.val, by omega, by omega⟩ ⟨w.val, hw, rfl⟩

theorem monotoneAt_iff {op : BinaryOp} (ha : a.Ordered) (hb : b.Ordered) :
    MonotoneAt op a b ↔ FitsBinary op a b := by
  refine ⟨fun h => ?_, fun h a' b' haa hbb => evalBinary_mono ha hb haa hbb h⟩
  cases op with
  | add => exact meetsWords_add ha hb h
  | sub =>
    refine ⟨meetsWords_sub ha hb h, ?_⟩
    rintro ⟨c, u, rfl⟩
    exact meetsWords_opposites ha hb h
  | mul => exact meetsWords_mul ha hb h
  | div | rem | lt | le | gt | ge | eq | ne | and | or => trivial

/-! ## Refinement -/

/-- What refinement by a comparison needs to be monotone: a strict comparison that holds of some
integers holds of some words. -/
def FitsComparison (op : BinaryOp) (a b : Interval) : Prop :=
  match op with
  | .lt => (∃ x y, a.Holds x ∧ b.Holds y ∧ x < y) →
      ∃ x y : Word, a.Holds x.val ∧ b.Holds y.val ∧ x < y
  | .gt => (∃ x y, a.Holds x ∧ b.Holds y ∧ y < x) →
      ∃ x y : Word, a.Holds x.val ∧ b.Holds y.val ∧ y < x
  | _ => True

theorem FitsComparison.swap {op swapped : BinaryOp} (hswap : op.swap? = some swapped)
    (h : FitsComparison op a b) : FitsComparison swapped b a := by
  cases op with
  | lt =>
    cases hswap
    rintro ⟨y, x, hy, hx, hlt⟩
    obtain ⟨x, y, hx, hy, hlt⟩ := h ⟨x, y, hx, hy, hlt⟩
    exact ⟨y, x, hy, hx, hlt⟩
  | gt =>
    cases hswap
    rintro ⟨y, x, hy, hx, hlt⟩
    obtain ⟨x, y, hx, hy, hlt⟩ := h ⟨x, y, hx, hy, hlt⟩
    exact ⟨y, x, hy, hx, hlt⟩
  | le | ge | eq | ne =>
    cases hswap
    trivial
  | add | sub | mul | div | rem | and | or => cases hswap

/-- A constant that excluding it from an interval does not remove stays in every larger interval. -/
theorem holds_exclude_of_implies {c : Word} (haa : a.implies a' = true) (hc : a.Holds c.val)
    (hother : ∃ x, a.Holds x ∧ x ≠ c.val) (h : (a.exclude c).Holds c.val) :
    (a'.exclude c).Holds c.val := by
  have hc' := holds_of_implies haa hc
  cases a with
  | bottom => exact hc.elim
  | range l u =>
    cases a' with
    | bottom => exact hc'.elim
    | range l' u' =>
      have hlow : l' = some c → l = some c := by
        rintro rfl
        obtain ⟨d, hd, hcd⟩ := exists_lower_of_implies haa
        rw [hd, Word.ext (Int.le_antisymm hcd (hc.1 d hd))]
      have hup : u' = some c → u = some c := by
        rintro rfl
        obtain ⟨d, hd, hdc⟩ := exists_upper_of_implies haa
        rw [hd, Word.ext (Int.le_antisymm (hc.2 d hd) hdc)]
      rw [exclude] at h ⊢
      split
      · -- the bound that would move out of the words is dropped in both
        rename_i hl'
        rw [if_pos (hlow hl'), holds_make] at h
        rw [holds_make]
        exact ⟨h.1, hc'.2⟩
      · split
        · rename_i hu'
          have hl : l ≠ some c := by
            rintro rfl
            obtain ⟨x, hx, hne⟩ := hother
            have hlx := hx.1 c rfl
            have hxu := hx.2 c (hup hu')
            omega
          rw [if_neg hl, if_pos (hup hu'), holds_make] at h
          rw [holds_make]
          exact ⟨hc'.1, h.2⟩
        · exact holds_top _

theorem refine_ne_mono {v : Int} (hb : b.Ordered) (haa : a.implies a' = true)
    (hbb : b.implies b' = true) (hsome : ∃ x y, a.Holds x ∧ b.Holds y ∧ x ≠ y)
    (hv : (a.refine .ne b).Holds v) : (a'.refine .ne b').Holds v := by
  obtain ⟨x, y, hx, hy, hxy⟩ := hsome
  have hva := holds_of_holds_refine hv
  have hva' := holds_of_implies haa hva
  have hy' := holds_of_implies hbb hy
  cases b' with
  | bottom => exact hy'.elim
  | range l' u' =>
    refine holds_meet_iff.2 ⟨hva', ?_⟩
    dsimp only [constraint]
    split
    · rename_i c hc
      have hconst : ∀ z, b.Holds z → z = c.val := fun z hz =>
        eq_of_constant? hc (holds_of_implies hbb hz)
      by_cases hvc : v = c.val
      · obtain ⟨w, hw, hwc⟩ := constant?_of_forall_eq hb (ne_bottom_of_holds hy) hconst
        cases Word.ext hwc
        rw [hvc] at hv hva ⊢
        refine holds_exclude_of_implies haa hva ⟨x, hx, hconst y hy ▸ hxy⟩ ?_
        cases b with
        | bottom => exact hy.elim
        | range l u =>
          have hcv := (holds_meet_iff.1 hv).2
          rwa [constraint, hw] at hcv
      · exact holds_exclude hva' hvc
    · exact holds_top v

theorem refine_mono {op : BinaryOp} (hop : op.isComparison = true) (hb : b.Ordered)
    (haa : a.implies a' = true) (hbb : b.implies b' = true) (hfits : FitsComparison op a b)
    (hsome : ∃ x y, a.Holds x ∧ b.Holds y ∧ op.test x y = true) :
    (a.refine op b).implies (a'.refine op b') = true := by
  rw [implies_iff_holds (ordered_refine op a b)]
  intro v hv
  by_cases hne : op = .ne
  · subst hne
    obtain ⟨x, y, hx, hy, hxy⟩ := hsome
    exact refine_ne_mono hb haa hbb ⟨x, y, hx, hy, of_decide_eq_true hxy⟩ hv
  · cases b with
    | bottom => exact hv.elim
    | range l u =>
      have hword : (op = .lt → ∀ d ∈ u, isWord (d.val - 1)) ∧
          (op = .gt → ∀ d ∈ l, isWord (d.val + 1)) := by
        obtain ⟨x, y, hx, hy, hxy⟩ := hsome
        constructor
        · rintro rfl d hd
          obtain ⟨p, q, -, hq, hlt⟩ := hfits ⟨x, y, hx, hy, of_decide_eq_true hxy⟩
          have hle := hq.2 d hd
          rw [Word.lt_iff] at hlt
          exact isWord_of_between (p := p) (q := d) (by omega) (by omega)
        · rintro rfl d hd
          obtain ⟨p, q, -, hq, hlt⟩ := hfits ⟨x, y, hx, hy, of_decide_eq_true hxy⟩
          have hle := hq.1 d hd
          rw [Word.lt_iff] at hlt
          exact isWord_of_between (p := d) (q := p) (by omega) (by omega)
      obtain ⟨y, hy, hvy⟩ := exists_of_holds_refine hop hne hb hword.1 hword.2 hv
      exact holds_refine (holds_of_implies haa (holds_of_holds_refine hv))
        (holds_of_implies hbb hy) hvy

end Interval

end Demanded
