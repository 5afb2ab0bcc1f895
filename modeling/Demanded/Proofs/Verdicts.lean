import Demanded.Bounds.Verdict
import Demanded.Proofs.Collapse
import Demanded.Proofs.Conditions

/-!
# What verdicts say about executions

A verdict compares one bound of the index with one bound of the length, and either may be infinite.
On intervals that are not empty such a comparison is exact: it holds exactly if every integer of the
one interval compares with every integer of the other (`State.classify_eq_safe_iff`,
`State.classify_eq_outOfBounds_iff`).  The values of the index and of the length in an execution are
such integers, so a verdict speaks about executions (`State.verdicts_sound`).

One verdict does not: an access is also out of bounds if the lower bound of its index is negative
(`Interval.StartsNegative`), and then its index may still have no negative value.
-/

namespace Demanded

open Extended

/-! ## Bounds -/

namespace Interval

variable {l₁ u₁ l₂ u₂ : Bound}

/-- The interval has a lower bound, which is negative. -/
def StartsNegative : Interval → Prop
  | bottom => False
  | range l _ => ∃ lo ∈ l, lo.val < 0

instance : DecidablePred StartsNegative
  | bottom => .isFalse id
  | range l _ => inferInstanceAs (Decidable (∃ lo ∈ l, lo.val < 0))

theorem within_eq_safe {lo hi shortest : Bound} :
    classifyBounds.within lo hi shortest = .safe ↔
      (fin Word.zero).le (ofLower lo) = true ∧ (ofUpper hi).lt (ofLower shortest) = true := by
  cases lo <;> cases hi <;> cases shortest <;>
    simp [classifyBounds.within, ofLower, ofUpper, le, Extended.lt, Word.lt_iff, Word.le_iff]

theorem within_ne_outOfBounds (lo hi shortest : Bound) :
    classifyBounds.within lo hi shortest ≠ .outOfBounds := by
  unfold classifyBounds.within
  split
  · split <;> simp
  · simp

/-- Two tests come first, and they alone find an access out of bounds. -/
theorem classifyBounds_eq_outOfBounds :
    classifyBounds (l₁, u₁) (l₂, u₂) = .outOfBounds ↔
      (range l₁ u₁).StartsNegative ∨ (ofUpper u₂).le (ofLower l₁) = true := by
  cases l₁ with
  | none =>
    cases u₂ <;> simp [classifyBounds, StartsNegative, ofUpper, ofLower, le, within_ne_outOfBounds]
  | some lo =>
    cases u₂ with
    | none =>
      simp [classifyBounds, StartsNegative, ofUpper, ofLower, le, within_ne_outOfBounds,
        Word.lt_iff, Word.zero]
    | some longest =>
      by_cases hpast : longest ≤ lo <;>
        simp [classifyBounds, StartsNegative, ofUpper, ofLower, le, within_ne_outOfBounds,
          Word.lt_iff, Word.zero, hpast]

theorem classifyBounds_cases (idx length : Bound × Bound) :
    classifyBounds idx length = .outOfBounds ∨
      classifyBounds idx length = classifyBounds.within idx.1 idx.2 length.1 := by
  unfold classifyBounds
  split
  · exact .inl rfl
  · split
    · split
      · exact .inl rfl
      · exact .inr rfl
    · exact .inr rfl

/-! ## Integers -/

theorem StartsNegative.exists_holds {a : Interval} (h : a.StartsNegative) (ha : a.Ordered) :
    ∃ i, a.Holds i ∧ i < 0 := by
  cases a with
  | bottom => exact h.elim
  | range l u =>
    obtain ⟨lo, rfl, hneg⟩ := h
    exact ⟨lo.val, reached_ofLower ha, hneg⟩

/-- An index past every length, or one whose lower bound is negative. -/
theorem classifyBounds_eq_outOfBounds_iff (h₁ : (range l₁ u₁).Ordered)
    (h₂ : (range l₂ u₂).Ordered) :
    classifyBounds (l₁, u₁) (l₂, u₂) = .outOfBounds ↔
      (range l₁ u₁).StartsNegative ∨
        ∀ i n, (range l₁ u₁).Holds i → (range l₂ u₂).Holds n → n ≤ i := by
  rw [classifyBounds_eq_outOfBounds]
  refine or_congr_right ⟨fun hpast i n hi hn => ?_, fun hall => ?_⟩
  · exact le_of_bounds hpast hn.2 hi.1
  · exact le_bounds h₂ h₁ fun n i hn hi => hall i n hi hn

/-- An index within every length: the least and the greatest index and the least length tell. -/
theorem classifyBounds_eq_safe_iff (h₁ : (range l₁ u₁).Ordered) (h₂ : (range l₂ u₂).Ordered) :
    classifyBounds (l₁, u₁) (l₂, u₂) = .safe ↔
      ∀ i n, (range l₁ u₁).Holds i → (range l₂ u₂).Holds n → 0 ≤ i ∧ i < n := by
  constructor
  · intro hsafe i n hi hn
    have hwithin : classifyBounds.within l₁ u₁ l₂ = .safe := by
      rcases classifyBounds_cases (l₁, u₁) (l₂, u₂) with h | h
      · rw [h] at hsafe
        cases hsafe
      · exact h ▸ hsafe
    obtain ⟨hzero, hlt⟩ := within_eq_safe.1 hwithin
    exact ⟨le_of_bounds (u := some Word.zero) hzero (above_some.2 (Int.le_refl _)) hi.1,
      lt_of_bounds hlt hi.2 hn.1⟩
  · intro hall
    obtain ⟨i, hi⟩ := exists_holds h₁ (by simp)
    obtain ⟨n, hn⟩ := exists_holds h₂ (by simp)
    have hzero : (fin Word.zero).le (ofLower l₁) = true :=
      le_bounds (ordered_constant .zero) h₁ fun x y hx hy => by
        rw [(holds_constant (w := Word.zero)).1 hx]
        exact (hall y n hy hn).1
    have hlt := lt_bounds h₁ h₂ fun x y hx hy => (hall x y hx hy).2
    rcases classifyBounds_cases (l₁, u₁) (l₂, u₂) with h | h
    · -- one of the two tests that come first would have succeeded
      rcases (classifyBounds_eq_outOfBounds_iff h₁ h₂).1 h with hneg | hpast
      · obtain ⟨j, hj, hlt⟩ := hneg.exists_holds h₁
        have := (hall j n hj hn).1
        omega
      · have := hpast i n hi hn
        have := (hall i n hi hn).2
        omega
    · rw [h]
      exact within_eq_safe.2 ⟨hzero, hlt⟩

end Interval

/-! ## Accesses -/

namespace State

variable {pre : State} {σ : Store} {a : String} {idx : Expr}

/-- As far as a state knows, the index is within the array. -/
def IndexWithin (s : State) (a : String) (idx : Expr) : Prop :=
  ∀ i n, (s.eval idx).Holds i → (s.get (fieldKey a "length")).Holds n → 0 ≤ i ∧ i < n

/-- As far as a state knows, the index is past the end of the array. -/
def IndexPast (s : State) (a : String) (idx : Expr) : Prop :=
  ∀ i n, (s.eval idx).Holds i → (s.get (fieldKey a "length")).Holds n → n ≤ i

/-- Where execution gets to, the verdict is made from the bounds of two intervals. -/
theorem classify_var (hs : pre.Sat σ) (a : String) (idx : Expr) :
    ∃ l₁ u₁ l₂ u₂, pre.eval idx = .range l₁ u₁ ∧ pre.get (fieldKey a "length") = .range l₂ u₂ ∧
      (Interval.range l₁ u₁).Ordered ∧ (Interval.range l₂ u₂).Ordered ∧
      classify pre ⟨.var a, idx⟩ = classifyBounds (l₁, u₁) (l₂, u₂) := by
  obtain ⟨v, hv⟩ := Expr.exists_yields σ idx
  have hidx := holds_eval hs hv
  have hlength := hs (fieldKey a "length")
  cases heval : pre.eval idx with
  | bottom =>
    rw [heval] at hidx
    exact hidx.elim
  | range l₁ u₁ =>
    cases hget : pre.get (fieldKey a "length") with
    | bottom =>
      rw [hget] at hlength
      exact hlength.elim
    | range l₂ u₂ =>
      refine ⟨l₁, u₁, l₂, u₂, rfl, rfl, ?_, ?_, ?_⟩
      · exact Interval.ordered_of_holds (heval ▸ hidx)
      · exact Interval.ordered_of_holds (hget ▸ hlength)
      · simp [classify, isBottom_of_sat hs, heval, hget, Interval.bounds?]

theorem exists_var_of_classify (hs : pre.Sat σ) {access : Access}
    (h : classify pre access ≠ .unknown) : ∃ a, access.receiver = .var a := by
  unfold classify at h
  rw [isBottom_of_sat hs, if_neg Bool.false_ne_true] at h
  split at h
  · rename_i a hvar
    exact ⟨a, hvar⟩
  · exact absurd rfl h

theorem classify_eq_safe_iff (hs : pre.Sat σ) :
    classify pre ⟨.var a, idx⟩ = .safe ↔ pre.IndexWithin a idx := by
  obtain ⟨l₁, u₁, l₂, u₂, heval, hget, h₁, h₂, hclassify⟩ := classify_var hs a idx
  rw [hclassify, Interval.classifyBounds_eq_safe_iff h₁ h₂, IndexWithin, heval, hget]

theorem classify_eq_outOfBounds_iff (hs : pre.Sat σ) :
    classify pre ⟨.var a, idx⟩ = .outOfBounds ↔
      (pre.eval idx).StartsNegative ∨ pre.IndexPast a idx := by
  obtain ⟨l₁, u₁, l₂, u₂, heval, hget, h₁, h₂, hclassify⟩ := classify_var hs a idx
  rw [hclassify, Interval.classifyBounds_eq_outOfBounds_iff h₁ h₂, IndexPast, heval, hget]

/-- In every store that a state allows: an access with the verdict safe is one to the array of a
variable, and each value of its index is within the array.  If the verdict is out of bounds and the
lower bound of the index is not negative, each value of the index is past the end of the array.  And
one of these two verdicts is given wherever the intervals of the index and of the length decide. -/
theorem verdicts_sound (hs : pre.Sat σ) (access : Access) :
    (classify pre access = .safe → ∃ a, access.receiver = .var a ∧
      ∀ v, access.idx.Yields σ v → 0 ≤ v ∧ v < σ (fieldKey a "length")) ∧
    (classify pre access = .outOfBounds → ¬(pre.eval access.idx).StartsNegative →
      ∃ a, access.receiver = .var a ∧
        ∀ v, access.idx.Yields σ v → σ (fieldKey a "length") ≤ v) ∧
    ∀ a, access.receiver = .var a →
      (pre.IndexWithin a access.idx → classify pre access = .safe) ∧
      (pre.IndexPast a access.idx → classify pre access = .outOfBounds) := by
  obtain ⟨receiver, idx⟩ := access
  refine ⟨fun hsafe => ?_, fun hout hneg => ?_, ?_⟩
  · obtain ⟨a, rfl⟩ := exists_var_of_classify hs (by rw [hsafe]; decide)
    refine ⟨a, rfl, fun v hv => ?_⟩
    exact (classify_eq_safe_iff hs).1 hsafe v _ (holds_eval hs hv) (hs _)
  · obtain ⟨a, rfl⟩ := exists_var_of_classify hs (by rw [hout]; decide)
    refine ⟨a, rfl, fun v hv => ?_⟩
    have hpast := ((classify_eq_outOfBounds_iff hs).1 hout).resolve_left hneg
    exact hpast v _ (holds_eval hs hv) (hs _)
  · rintro a rfl
    refine ⟨(classify_eq_safe_iff hs).2, fun hpast => ?_⟩
    exact (classify_eq_outOfBounds_iff hs).2 (.inr hpast)

/-- The word six. -/
def six : Word := (Word.ofInt? 6).get rfl

/-- An array of at least two and at most six elements, and an index that is zero or one. -/
def twoToSix : State :=
  (top.set "a.length" (.make (some ((Word.ofInt? 2).get rfl)) (some six))).set "i"
    (.make (some .zero) (some .one))

/-- The index is within the array, and six further on it is past the end. -/
theorem verdicts_sound_twoToSix :
    classify twoToSix ⟨.var "a", .var "i"⟩ = .safe ∧
      classify twoToSix ⟨.var "a", .binary .add (.var "i") (.int six)⟩ = .outOfBounds ∧
      ∃ σ, twoToSix.Sat σ ∧ (∀ v, (Expr.var "i").Yields σ v → 0 ≤ v ∧ v < σ "a.length") ∧
        ∀ v, (Expr.binary .add (.var "i") (.int six)).Yields σ v → σ "a.length" ≤ v := by
  have hverdicts : classify twoToSix ⟨.var "a", .var "i"⟩ = .safe ∧
      classify twoToSix ⟨.var "a", .binary .add (.var "i") (.int six)⟩ = .outOfBounds ∧
      ¬(twoToSix.eval (.binary .add (.var "i") (.int six))).StartsNegative := by
    decide +kernel
  obtain ⟨hsafe, hout, hstart⟩ := hverdicts
  let σ := Store.put (fun _ => 1) "a.length" 5
  have hs : twoToSix.Sat σ := by
    refine sat_set_of_holds (sat_set_of_holds (sat_top σ) ?_) ?_ <;>
      rw [Interval.holds_make, below_some, above_some] <;> decide
  refine ⟨hsafe, hout, σ, hs, ?_, ?_⟩
  · obtain ⟨a, ha, h⟩ := (verdicts_sound hs ⟨.var "a", .var "i"⟩).1 hsafe
    cases ha
    exact h
  · obtain ⟨a, ha, h⟩ :=
      (verdicts_sound hs ⟨.var "a", .binary .add (.var "i") (.int six)⟩).2.1 hout hstart
    cases ha
    exact h

end State

end Demanded
