import Demanded.Interval.Eval

/-!
# The integers of an interval

`Interval.Holds` says which integers lie in an interval.  The operations of the lattice are known
by it: `holds_make`, `holds_meet_iff`, `holds_join` and `holds_widen`.  The order compares the
integers that lie in two intervals, provided the bounds of the first are not crossed
(`implies_iff_holds`).
-/

namespace Demanded

/-! ## Words and bounds -/

@[simp]
theorem Word.val_min (a b : Word) : (min a b).val = min a.val b.val := by
  show (if a.val ≤ b.val then a else b).val = _
  split <;> omega

@[simp]
theorem Word.val_max (a b : Word) : (max a b).val = max a.val b.val := by
  show (if a.val ≤ b.val then b else a).val = _
  split <;> omega

/-- The bound, as a lower one, lets `v` pass. -/
def Bound.Below (l : Bound) (v : Int) : Prop := ∀ w ∈ l, w.val ≤ v

/-- The bound, as an upper one, lets `v` pass. -/
def Bound.Above (u : Bound) (v : Int) : Prop := ∀ w ∈ u, v ≤ w.val

@[simp]
theorem below_none (v : Int) : Bound.Below none v := fun _ h => nomatch h

@[simp]
theorem above_none (v : Int) : Bound.Above none v := fun _ h => nomatch h

@[simp]
theorem below_some {w : Word} {v : Int} : Bound.Below (some w) v ↔ w.val ≤ v := by
  simp [Bound.Below]

@[simp]
theorem above_some {w : Word} {v : Int} : Bound.Above (some w) v ↔ v ≤ w.val := by
  simp [Bound.Above]

theorem below_maxLower {l₁ l₂ : Bound} {v : Int} :
    (maxLower l₁ l₂).Below v ↔ l₁.Below v ∧ l₂.Below v := by
  cases l₁ with
  | none => simp [maxLower]
  | some a =>
    cases l₂ with
    | none => simp [maxLower]
    | some b =>
      simp only [maxLower, below_some, Word.val_max]
      omega

theorem above_minUpper {u₁ u₂ : Bound} {v : Int} :
    (minUpper u₁ u₂).Above v ↔ u₁.Above v ∧ u₂.Above v := by
  cases u₁ with
  | none => simp [minUpper]
  | some a =>
    cases u₂ with
    | none => simp [minUpper]
    | some b =>
      simp only [minUpper, above_some, Word.val_min]
      omega

theorem below_minLower {l₁ l₂ : Bound} {v : Int} (h : l₁.Below v ∨ l₂.Below v) :
    (minLower l₁ l₂).Below v := by
  cases l₁ <;> cases l₂ <;> simp [minLower] at h ⊢
  omega

theorem above_maxUpper {u₁ u₂ : Bound} {v : Int} (h : u₁.Above v ∨ u₂.Above v) :
    (maxUpper u₁ u₂).Above v := by
  cases u₁ <;> cases u₂ <;> simp [maxUpper] at h ⊢
  omega

/-- A lower bound that is at most another lets everything pass that the other does. -/
theorem below_of_le {l₁ l₂ : Bound} (h : (Extended.ofLower l₂).le (Extended.ofLower l₁) = true)
    {v : Int} (hv : l₁.Below v) : l₂.Below v := by
  cases l₁ <;> cases l₂ <;> simp [Extended.ofLower, Extended.le, Word.le_iff] at h hv ⊢
  omega

theorem above_of_le {u₁ u₂ : Bound} (h : (Extended.ofUpper u₁).le (Extended.ofUpper u₂) = true)
    {v : Int} (hv : u₁.Above v) : u₂.Above v := by
  cases u₁ <;> cases u₂ <;> simp [Extended.ofUpper, Extended.le, Word.le_iff] at h hv ⊢
  omega

/-- What is at most two lower bounds is at most the looser of them. -/
theorem le_minLower {l l₁ l₂ : Bound} (h₁ : (Extended.ofLower l).le (Extended.ofLower l₁) = true)
    (h₂ : (Extended.ofLower l).le (Extended.ofLower l₂) = true) :
    (Extended.ofLower l).le (Extended.ofLower (minLower l₁ l₂)) = true := by
  cases l <;> cases l₁ <;> cases l₂ <;>
    simp [minLower, Extended.ofLower, Extended.le, Word.le_iff] at h₁ h₂ ⊢
  omega

theorem maxUpper_le {u u₁ u₂ : Bound} (h₁ : (Extended.ofUpper u₁).le (Extended.ofUpper u) = true)
    (h₂ : (Extended.ofUpper u₂).le (Extended.ofUpper u) = true) :
    (Extended.ofUpper (maxUpper u₁ u₂)).le (Extended.ofUpper u) = true := by
  cases u <;> cases u₁ <;> cases u₂ <;>
    simp [maxUpper, Extended.ofUpper, Extended.le, Word.le_iff] at h₁ h₂ ⊢
  omega

namespace Interval

/-- An integer lies between the bounds. -/
def Holds : Interval → Int → Prop
  | bottom, _ => False
  | range l u, v => l.Below v ∧ u.Above v

/-- The bounds are not crossed. -/
def Ordered : Interval → Prop
  | bottom => True
  | range l u => ∀ a ∈ l, ∀ b ∈ u, a.val ≤ b.val

/-! ## Construction -/

@[simp]
theorem holds_top (v : Int) : top.Holds v := by simp [top, Holds]

@[simp]
theorem not_holds_bottom (v : Int) : ¬bottom.Holds v := id

theorem holds_make {l u : Bound} {v : Int} : (make l u).Holds v ↔ l.Below v ∧ u.Above v := by
  unfold make
  split
  · split
    · rename_i hlt
      rw [Word.lt_iff] at hlt
      simp only [Holds, below_some, above_some, false_iff, not_and]
      omega
    · rfl
  · rfl

theorem ordered_make (l u : Bound) : (make l u).Ordered := by
  unfold make
  split
  · split
    · trivial
    · rename_i hlt
      rw [Word.lt_iff] at hlt
      simp only [Ordered, Option.mem_some_iff, forall_eq']
      omega
  · rename_i h
    intro a ha b hb
    exact absurd hb (h a b ha)

theorem make_of_ordered {l u : Bound} (h : (range l u).Ordered) : make l u = range l u := by
  unfold make
  split
  · rename_i a b
    refine if_neg fun hlt => ?_
    have hle := h a rfl b rfl
    rw [Word.lt_iff] at hlt
    omega
  · rfl

@[simp]
theorem ordered_top : top.Ordered := by simp [top, Ordered]

@[simp]
theorem holds_constant {w : Word} {v : Int} : (constant w).Holds v ↔ v = w.val := by
  rw [constant, holds_make, below_some, above_some]
  omega

/-- Bounds that are not crossed leave room for a word. -/
theorem exists_word {a : Interval} (h : a.Ordered) (hne : a ≠ bottom) :
    ∃ w : Word, a.Holds w.val := by
  cases a with
  | bottom => exact absurd rfl hne
  | range l u =>
    cases l with
    | some a => exact ⟨a, by simp, fun w hw => h a rfl w hw⟩
    | none =>
      cases u with
      | some b => exact ⟨b, by simp [Holds]⟩
      | none => exact ⟨Word.zero, by simp [Holds]⟩

theorem exists_holds {a : Interval} (h : a.Ordered) (hne : a ≠ bottom) : ∃ v, a.Holds v := by
  obtain ⟨w, hw⟩ := exists_word h hne
  exact ⟨w.val, hw⟩

theorem ne_bottom_of_holds {a : Interval} {v : Int} (h : a.Holds v) : a ≠ bottom := by
  rintro rfl
  exact h

/-- Bounds with an integer between them are not crossed. -/
theorem ordered_of_holds {a : Interval} {v : Int} (h : a.Holds v) : a.Ordered := by
  cases a with
  | bottom => trivial
  | range l u => exact fun c hc d hd => Int.le_trans (h.1 c hc) (h.2 d hd)

theorem contains_iff_holds {a : Interval} {w : Word} : a.contains w = true ↔ a.Holds w.val := by
  cases a with
  | bottom => simp [contains]
  | range l u => cases l <;> cases u <;> simp [contains, Holds, Word.le_iff]

theorem contains_zero_eq_false {a : Interval} (h : ¬a.Holds 0) : a.contains Word.zero = false := by
  rw [← Bool.not_eq_true, contains_iff_holds]
  exact h

/-! ## The lattice -/

theorem holds_meet_iff {a b : Interval} {v : Int} :
    (a.meet b).Holds v ↔ a.Holds v ∧ b.Holds v := by
  cases a with
  | bottom => simp [meet]
  | range l₁ u₁ =>
    cases b with
    | bottom => simp [meet]
    | range l₂ u₂ =>
      rw [meet, holds_make, below_maxLower, above_minUpper]
      exact and_and_and_comm

theorem holds_join {a b : Interval} {v : Int} (h : a.Holds v ∨ b.Holds v) :
    (a.join b).Holds v := by
  cases a with
  | bottom => simpa [join] using h
  | range l₁ u₁ =>
    cases b with
    | bottom => simpa [join] using h
    | range l₂ u₂ =>
      rw [join, holds_make]
      exact ⟨below_minLower (h.imp And.left And.left), above_maxUpper (h.imp And.right And.right)⟩

/-- Widening drops a bound that the newer interval passes, so it lets both pass. -/
theorem holds_widen {a b : Interval} {v : Int} (h : a.Holds v ∨ b.Holds v) :
    (a.widen b).Holds v := by
  cases a with
  | bottom => simpa [widen] using h
  | range l₁ u₁ =>
    cases b with
    | bottom => simpa [widen] using h
    | range l₂ u₂ =>
      rw [widen, holds_make]
      refine ⟨?_, ?_⟩
      · split
        · exact below_none v
        · rename_i hlt
          rcases h with h | h
          · exact h.1
          · exact below_of_le (by simpa [Extended.lt] using hlt) h.1
      · split
        · exact above_none v
        · rename_i hlt
          rcases h with h | h
          · exact h.2
          · exact above_of_le (by simpa [Extended.lt] using hlt) h.2

theorem ordered_meet (a b : Interval) : (a.meet b).Ordered := by
  unfold meet
  split
  · exact ordered_make _ _
  · trivial

theorem ordered_join {a b : Interval} (ha : a.Ordered) (hb : b.Ordered) : (a.join b).Ordered := by
  unfold join
  split
  · exact hb
  · exact ha
  · exact ordered_make _ _

theorem ordered_widen {a b : Interval} (ha : a.Ordered) (hb : b.Ordered) :
    (a.widen b).Ordered := by
  unfold widen
  split
  · exact hb
  · exact ha
  · exact ordered_make _ _

/-! ## The order -/

theorem holds_of_implies {a b : Interval} (h : a.implies b = true) {v : Int} (hv : a.Holds v) :
    b.Holds v := by
  cases a with
  | bottom => exact absurd hv (not_holds_bottom v)
  | range l₁ u₁ =>
    cases b with
    | bottom => simp [implies] at h
    | range l₂ u₂ =>
      rw [implies, Bool.and_eq_true] at h
      exact ⟨below_of_le h.1 hv.1, above_of_le h.2 hv.2⟩

@[simp]
theorem implies_top (a : Interval) : a.implies top = true := by
  cases a with
  | bottom => rfl
  | range l u => cases l <;> cases u <;> rfl

theorem implies_refl (a : Interval) : a.implies a = true := by
  cases a with
  | bottom => rfl
  | range l u =>
    cases l <;> cases u <;>
      simp [implies, Extended.ofLower, Extended.ofUpper, Extended.le, Word.le_iff]

/-- Of intervals with bounds that are not crossed, the order compares the integers that lie in
them. -/
theorem implies_iff_holds {a b : Interval} (ha : a.Ordered) :
    a.implies b = true ↔ ∀ v, a.Holds v → b.Holds v := by
  refine ⟨fun h v hv => holds_of_implies h hv, fun h => ?_⟩
  cases a with
  | bottom => rfl
  | range l₁ u₁ =>
    obtain ⟨v, hv⟩ := exists_holds ha (by simp)
    cases b with
    | bottom => exact absurd (h v hv) (not_holds_bottom v)
    | range l₂ u₂ =>
      rw [implies, Bool.and_eq_true]
      constructor
      · cases l₂ with
        | none => rfl
        | some b =>
          cases l₁ with
          | none =>
            -- with no lower bound, an integer below both `b` and `v` lies in the first interval
            have hlow := h (min v (b.val - 1))
              ⟨below_none _, fun w hw => Int.le_trans (Int.min_le_left _ _) (hv.2 w hw)⟩
            have := hlow.1 b rfl
            omega
          | some a =>
            have hlow := h a.val ⟨below_some.2 (Int.le_refl _), fun w hw => ha a rfl w hw⟩
            exact decide_eq_true (hlow.1 b rfl)
      · cases u₂ with
        | none => cases u₁ <;> rfl
        | some b =>
          cases u₁ with
          | none =>
            have hhigh := h (max v (b.val + 1))
              ⟨fun w hw => Int.le_trans (hv.1 w hw) (Int.le_max_left _ _), above_none _⟩
            have := hhigh.2 b rfl
            omega
          | some a =>
            have hhigh := h a.val ⟨fun w hw => ha w hw a rfl, above_some.2 (Int.le_refl _)⟩
            exact decide_eq_true (hhigh.2 b rfl)

theorem implies_antisymm {a b : Interval} (h : a.implies b = true) (h' : b.implies a = true) :
    a = b := by
  cases a with
  | bottom =>
    cases b with
    | bottom => rfl
    | range l u => simp [implies] at h'
  | range l₁ u₁ =>
    cases b with
    | bottom => simp [implies] at h
    | range l₂ u₂ =>
      rw [implies, Bool.and_eq_true] at h h'
      have hl : l₁ = l₂ := by
        cases l₁ <;> cases l₂ <;>
          simp [Extended.ofLower, Extended.le, Word.le_iff, Word.ext_iff] at h h' ⊢
        omega
      have hu : u₁ = u₂ := by
        cases u₁ <;> cases u₂ <;>
          simp [Extended.ofUpper, Extended.le, Word.le_iff, Word.ext_iff] at h h' ⊢
        omega
      rw [hl, hu]

/-- Intervals with bounds that are not crossed are equal if the same integers lie in them. -/
theorem eq_of_holds_iff {a b : Interval} (ha : a.Ordered) (hb : b.Ordered)
    (h : ∀ v, a.Holds v ↔ b.Holds v) : a = b :=
  implies_antisymm ((implies_iff_holds ha).2 fun v => (h v).1)
    ((implies_iff_holds hb).2 fun v => (h v).2)

theorem meet_eq_left {a b : Interval} (ha : a.Ordered) (h : ∀ v, a.Holds v → b.Holds v) :
    a.meet b = a := by
  refine eq_of_holds_iff (ordered_meet a b) ha fun v => ?_
  rw [holds_meet_iff]
  exact and_iff_left_of_imp (h v)

theorem make_implies {l u : Bound} {c : Interval} (h : (range l u).implies c = true) :
    (make l u).implies c = true := by
  unfold make
  split
  · split
    · rfl
    · exact h
  · exact h

/-- The join of two intervals is the least one around both. -/
theorem join_implies {a b c : Interval} (ha : a.implies c = true) (hb : b.implies c = true) :
    (a.join b).implies c = true := by
  cases a with
  | bottom => exact hb
  | range l₁ u₁ =>
    cases b with
    | bottom => exact ha
    | range l₂ u₂ =>
      cases c with
      | bottom => simp [implies] at ha
      | range l u =>
        rw [implies, Bool.and_eq_true] at ha hb
        refine make_implies ?_
        rw [implies, Bool.and_eq_true]
        exact ⟨le_minLower ha.1 hb.1, maxUpper_le ha.2 hb.2⟩

theorem join_ne_bottom {a : Interval} (ha : a.Ordered) (hne : a ≠ bottom) (b : Interval) :
    a.join b ≠ bottom := by
  obtain ⟨v, hv⟩ := exists_holds ha hne
  exact ne_bottom_of_holds (holds_join (.inl hv))

end Interval

end Demanded
