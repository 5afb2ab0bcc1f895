import Mathlib.Algebra.BigOperators.Group.Finset.Basic
import Mathlib.Algebra.Order.BigOperators.Group.Finset
import Mathlib.Data.Finset.Basic
import Mathlib.Data.Set.Card
import Mathlib.Order.Interval.Finset.Nat
import Demanded.Proofs.StateOrder

/-!
# Widening comes to rest

Widening only drops bounds: a bound of the accumulated interval stays or becomes infinite.  So the
number of finite bounds of a state does not grow, and it stays the same only if the state does
(`State.widen_env`).  A state into which nothing new is widened does not change
(`State.widen_eq_self`).

`State.widenings` is the sequence of states that come from widening any contributions into a first
state.  Each change of the state lowers `State.ascent`, so there are few of them
(`State.widening_ascends`).
-/

namespace Demanded

open scoped BigOperators

namespace Interval

/-- The number of finite bounds. -/
def finiteBounds : Interval → Nat
  | bottom => 0
  | range l u => l.isSome.toNat + u.isSome.toNat

@[simp]
theorem finiteBounds_top : top.finiteBounds = 0 := rfl

theorem finiteBounds_pos {a : Interval} (hbottom : a ≠ bottom) (htop : a ≠ top) :
    0 < a.finiteBounds := by
  cases a with
  | bottom => exact absurd rfl hbottom
  | range l u => cases l <;> cases u <;> simp_all [finiteBounds, top]

/-- An interval that is dropped at some bounds. -/
theorem widen_range {l u : Bound} (h : (range l u).Ordered) (b : Interval) :
    ∃ l' u', (range l u).widen b = range l' u' ∧ (l' = l ∨ l' = none) ∧ (u' = u ∨ u' = none) := by
  cases b with
  | bottom => exact ⟨l, u, rfl, .inl rfl, .inl rfl⟩
  | range l₂ u₂ =>
    rw [widen]
    generalize hl : (if (Extended.ofLower l₂).lt (Extended.ofLower l) then none else l) = l'
    generalize hu : (if (Extended.ofUpper u).lt (Extended.ofUpper u₂) then none else u) = u'
    have hl' : l' = l ∨ l' = none := by
      subst hl
      split <;> simp
    have hu' : u' = u ∨ u' = none := by
      subst hu
      split <;> simp
    refine ⟨l', u', make_of_ordered ?_, hl', hu'⟩
    intro a ha b hb
    rcases hl' with rfl | rfl
    · rcases hu' with rfl | rfl
      · exact h a ha b hb
      · cases hb
    · cases ha

theorem widen_ne_bottom {a : Interval} (ha : a.Ordered) (hne : a ≠ bottom) (b : Interval) :
    a.widen b ≠ bottom := by
  cases a with
  | bottom => exact absurd rfl hne
  | range l u =>
    obtain ⟨l', u', heq, -⟩ := widen_range ha b
    rw [heq]
    simp

theorem finiteBounds_widen_le {a : Interval} (ha : a.Ordered) (hne : a ≠ bottom) (b : Interval) :
    (a.widen b).finiteBounds ≤ a.finiteBounds := by
  cases a with
  | bottom => exact absurd rfl hne
  | range l u =>
    obtain ⟨l', u', heq, hl, hu⟩ := widen_range ha b
    rw [heq]
    rcases hl with rfl | rfl <;> rcases hu with rfl | rfl <;> simp [finiteBounds]

theorem widen_eq_of_finiteBounds {a : Interval} (ha : a.Ordered) (hne : a ≠ bottom) {b : Interval}
    (h : (a.widen b).finiteBounds = a.finiteBounds) : a.widen b = a := by
  cases a with
  | bottom => exact absurd rfl hne
  | range l u =>
    obtain ⟨l', u', heq, hl, hu⟩ := widen_range ha b
    rw [heq] at h ⊢
    cases l <;> cases u <;> rcases hl with rfl | rfl <;> rcases hu with rfl | rfl <;>
      simp_all [finiteBounds]

/-- An interval stays as it is if nothing new is widened into it. -/
theorem widen_eq_self {a b : Interval} (ha : a.Ordered) (h : b.implies a = true) :
    a.widen b = a := by
  cases b with
  | bottom => cases a <;> rfl
  | range l₂ u₂ =>
    cases a with
    | bottom => cases h
    | range l₁ u₁ =>
      rw [implies, Bool.and_eq_true] at h
      rw [widen, Extended.lt, Extended.lt, h.1, h.2]
      exact make_of_ordered ha

theorem finiteBounds_le_two (a : Interval) : a.finiteBounds ≤ 2 := by
  cases a with
  | bottom => exact Nat.zero_le _
  | range l u => exact Nat.add_le_add l.isSome.toNat_le u.isSome.toNat_le

end Interval

namespace State

/-- The number of finite bounds in all bindings. -/
def finiteBounds (m : OrdMap String Interval) : Nat :=
  ∑ key ∈ m.keys.toFinset, ((env m).get key).finiteBounds

private theorem mem_keys_of_get_ne_top {m : OrdMap String Interval} {key : String}
    (h : (env m).get key ≠ .top) : key ∈ m.keys := by
  cases hm : m.get? key with
  | none => exact absurd (get_env_of_none hm) h
  | some a =>
    rw [OrdMap.mem_keys, OrdMap.contains, hm]
    rfl

private theorem get_ne_top_of_mem_keys {m : OrdMap String Interval} (hm : (env m).Normal)
    {key : String} (h : key ∈ m.keys) : (env m).get key ≠ .top := by
  cases hget : m.get? key with
  | none =>
    rw [OrdMap.mem_keys, OrdMap.contains, hget] at h
    cases h
  | some a =>
    rw [get_env_of_some hget]
    exact (hm key a hget).ne_top

/-- Each key is bound as before, with some bounds dropped, or it is not bound any more. -/
def Relaxes (a c : OrdMap String Interval) : Prop :=
  ∀ key, (env c).get key = .top ∨ ∃ x y, a.get? key = some x ∧ (env c).get key = x.widen y

theorem exists_widen_env {a b : OrdMap String Interval} (ha : (env a).Normal) :
    ∃ c, (env a).widen (env b) = env c ∧
      ∀ key, (env c).get key = merged Interval.widen a b key :=
  combine_env fun key x y hx _ =>
    Interval.widen_ne_bottom (ha key x hx).ordered (ha key x hx).ne_bottom y

theorem exists_relaxes_widen {a b : OrdMap String Interval} (ha : (env a).Normal) :
    ∃ c, (env a).widen (env b) = env c ∧ Relaxes a c := by
  obtain ⟨c, heq, hget⟩ := exists_widen_env (b := b) ha
  refine ⟨c, heq, fun key => ?_⟩
  rw [hget]
  unfold merged
  split
  · rename_i x y hx hy
    exact .inr ⟨x, y, hx, rfl⟩
  · exact .inl rfl

section Relaxes

variable {a c : OrdMap String Interval}

theorem Relaxes.keys_subset (h : Relaxes a c) (ha : (env a).Normal) (hc : (env c).Normal) :
    c.keys.toFinset ⊆ a.keys.toFinset := by
  intro key hmem
  rw [List.mem_toFinset] at hmem ⊢
  rcases h key with htop | ⟨x, y, hx, -⟩
  · exact absurd htop (get_ne_top_of_mem_keys hc hmem)
  · refine mem_keys_of_get_ne_top ?_
    rw [get_env_of_some hx]
    exact (ha key x hx).ne_top

theorem Relaxes.finiteBounds_get_le (h : Relaxes a c) (ha : (env a).Normal) (key : String) :
    ((env c).get key).finiteBounds ≤ ((env a).get key).finiteBounds := by
  rcases h key with htop | ⟨x, y, hx, hcx⟩
  · rw [htop]
    exact Nat.zero_le _
  · rw [hcx, get_env_of_some hx]
    exact Interval.finiteBounds_widen_le (ha key x hx).ordered (ha key x hx).ne_bottom y

theorem Relaxes.get_eq_of_finiteBounds (h : Relaxes a c) (ha : (env a).Normal) {key : String}
    (hmem : key ∈ a.keys)
    (hsame : ((env c).get key).finiteBounds = ((env a).get key).finiteBounds) :
    (env c).get key = (env a).get key := by
  rcases h key with htop | ⟨x, y, hx, hcx⟩
  · have hpos := Interval.finiteBounds_pos (get_ne_bottom ha key) (get_ne_top_of_mem_keys ha hmem)
    rw [htop, Interval.finiteBounds_top] at hsame
    omega
  · rw [hcx, get_env_of_some hx] at hsame ⊢
    exact Interval.widen_eq_of_finiteBounds (ha key x hx).ordered (ha key x hx).ne_bottom hsame

/-- The bounds are counted over the keys that were bound before, which are all that still are. -/
theorem Relaxes.finiteBounds_le (h : Relaxes a c) (ha : (env a).Normal) (hc : (env c).Normal) :
    finiteBounds c ≤ finiteBounds a ∧ (finiteBounds c = finiteBounds a → c = a) := by
  have hsub := h.keys_subset ha hc
  have hle : ∀ key ∈ a.keys.toFinset,
      ((env c).get key).finiteBounds ≤ ((env a).get key).finiteBounds :=
    fun key _ => h.finiteBounds_get_le ha key
  have hsum₁ : finiteBounds c ≤ ∑ key ∈ a.keys.toFinset, ((env c).get key).finiteBounds :=
    Finset.sum_le_sum_of_subset hsub
  have hsum₂ : ∑ key ∈ a.keys.toFinset, ((env c).get key).finiteBounds ≤ finiteBounds a :=
    Finset.sum_le_sum hle
  refine ⟨hsum₁.trans hsum₂, fun hsame => ?_⟩
  rw [hsame] at hsum₁
  have hall := (Finset.sum_eq_sum_iff_of_le hle).1 (Nat.le_antisymm hsum₂ hsum₁)
  refine OrdMap.ext_get? fun key => get?_eq_of_get hc ha ?_
  by_cases hmem : key ∈ a.keys
  · exact h.get_eq_of_finiteBounds ha hmem (hall key (List.mem_toFinset.2 hmem))
  · have htop : ∀ m : OrdMap String Interval, key ∉ m.keys → (env m).get key = .top :=
      fun m hm => Classical.byContradiction fun hne => hm (mem_keys_of_get_ne_top hne)
    rw [htop a hmem, htop c fun hc => hmem (List.mem_toFinset.1 (hsub (List.mem_toFinset.2 hc)))]

end Relaxes

/-- Widening a state that is not unreachable drops bounds, and if it drops none, it changes
nothing. -/
theorem widen_env {a : OrdMap String Interval} (ha : (env a).Normal) {t : State}
    (hw : ((env a).widen t).Normal) :
    ∃ c, (env a).widen t = env c ∧ finiteBounds c ≤ finiteBounds a ∧
      (finiteBounds c = finiteBounds a → c = a) := by
  cases t with
  | bottom => exact ⟨a, rfl, Nat.le_refl _, fun _ => rfl⟩
  | env b =>
    obtain ⟨c, heq, hrelaxes⟩ := exists_relaxes_widen ha
    exact ⟨c, heq, hrelaxes.finiteBounds_le ha (heq ▸ hw)⟩

/-- A state stays as it is if nothing new is widened into it. -/
theorem widen_eq_self {s t : State} (hs : s.Normal) (ht : t.Normal) (h : t.implies s = true) :
    s.widen t = s := by
  refine implies_antisymm (normal_widen hs ht) hs ?_ (implies_widen_left hs t)
  cases s with
  | bottom => exact h
  | env a =>
    cases t with
    | bottom => exact implies_refl _
    | env b =>
      obtain ⟨c, heq, hget⟩ := exists_widen_env (b := b) hs
      rw [heq, implies_env_iff]
      intro key
      have hkey := implies_env_iff.1 h key
      rw [hget, merged]
      cases hx : a.get? key with
      | none =>
        rw [get_env_of_none hx]
        exact Interval.implies_top _
      | some x =>
        rw [get_env_of_some hx] at hkey ⊢
        cases hy : b.get? key with
        | none => exact get_env_of_none hy ▸ hkey
        | some y =>
          rw [get_env_of_some hy] at hkey
          show (x.widen y).implies x = true
          rw [Interval.widen_eq_self (hs key x hx).ordered hkey]
          exact Interval.implies_refl x

theorem widen_ne_bottom {s : State} (hs : s.Normal) (hne : s ≠ bottom) (t : State) :
    s.widen t ≠ bottom := by
  intro hbottom
  have hle := implies_widen_left hs t
  rw [hbottom] at hle
  cases s with
  | bottom => exact hne rfl
  | env a => cases hle

/-! ## Sequences of widenings -/

/-- The states that come from widening one contribution after the other into a first state. -/
def widenings (v : State) (x : Nat → State) : Nat → State
  | 0 => v
  | n + 1 => (widenings v x n).widen (x n)

theorem finiteBounds_le (m : OrdMap String Interval) : finiteBounds m ≤ 2 * m.size := by
  calc finiteBounds m ≤ m.keys.toFinset.card * 2 :=
        Finset.sum_le_card_nsmul _ _ 2 fun key _ => Interval.finiteBounds_le_two _
    _ ≤ m.keys.length * 2 := Nat.mul_le_mul_right 2 m.keys.toFinset_card_le
    _ = 2 * m.size := by rw [OrdMap.keys, List.length_map, OrdMap.size, Nat.mul_comm]

/-- What a sequence of widenings may still lose, if its first state that is not unreachable binds
`k` keys. -/
def ascent (k : Nat) : State → Nat
  | bottom => 1 + 2 * k
  | env m => finiteBounds m

/-- Each change of the state uses up some of what it may lose. -/
theorem ascent_widen_lt {k : Nat} {s t : State} (hs : s.Normal) (ht : t.Normal)
    (hfirst : s = bottom → ∀ m, t = env m → m.size ≤ k) (hne : s.widen t ≠ s) :
    ascent k (s.widen t) < ascent k s := by
  cases s with
  | bottom =>
    cases t with
    | bottom => exact absurd rfl hne
    | env m =>
      have hbounds := finiteBounds_le m
      have hsize := hfirst rfl m rfl
      show finiteBounds m < 1 + 2 * k
      omega
  | env a =>
    obtain ⟨c, heq, hle, hsame⟩ := widen_env hs (normal_widen hs ht)
    rw [heq] at hne ⊢
    exact Nat.lt_of_le_of_ne hle fun h => hne (congrArg env (hsame h))

/-- A sequence changes at most as often as a number goes down that each change lowers. -/
theorem encard_changes_le {α : Type} {f : Nat → α} (p : α → Nat)
    (h : ∀ n, f (n + 1) ≠ f n → p (f (n + 1)) < p (f n)) :
    {n | f (n + 1) ≠ f n}.encard ≤ p (f 0) := by
  have hanti : Antitone fun n => p (f n) := antitone_nat_of_succ_le fun n => by
    by_cases hn : f (n + 1) = f n
    · rw [hn]
    · exact Nat.le_of_lt (h n hn)
  have hlt : ∀ i j, f (i + 1) ≠ f i → i < j → p (f j) < p (f i) := fun i j hi hij =>
    Nat.lt_of_le_of_lt (hanti hij) (h i hi)
  have hmaps : Set.MapsTo (fun n => p (f n)) {n | f (n + 1) ≠ f n} (Finset.Icc 1 (p (f 0))) := by
    intro n hn
    rw [Finset.mem_coe, Finset.mem_Icc]
    exact ⟨Nat.zero_lt_of_lt (h n hn), hanti (Nat.zero_le n)⟩
  have hinj : Set.InjOn (fun n => p (f n)) {n | f (n + 1) ≠ f n} := by
    intro i hi j hj heq
    rcases Nat.lt_trichotomy i j with hij | hij | hij
    · exact absurd heq (Nat.ne_of_gt (hlt i j hi hij))
    · exact hij
    · exact absurd heq (Nat.ne_of_lt (hlt j i hj hij))
  refine (Set.encard_le_encard_of_injOn hmaps hinj).trans ?_
  rw [Set.encard_coe_eq_coe_finsetCard, Nat.card_Icc, Nat.add_sub_cancel]

section Widenings

variable {v : State} {x : Nat → State}

theorem normal_widenings (hv : v.Normal) (hx : ∀ n, (x n).Normal) (n : Nat) :
    (widenings v x n).Normal := by
  induction n with
  | zero => exact hv
  | succ n ih => exact normal_widen ih (hx n)

theorem widenings_ne_bottom (hv : v.Normal) (hx : ∀ n, (x n).Normal) {n i : Nat} (hni : n ≤ i)
    (hn : widenings v x n ≠ bottom) : widenings v x i ≠ bottom := by
  induction i, hni using Nat.le_induction with
  | base => exact hn
  | succ i _ ih => exact widen_ne_bottom (normal_widenings hv hx i) ih (x i)

/-- The one contribution that is widened into the unreachable state is the first other state. -/
theorem size_of_first (hv : v.Normal) (hx : ∀ n, (x n).Normal) {n : Nat}
    {m : OrdMap String Interval} (hbefore : ∀ i < n, widenings v x i = bottom)
    (hfirst : widenings v x n = env m) {i : Nat} (hi : widenings v x i = bottom)
    {m' : OrdMap String Interval} (hm' : x i = env m') : m'.size ≤ m.size := by
  have hnext : widenings v x (i + 1) = env m' := by
    rw [widenings, hi, hm']
    rfl
  have hin : i < n := by
    apply Nat.lt_of_not_le
    intro hni
    exact widenings_ne_bottom hv hx hni (by rw [hfirst]; simp) hi
  have hlast : i + 1 = n := by
    apply Nat.le_antisymm hin
    apply Nat.le_of_not_lt
    intro hlt
    rw [hbefore (i + 1) hlt] at hnext
    cases hnext
  rw [hlast, hfirst] at hnext
  cases hnext
  exact Nat.le_refl _

theorem encard_widenings_le (hv : v.Normal) (hx : ∀ n, (x n).Normal) {n : Nat}
    {m : OrdMap String Interval} (hbefore : ∀ i < n, widenings v x i = bottom)
    (hfirst : widenings v x n = env m) :
    {i | widenings v x (i + 1) ≠ widenings v x i}.encard ≤ (1 + 2 * m.size : Nat) := by
  refine (encard_changes_le (ascent m.size) fun i hi => ?_).trans ?_
  · exact ascent_widen_lt (normal_widenings hv hx i) (hx i)
      (fun hbottom m' => size_of_first hv hx hbefore hfirst hbottom) hi
  · rw [Nat.cast_le]
    cases n with
    | zero =>
      have hbounds := finiteBounds_le m
      rw [hfirst]
      show finiteBounds m ≤ _
      omega
    | succ n =>
      rw [hbefore 0 (Nat.zero_lt_succ n)]
      exact Nat.le_refl _

end Widenings

/-- Widening goes up, stays where nothing new comes in, and changes the state a bounded number of
times: once when it becomes reachable, and at most twice for each key that it then has. -/
theorem widening_ascends {v : State} {x : Nat → State} (hv : v.Normal) (hx : ∀ n, (x n).Normal) :
    (∀ n, (widenings v x n).implies (widenings v x (n + 1)) = true ∧
      (x n).implies (widenings v x (n + 1)) = true) ∧
      (∀ n, (x n).implies (widenings v x n) = true →
        widenings v x (n + 1) = widenings v x n) ∧
      (∀ n m, (∀ i < n, widenings v x i = bottom) → widenings v x n = env m →
        {i | widenings v x (i + 1) ≠ widenings v x i}.encard ≤ (1 + 2 * m.size : Nat)) ∧
      ((∀ n, widenings v x n = bottom) →
        {i | widenings v x (i + 1) ≠ widenings v x i} = ∅) := by
  have hnormal := normal_widenings hv hx
  refine ⟨fun n => ?_, fun n h => ?_, fun n m => encard_widenings_le hv hx, fun hall => ?_⟩
  · exact ⟨implies_widen_left (hnormal n) (x n), implies_widen_right _ (hx n)⟩
  · exact widen_eq_self (hnormal n) (hx n) h
  · rw [Set.eq_empty_iff_forall_notMem]
    intro i hi
    exact hi ((hall (i + 1)).trans (hall i).symm)

/-- Contributions that take away the upper bound of a variable, then the lower one. -/
def spreading : Nat → State
  | 0 => top.set "x" (.constant .zero)
  | 1 => top.set "x" (.make (some .zero) (some .one))
  | _ => top.set "x" (.atMost .one)

theorem normal_spreading (n : Nat) : (spreading n).Normal := by
  unfold spreading
  split <;> exact normal_set normal_top (Interval.ordered_make _ _) "x"

/-- From the unreachable state with one key: all three changes happen. -/
theorem widening_ascends_spreading :
    (∀ i < 3, widenings bottom spreading (i + 1) ≠ widenings bottom spreading i) ∧
      {i | widenings bottom spreading (i + 1) ≠ widenings bottom spreading i}.encard ≤
        (3 : Nat) := by
  refine ⟨by decide +kernel, ?_⟩
  refine (widening_ascends normal_bottom normal_spreading).2.2.1 1
    ((∅ : OrdMap String Interval).insert "x" (.constant .zero)) (fun i hi => ?_) (by decide +kernel)
  obtain rfl : i = 0 := Nat.lt_one_iff.1 hi
  rfl

end State

end Demanded
