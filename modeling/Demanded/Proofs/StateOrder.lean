import Demanded.Proofs.Containers
import Demanded.Proofs.IntervalOrder
import Demanded.State.Basic

/-!
# The stores of a state

A store gives each key an integer.  `State.Sat` says which stores a state allows, and the lattice of
states is known by it.

A state is normal if it binds no key to an empty, an unconstrained or a crossed interval
(`State.Normal`).  Normal states are equal if they imply each other (`implies_antisymm`), and one
implies another exactly if each of its stores is one of the other (`implies_iff_sat`).
-/

namespace Demanded

/-- An integer for each key. -/
abbrev Store := String → Int

/-- Gives a key another integer. -/
def Store.put (σ : Store) (key : String) (v : Int) : Store := fun k => if k = key then v else σ k

@[simp]
theorem Store.put_self (σ : Store) (key : String) : σ.put key (σ key) = σ := by
  funext k
  unfold put
  split
  · rename_i h
    rw [h]
  · rfl

@[simp]
theorem Store.put_put (σ : Store) (key : String) (v w : Int) :
    (σ.put key v).put key w = σ.put key w := by
  funext k
  unfold put
  split <;> rfl

theorem Store.put_of_ne (σ : Store) {key k : String} (h : k ≠ key) (v : Int) :
    σ.put key v k = σ k :=
  if_neg h

/-- An interval that a normal state may bind a key to. -/
structure Interval.Proper (a : Interval) : Prop where
  ordered : a.Ordered
  ne_bottom : a ≠ .bottom
  ne_top : a ≠ .top

theorem Interval.isBottom_iff {a : Interval} : a.isBottom = true ↔ a = .bottom := by
  cases a <;> simp [isBottom]

theorem Interval.isTop_iff {a : Interval} : a.isTop = true ↔ a = .top := by
  cases a with
  | bottom => simp [isTop, top]
  | range l u => cases l <;> cases u <;> simp [isTop, top]

namespace State

/-- The state allows the store. -/
def Sat (s : State) (σ : Store) : Prop := ∀ key, (s.get key).Holds (σ key)

/-- Every binding is to a proper interval. -/
def Normal : State → Prop
  | bottom => True
  | env m => ∀ key a, m.get? key = some a → a.Proper

/-! ## Bindings -/

theorem sat_top (σ : Store) : top.Sat σ := fun _ => Interval.holds_top _

@[simp]
theorem not_sat_bottom (σ : Store) : ¬bottom.Sat σ := fun h => h ""

theorem ne_bottom_of_sat {s : State} {σ : Store} (h : s.Sat σ) : s ≠ bottom := by
  rintro rfl
  exact not_sat_bottom σ h

@[simp]
theorem env_ne_bottom (m : OrdMap String Interval) : env m ≠ bottom := by
  intro h
  cases h

theorem normal_top : top.Normal := fun _ _ h => nomatch h

theorem normal_bottom : bottom.Normal := trivial

theorem get_env_of_some {m : OrdMap String Interval} {key : String} {a : Interval}
    (h : m.get? key = some a) : (env m).get key = a := by
  rw [get, h]
  rfl

theorem get_env_of_none {m : OrdMap String Interval} {key : String} (h : m.get? key = none) :
    (env m).get key = .top := by
  rw [get, h]
  rfl

theorem ordered_get {s : State} (h : s.Normal) (key : String) : (s.get key).Ordered := by
  cases s with
  | bottom => trivial
  | env m =>
    cases hm : m.get? key with
    | none =>
      rw [get_env_of_none hm]
      exact Interval.ordered_top
    | some a =>
      rw [get_env_of_some hm]
      exact (h key a hm).ordered

theorem get_ne_bottom {m : OrdMap String Interval} (h : (env m).Normal) (key : String) :
    (env m).get key ≠ .bottom := by
  cases hm : m.get? key with
  | none =>
    rw [get_env_of_none hm]
    simp [Interval.top]
  | some a =>
    rw [get_env_of_some hm]
    exact (h key a hm).ne_bottom

/-- Binding a key to an interval that is not empty gives a state that differs at this key only. -/
theorem set_env (m : OrdMap String Interval) (key : String) {a : Interval} (ha : a ≠ .bottom) :
    ∃ m', (env m).set key a = env m' ∧
      ∀ k, (env m').get k = if k = key then a else (env m).get k := by
  have hb : a.isBottom = false := by
    rw [← Bool.not_eq_true, Interval.isBottom_iff]
    exact ha
  by_cases ht : a.isTop = true
  · refine ⟨m.erase key, by simp [set, hb, ht], fun k => ?_⟩
    rw [get, get, OrdMap.get?_erase_eq]
    split
    · exact (Interval.isTop_iff.1 ht).symm
    · rfl
  · refine ⟨m.insert key a, by simp [set, hb, ht], fun k => ?_⟩
    rw [get, get, OrdMap.get?_insert_eq]
    split <;> rfl

theorem normal_set {s : State} (hs : s.Normal) {a : Interval} (ha : a.Ordered) (key : String) :
    (s.set key a).Normal := by
  cases s with
  | bottom => trivial
  | env m =>
    rw [set]
    split
    · trivial
    · rename_i hb
      split
      · intro k b hk
        rw [OrdMap.get?_erase_eq] at hk
        split at hk
        · cases hk
        · exact hs k b hk
      · rename_i ht
        intro k b hk
        rw [OrdMap.get?_insert_eq] at hk
        split at hk
        · cases hk
          exact ⟨ha, fun h => hb (Interval.isBottom_iff.2 h), fun h => ht (Interval.isTop_iff.2 h)⟩
        · exact hs k b hk

/-- Binding a key to an interval follows a store in which the key gets an integer from there. -/
theorem sat_set {s : State} {σ : Store} (hs : s.Sat σ) (key : String) {a : Interval} {v : Int}
    (hv : a.Holds v) : (s.set key a).Sat (σ.put key v) := by
  cases s with
  | bottom => exact absurd hs (not_sat_bottom σ)
  | env m =>
    obtain ⟨m', hset, hget⟩ := set_env m key (Interval.ne_bottom_of_holds hv)
    intro k
    rw [hset, hget, Store.put]
    by_cases hk : k = key
    · rw [if_pos hk, if_pos hk]
      exact hv
    · rw [if_neg hk, if_neg hk]
      exact hs k

theorem sat_set_of_holds {s : State} {σ : Store} (hs : s.Sat σ) {key : String} {a : Interval}
    (hv : a.Holds (σ key)) : (s.set key a).Sat σ := by
  have h := sat_set hs key hv
  rwa [Store.put_self] at h

/-! ## Merging -/

/-- The binding of a key after two maps were merged. -/
def merged (merge : Interval → Interval → Interval) (a b : OrdMap String Interval)
    (key : String) : Interval :=
  match a.get? key, b.get? key with
  | some x, some y => merge x y
  | _, _ => .top

/-- The bindings that merging sets, one after the other. -/
def mergedBindings (merge : Interval → Interval → Interval) (a b : OrdMap String Interval) :
    List (String × Interval) :=
  a.entries.filterMap fun e => (b.get? e.1).map fun v => (e.1, merge e.2 v)

theorem mem_mergedBindings {merge : Interval → Interval → Interval}
    {a b : OrdMap String Interval} {key : String} {v : Interval} :
    (key, v) ∈ mergedBindings merge a b ↔
      ∃ x y, a.get? key = some x ∧ b.get? key = some y ∧ merge x y = v := by
  simp only [mergedBindings, List.mem_filterMap, Option.map_eq_some_iff, Prod.exists,
    Prod.mk.injEq, OrdMap.mem_entries_iff]
  constructor
  · rintro ⟨k, x, hx, y, hy, rfl, rfl⟩
    exact ⟨x, y, hx, hy, rfl⟩
  · rintro ⟨x, y, hx, hy, rfl⟩
    exact ⟨key, x, hx, y, hy, rfl, rfl⟩

theorem nodup_mergedBindings (merge : Interval → Interval → Interval)
    (a b : OrdMap String Interval) : ((mergedBindings merge a b).map Prod.fst).Nodup := by
  have hsub : ((mergedBindings merge a b).map Prod.fst).Sublist a.keys := by
    rw [mergedBindings, OrdMap.keys]
    generalize a.entries = l
    induction l with
    | nil => exact List.Sublist.refl _
    | cons e rest ih =>
      rw [List.filterMap_cons]
      cases b.get? e.1 with
      | none => exact ih.cons _
      | some v => exact ih.cons_cons _
  exact hsub.nodup (OrdMap.nodup_keys a)

/-- Binding distinct keys to intervals that are not empty. -/
theorem setAll_env (bindings : List (String × Interval)) (m : OrdMap String Interval)
    (hd : (bindings.map Prod.fst).Nodup) (hne : ∀ e ∈ bindings, e.2 ≠ .bottom) :
    ∃ m', (env m).setAll bindings = env m' ∧
      (∀ e ∈ bindings, (env m').get e.1 = e.2) ∧
      ∀ k, k ∉ bindings.map Prod.fst → (env m').get k = (env m).get k := by
  induction bindings generalizing m with
  | nil => exact ⟨m, rfl, fun e he => absurd he List.not_mem_nil, fun k _ => rfl⟩
  | cons e rest ih =>
    rw [List.map_cons, List.nodup_cons] at hd
    obtain ⟨hhead, hrest⟩ := List.forall_mem_cons.1 hne
    obtain ⟨m₁, hset, hget⟩ := set_env m e.1 hhead
    obtain ⟨m₂, hall, hin, hout⟩ := ih m₁ hd.2 hrest
    refine ⟨m₂, ?_, ?_, ?_⟩
    · rw [← hall, ← hset]
      rfl
    · intro e' he'
      rcases List.mem_cons.1 he' with rfl | he'
      · rw [hout _ hd.1, hget, if_pos rfl]
      · exact hin e' he'
    · intro k hk
      rw [List.map_cons, List.mem_cons, not_or] at hk
      rw [hout k hk.2, hget, if_neg hk.1]

/-- Merging two maps binds each key to what was merged, unless a key becomes empty. -/
theorem combine_env {merge : Interval → Interval → Interval} {a b : OrdMap String Interval}
    (hne : ∀ key x y, a.get? key = some x → b.get? key = some y → merge x y ≠ .bottom) :
    ∃ m, combine merge (env a) (env b) = env m ∧
      ∀ key, (env m).get key = merged merge a b key := by
  have hbind : ∀ e ∈ mergedBindings merge a b, e.2 ≠ .bottom := by
    rintro ⟨key, v⟩ he
    obtain ⟨x, y, hx, hy, rfl⟩ := mem_mergedBindings.1 he
    exact hne key x y hx hy
  obtain ⟨m, hall, hin, hout⟩ :=
    setAll_env (mergedBindings merge a b) ∅ (nodup_mergedBindings merge a b) hbind
  refine ⟨m, hall, fun key => ?_⟩
  unfold merged
  split
  · rename_i x y hx hy
    exact hin (key, merge x y) (mem_mergedBindings.2 ⟨x, y, hx, hy, rfl⟩)
  · rename_i hnone
    refine hout key fun hmem => ?_
    obtain ⟨⟨k, v⟩, he, rfl⟩ := List.mem_map.1 hmem
    obtain ⟨x, y, hx, hy, -⟩ := mem_mergedBindings.1 he
    exact hnone x y hx hy

/-- Joining two states joins the intervals of each key. -/
theorem join_env {a : OrdMap String Interval} (ha : (env a).Normal) (b : OrdMap String Interval) :
    ∃ m, combine Interval.join (env a) (env b) = env m ∧
      ∀ key, (env m).get key = merged Interval.join a b key :=
  combine_env fun key x y hx _ =>
    Interval.join_ne_bottom (ha key x hx).ordered (ha key x hx).ne_bottom y

theorem normal_setAll {s : State} (hs : s.Normal) {bindings : List (String × Interval)}
    (h : ∀ e ∈ bindings, e.2.Ordered) : (s.setAll bindings).Normal := by
  induction bindings generalizing s with
  | nil => exact hs
  | cons e rest ih =>
    obtain ⟨hhead, hrest⟩ := List.forall_mem_cons.1 h
    exact ih (normal_set hs hhead e.1) hrest

theorem normal_combine {merge : Interval → Interval → Interval}
    (hmerge : ∀ x y : Interval, x.Ordered → y.Ordered → (merge x y).Ordered) {s t : State}
    (hs : s.Normal) (ht : t.Normal) : (combine merge s t).Normal := by
  cases s with
  | bottom => exact ht
  | env a =>
    cases t with
    | bottom => exact hs
    | env b =>
      refine normal_setAll normal_top ?_
      rintro ⟨key, v⟩ he
      obtain ⟨x, y, hx, hy, rfl⟩ := mem_mergedBindings.1 he
      exact hmerge x y (hs key x hx).ordered (ht key y hy).ordered

/-- Merging by an operation that lets both sides pass lets the stores of both states pass. -/
theorem sat_combine {merge : Interval → Interval → Interval}
    (hmerge : ∀ (x y : Interval) (v : Int), x.Holds v ∨ y.Holds v → (merge x y).Holds v)
    {s t : State} {σ : Store} (h : s.Sat σ ∨ t.Sat σ) : (combine merge s t).Sat σ := by
  cases s with
  | bottom => exact h.resolve_left (not_sat_bottom σ)
  | env a =>
    cases t with
    | bottom => exact h.resolve_right (not_sat_bottom σ)
    | env b =>
      have hholds : ∀ key x y, a.get? key = some x → b.get? key = some y →
          (merge x y).Holds (σ key) := by
        intro key x y hx hy
        refine hmerge x y _ (h.imp (fun hs => ?_) fun ht => ?_)
        · exact get_env_of_some hx ▸ hs key
        · exact get_env_of_some hy ▸ ht key
      obtain ⟨m, heq, hget⟩ := combine_env fun key x y hx hy =>
        Interval.ne_bottom_of_holds (hholds key x y hx hy)
      intro key
      rw [heq, hget]
      unfold merged
      split
      · rename_i x y hx hy
        exact hholds key x y hx hy
      · exact Interval.holds_top _

theorem sat_join {s t : State} {σ : Store} (h : s.Sat σ ∨ t.Sat σ) : (s.join t).Sat σ :=
  sat_combine (fun _ _ _ => Interval.holds_join) h

theorem sat_widen {s t : State} {σ : Store} (h : s.Sat σ ∨ t.Sat σ) : (s.widen t).Sat σ :=
  sat_combine (fun _ _ _ => Interval.holds_widen) h

theorem normal_join {s t : State} (hs : s.Normal) (ht : t.Normal) : (s.join t).Normal :=
  normal_combine (fun _ _ => Interval.ordered_join) hs ht

theorem normal_widen {s t : State} (hs : s.Normal) (ht : t.Normal) : (s.widen t).Normal :=
  normal_combine (fun _ _ => Interval.ordered_widen) hs ht

/-! ## The order -/

theorem implies_env_iff {a b : OrdMap String Interval} :
    (env a).implies (env b) = true ↔
      ∀ key, ((env a).get key).implies ((env b).get key) = true := by
  rw [implies, List.all_eq_true]
  constructor
  · intro h key
    cases hb : b.get? key with
    | none =>
      rw [get_env_of_none hb]
      exact Interval.implies_top _
    | some y =>
      rw [get_env_of_some hb]
      exact h (key, y) (OrdMap.mem_entries_iff.2 hb)
  · rintro h ⟨key, y⟩ hmem
    have hb := OrdMap.mem_entries_iff.1 hmem
    exact get_env_of_some hb ▸ h key

theorem implies_refl (s : State) : s.implies s = true := by
  cases s with
  | bottom => rfl
  | env m => exact implies_env_iff.2 fun key => Interval.implies_refl _

theorem sat_of_implies {s t : State} (h : s.implies t = true) {σ : Store} (hs : s.Sat σ) :
    t.Sat σ := by
  cases s with
  | bottom => exact absurd hs (not_sat_bottom σ)
  | env a =>
    cases t with
    | bottom => simp [implies] at h
    | env b => exact fun key => Interval.holds_of_implies (implies_env_iff.1 h key) (hs key)

/-- A normal state allows a store, and one with any integer that its interval holds at a key. -/
theorem exists_sat {m : OrdMap String Interval} (h : (env m).Normal) {key : String} {v : Int}
    (hv : ((env m).get key).Holds v) : ∃ σ, (env m).Sat σ ∧ σ key = v := by
  have hsome : ∀ k, ∃ w, ((env m).get k).Holds w := fun k =>
    Interval.exists_holds (ordered_get h k) (get_ne_bottom h k)
  obtain ⟨w, hw⟩ := Classical.skolem.1 hsome
  refine ⟨Store.put w key v, fun k => ?_, if_pos rfl⟩
  rw [Store.put]
  split
  · rename_i hk
    rw [hk]
    exact hv
  · exact hw k

/-- A normal state that is not unreachable allows a store. -/
theorem exists_sat_of_ne_bottom {s : State} (hs : s.Normal) (hne : s ≠ bottom) : ∃ σ, s.Sat σ := by
  cases s with
  | bottom => exact absurd rfl hne
  | env m =>
    obtain ⟨v, hv⟩ := Interval.exists_holds (ordered_get hs "") (get_ne_bottom hs "")
    obtain ⟨σ, hσ, -⟩ := exists_sat hs hv
    exact ⟨σ, hσ⟩

/-- A normal state implies another exactly if the other allows each of its stores. -/
theorem implies_iff_sat {s t : State} (hs : s.Normal) :
    s.implies t = true ↔ ∀ σ, s.Sat σ → t.Sat σ := by
  refine ⟨fun h σ => sat_of_implies h, fun h => ?_⟩
  cases s with
  | bottom => rfl
  | env a =>
    cases t with
    | bottom =>
      obtain ⟨σ, hσ⟩ := exists_sat_of_ne_bottom hs (env_ne_bottom a)
      exact absurd (h σ hσ) (not_sat_bottom σ)
    | env b =>
      refine implies_env_iff.2 fun key => (Interval.implies_iff_holds (ordered_get hs key)).2 ?_
      intro v hv
      obtain ⟨σ, hσ, rfl⟩ := exists_sat hs hv
      exact h σ hσ key

theorem implies_trans {s t r : State} (hs : s.Normal) (h : s.implies t = true)
    (h' : t.implies r = true) : s.implies r = true :=
  (implies_iff_sat hs).2 fun _ hσ => sat_of_implies h' (sat_of_implies h hσ)

theorem implies_join_left {s : State} (hs : s.Normal) (t : State) :
    s.implies (s.join t) = true :=
  (implies_iff_sat hs).2 fun _ hσ => sat_join (.inl hσ)

theorem implies_join_right (s : State) {t : State} (ht : t.Normal) :
    t.implies (s.join t) = true :=
  (implies_iff_sat ht).2 fun _ hσ => sat_join (.inr hσ)

theorem implies_widen_left {s : State} (hs : s.Normal) (t : State) :
    s.implies (s.widen t) = true :=
  (implies_iff_sat hs).2 fun _ hσ => sat_widen (.inl hσ)

theorem implies_widen_right (s : State) {t : State} (ht : t.Normal) :
    t.implies (s.widen t) = true :=
  (implies_iff_sat ht).2 fun _ hσ => sat_widen (.inr hσ)

/-- Normal states with the same interval at a key have the same binding there. -/
theorem get?_eq_of_get {a b : OrdMap String Interval} (ha : (env a).Normal)
    (hb : (env b).Normal) {key : String} (h : (env a).get key = (env b).get key) :
    a.get? key = b.get? key := by
  cases hx : a.get? key with
  | none =>
    cases hy : b.get? key with
    | none => rfl
    | some y =>
      rw [get_env_of_none hx, get_env_of_some hy] at h
      exact absurd h.symm (hb key y hy).ne_top
  | some x =>
    cases hy : b.get? key with
    | none =>
      rw [get_env_of_some hx, get_env_of_none hy] at h
      exact absurd h (ha key x hx).ne_top
    | some y =>
      rw [get_env_of_some hx, get_env_of_some hy] at h
      rw [h]

/-- Normal states that imply each other are equal. -/
theorem implies_antisymm {s t : State} (hs : s.Normal) (ht : t.Normal)
    (h : s.implies t = true) (h' : t.implies s = true) : s = t := by
  cases s with
  | bottom =>
    cases t with
    | bottom => rfl
    | env b => simp [implies] at h'
  | env a =>
    cases t with
    | bottom => simp [implies] at h
    | env b =>
      refine congrArg env (OrdMap.ext_get? fun key => get?_eq_of_get hs ht ?_)
      exact Interval.implies_antisymm (implies_env_iff.1 h key) (implies_env_iff.1 h' key)

theorem implies_top (s : State) : s.implies top = true := by
  cases s <;> rfl

theorem eq_top_of_implies {s : State} (hs : s.Normal) (h : top.implies s = true) : s = top :=
  implies_antisymm hs normal_top (implies_top s) h

/-- Only the unconstrained state allows every store. -/
theorem eq_top_of_forall_sat {s : State} (hs : s.Normal) (h : ∀ σ, s.Sat σ) : s = top :=
  eq_top_of_implies hs ((implies_iff_sat normal_top).2 fun σ _ => h σ)

/-! ## Joins of many states -/

theorem join_implies {s t r : State} (hs : s.Normal) (h : s.implies r = true)
    (h' : t.implies r = true) : (s.join t).implies r = true := by
  cases s with
  | bottom => exact h'
  | env a =>
    cases t with
    | bottom => exact h
    | env b =>
      cases r with
      | bottom => simp [implies] at h
      | env c =>
        obtain ⟨m, heq, hget⟩ := join_env hs b
        rw [join, heq, implies_env_iff]
        intro key
        have ha := implies_env_iff.1 h key
        have hb := implies_env_iff.1 h' key
        rw [hget, merged]
        -- a key that one of the states does not bind has no bounds in `r` either
        cases hx : a.get? key with
        | none => exact get_env_of_none hx ▸ ha
        | some x =>
          cases hy : b.get? key with
          | none => exact get_env_of_none hy ▸ hb
          | some y =>
            rw [get_env_of_some hx] at ha
            rw [get_env_of_some hy] at hb
            exact Interval.join_implies ha hb

/-- The join of two states is the least one around both. -/
theorem join_implies_iff {s t r : State} (hs : s.Normal) (ht : t.Normal) :
    (s.join t).implies r = true ↔ s.implies r = true ∧ t.implies r = true :=
  ⟨fun h => ⟨implies_trans hs (implies_join_left hs t) h,
    implies_trans ht (implies_join_right s ht) h⟩, fun h => join_implies hs h.1 h.2⟩

theorem normal_foldl_join {states : List State} (h : ∀ s ∈ states, s.Normal) {acc : State}
    (hacc : acc.Normal) : (states.foldl join acc).Normal := by
  induction states generalizing acc with
  | nil => exact hacc
  | cons s rest ih =>
    obtain ⟨hs, hrest⟩ := List.forall_mem_cons.1 h
    exact ih hrest (normal_join hacc hs)

theorem foldl_join_implies_iff {states : List State} (h : ∀ s ∈ states, s.Normal) {acc r : State}
    (hacc : acc.Normal) :
    (states.foldl join acc).implies r = true ↔
      acc.implies r = true ∧ ∀ s ∈ states, s.implies r = true := by
  induction states generalizing acc with
  | nil => simp
  | cons s rest ih =>
    obtain ⟨hs, hrest⟩ := List.forall_mem_cons.1 h
    rw [List.foldl_cons, ih hrest (normal_join hacc hs), join_implies_iff hacc hs, and_assoc,
      List.forall_mem_cons]

/-- The least state around all states of a list. -/
def joinAll (states : List State) : State := states.foldl join bottom

theorem normal_joinAll {states : List State} (h : ∀ s ∈ states, s.Normal) :
    (joinAll states).Normal :=
  normal_foldl_join h normal_bottom

theorem joinAll_implies_iff {states : List State} (h : ∀ s ∈ states, s.Normal) {r : State} :
    (joinAll states).implies r = true ↔ ∀ s ∈ states, s.implies r = true :=
  (foldl_join_implies_iff h normal_bottom).trans (and_iff_right rfl)

/-- A join depends only on which states are joined. -/
theorem joinAll_congr {states states' : List State} (h : ∀ s ∈ states, s.Normal)
    (hmem : ∀ s, s ∈ states ↔ s ∈ states') : joinAll states = joinAll states' := by
  have h' : ∀ s ∈ states', s.Normal := fun s hs => h s ((hmem s).2 hs)
  refine implies_antisymm (normal_joinAll h) (normal_joinAll h') ?_ ?_
  · rw [joinAll_implies_iff h]
    exact fun s hs => (joinAll_implies_iff h').1 (implies_refl _) s ((hmem s).1 hs)
  · rw [joinAll_implies_iff h']
    exact fun s hs => (joinAll_implies_iff h).1 (implies_refl _) s ((hmem s).2 hs)

end State

end Demanded
