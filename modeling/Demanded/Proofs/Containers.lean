import Mathlib.Data.List.Forall2
import Demanded.OrdMap

/-!
# Look-ups and members

What the later proofs need to know about maps and sets in key order, about lists whose members are
related one by one, and about results.

* Lists.  A member of one list has its partner in the other.
* Maps.  `get?_insert_eq`, `get?_erase_eq` and the two lemmas about `ofList` say what a look-up
  finds after an operation.
* Sets.  A set is known by its members: one lemma for each operation says which they are, and
  `OrdSet.ext_mem` says that sets with the same members are equal.
-/

namespace Demanded

universe u v

/-! ## Lists and results -/

section Lists

variable {α : Type u} {β : Type v} {R : α → β → Prop} {as : List α} {bs : List β}

theorem exists_mem_of_forall₂ (h : List.Forall₂ R as bs) {b : β} (hb : b ∈ bs) :
    ∃ a ∈ as, R a b := by
  induction h with
  | nil => exact absurd hb List.not_mem_nil
  | cons hfirst _ ih =>
    rcases List.mem_cons.1 hb with rfl | hb
    · exact ⟨_, List.mem_cons_self, hfirst⟩
    · obtain ⟨a, ha, hab⟩ := ih hb
      exact ⟨a, List.mem_cons_of_mem _ ha, hab⟩

theorem exists_mem_congr_of_forall₂ {P : α → Prop} {Q : β → Prop} (h : List.Forall₂ R as bs)
    (hcongr : ∀ a b, R a b → (P a ↔ Q b)) : (∃ a ∈ as, P a) ↔ ∃ b ∈ bs, Q b := by
  induction h with
  | nil => simp
  | cons hfirst _ ih => simp [hcongr _ _ hfirst, ih]

end Lists

theorem eq_ok_of_toOption {ε : Type u} {α : Type v} {x : Except ε α} {a : α}
    (h : x.toOption = some a) : x = .ok a := by
  cases x with
  | error e => cases h
  | ok a' => exact congrArg Except.ok (Option.some.inj h)

/-! ## Maps -/

namespace OrdMap

variable {κ : Type u} {ν : Type v} [Ord κ]

theorem get?_erase_eq [Std.LawfulEqOrd κ] [DecidableEq κ] (m : OrdMap κ ν) (k k' : κ) :
    (m.erase k).get? k' = if k' = k then none else m.get? k' := by
  by_cases h : k' = k
  · subst h
    rw [if_pos rfl, get?_erase_self]
  · rw [if_neg h, get?_erase_of_ne _ h]

variable [Std.TransOrd κ] [Std.LawfulEqOrd κ]

theorem get?_insert_eq [DecidableEq κ] (m : OrdMap κ ν) (k k' : κ) (v : ν) :
    (m.insert k v).get? k' = if k' = k then some v else m.get? k' := by
  by_cases h : k' = k
  · subst h
    rw [if_pos rfl, get?_insert_self]
  · rw [if_neg h, get?_insert_of_ne _ _ h]

private theorem get?_foldl_insert_of_notMem (k : κ) (bindings : List (κ × ν)) (m : OrdMap κ ν)
    (h : k ∉ bindings.map Prod.fst) :
    (bindings.foldl (fun m e => m.insert e.1 e.2) m).get? k = m.get? k := by
  induction bindings generalizing m with
  | nil => rfl
  | cons e rest ih =>
    rw [List.map_cons, List.mem_cons, not_or] at h
    rw [List.foldl_cons, ih _ h.2, get?_insert_of_ne _ _ h.1]

private theorem get?_foldl_insert_of_mem {k : κ} {v : ν} (bindings : List (κ × ν))
    (m : OrdMap κ ν) (hd : (bindings.map Prod.fst).Nodup) (h : (k, v) ∈ bindings) :
    (bindings.foldl (fun m e => m.insert e.1 e.2) m).get? k = some v := by
  induction bindings generalizing m with
  | nil => cases h
  | cons e rest ih =>
    rw [List.map_cons, List.nodup_cons] at hd
    rw [List.foldl_cons]
    rcases List.mem_cons.1 h with rfl | h
    · rw [get?_foldl_insert_of_notMem _ _ _ hd.1, get?_insert_self]
    · exact ih _ hd.2 h

/-- Where each key stands once, the map of a list finds every binding. -/
theorem get?_ofList_of_mem {k : κ} {v : ν} {bindings : List (κ × ν)}
    (hd : (bindings.map Prod.fst).Nodup) (h : (k, v) ∈ bindings) :
    (ofList bindings).get? k = some v :=
  get?_foldl_insert_of_mem bindings empty hd h

theorem get?_ofList_of_notMem {k : κ} {bindings : List (κ × ν)}
    (h : k ∉ bindings.map Prod.fst) : (ofList bindings).get? k = none :=
  get?_foldl_insert_of_notMem k bindings empty h

/-- Where each key stands once, the map of a list finds nothing but its bindings. -/
theorem get?_ofList_eq_some_iff {k : κ} {v : ν} {bindings : List (κ × ν)}
    (hd : (bindings.map Prod.fst).Nodup) :
    (ofList bindings).get? k = some v ↔ (k, v) ∈ bindings := by
  constructor
  · intro h
    by_cases hk : k ∈ bindings.map Prod.fst
    · obtain ⟨⟨k', v'⟩, hmem, rfl⟩ := List.mem_map.1 hk
      rw [get?_ofList_of_mem hd hmem] at h
      cases h
      exact hmem
    · rw [get?_ofList_of_notMem hk] at h
      cases h
  · exact get?_ofList_of_mem hd

theorem ofList_entries (m : OrdMap κ ν) : ofList m.entries = m := by
  refine ext_get? fun k => Option.ext fun v => ?_
  rw [get?_ofList_eq_some_iff m.nodup_keys, mem_entries_iff]

end OrdMap

/-! ## Sets -/

namespace OrdSet

variable {κ : Type u} [Ord κ]

@[simp]
theorem notMem_empty (k : κ) : k ∉ (∅ : OrdSet κ).toList :=
  List.not_mem_nil

theorem isEmpty_iff {s : OrdSet κ} : s.isEmpty = true ↔ ∀ k, k ∉ s.toList := by
  rw [isEmpty, List.isEmpty_iff, toList, OrdMap.keys]
  constructor
  · intro h k
    rw [h]
    exact List.not_mem_nil
  · intro h
    exact List.map_eq_nil_iff.1 (List.eq_nil_iff_forall_not_mem.2 h)

theorem size_eq_length (s : OrdSet κ) : s.size = s.toList.length := by
  rw [OrdMap.size, toList, OrdMap.keys, List.length_map]

variable [Std.TransOrd κ] [Std.LawfulEqOrd κ]

theorem contains_iff {s : OrdSet κ} {k : κ} : OrdMap.contains s k = true ↔ k ∈ s.toList :=
  mem_toList.symm

theorem contains_eq_false {s : OrdSet κ} {k : κ} :
    OrdMap.contains s k = false ↔ k ∉ s.toList := by
  rw [← contains_iff, Bool.not_eq_true]

@[simp]
theorem mem_singleton {k x : κ} : x ∈ (singleton k).toList ↔ x = k := by
  rw [singleton, mem_add]
  simp

theorem mem_erase [DecidableEq κ] {s : OrdSet κ} {k x : κ} :
    x ∈ toList (OrdMap.erase s k) ↔ x ≠ k ∧ x ∈ s.toList := by
  rw [mem_toList, mem_toList, OrdMap.contains, OrdMap.contains, OrdMap.get?_erase_eq]
  by_cases h : x = k <;> simp [h]

/-- Sets with the same members are equal. -/
theorem ext_mem {s t : OrdSet κ} (h : ∀ k, k ∈ s.toList ↔ k ∈ t.toList) : s = t := by
  refine OrdMap.ext_get? fun k => ?_
  have hk := h k
  rw [mem_toList, mem_toList, OrdMap.contains, OrdMap.contains] at hk
  cases hs : s.get? k <;> cases ht : t.get? k <;> simp_all

omit [Std.TransOrd κ] [Std.LawfulEqOrd κ] in
theorem ascending_toList (s : OrdSet κ) : s.toList.Pairwise fun a b => compare a b = .lt := by
  rw [toList, OrdMap.keys, List.pairwise_map]
  exact s.ascending

/-- Sets that agree on the keys that pass a test list the same ones. -/
theorem filter_toList_eq {s t : OrdSet κ} {p : κ → Bool}
    (h : ∀ k, p k = true → (k ∈ s.toList ↔ k ∈ t.toList)) :
    s.toList.filter p = t.toList.filter p := by
  have hkeys : ∀ s : OrdSet κ, s.toList.filter p = toList (OrdMap.filterKeys s p) :=
    fun s => List.filter_map
  rw [hkeys, hkeys]
  refine congrArg toList (ext_mem fun k => ?_)
  rw [← hkeys, ← hkeys, List.mem_filter, List.mem_filter]
  exact and_congr_left (h k)

/-- Adding a new member and taking it away again changes nothing. -/
theorem erase_add [DecidableEq κ] {s : OrdSet κ} {k : κ} (h : k ∉ s.toList) :
    OrdMap.erase (s.add k) k = s := by
  refine ext_mem fun x => ?_
  rw [mem_erase, mem_add]
  constructor
  · rintro ⟨hne, rfl | hx⟩
    · exact absurd rfl hne
    · exact hx
  · intro hx
    exact ⟨fun he => h (he ▸ hx), .inr hx⟩

/-- A member that is added is one less of a list that a set lacks. -/
theorem length_filter_add_lt {l : List κ} {s : OrdSet κ} {k : κ} (hk : k ∈ l)
    (hs : k ∉ s.toList) :
    (l.filter fun x => !(s.add k).contains x).length <
      (l.filter fun x => !OrdMap.contains s x).length := by
  have hmem : ∀ (s : OrdSet κ) (x : κ), (!OrdMap.contains s x) = true ↔ x ∉ s.toList := by
    intro s x
    rw [Bool.not_eq_true', contains_eq_false]
  have hsplit : (l.filter fun x => !(s.add k).contains x) =
      (l.filter fun x => !OrdMap.contains s x).filter fun x => !(s.add k).contains x := by
    rw [List.filter_filter]
    refine List.filter_congr fun x _ => ?_
    rw [Bool.eq_iff_iff, Bool.and_eq_true, hmem, hmem, mem_add, not_or]
    exact ⟨fun h => ⟨h, h.2⟩, fun h => h.1⟩
  rw [hsplit, List.length_filter_lt_length_iff_exists]
  refine ⟨k, List.mem_filter.2 ⟨hk, (hmem s k).2 hs⟩, fun h => ?_⟩
  exact (hmem _ k).1 h (mem_add.2 (.inl rfl))

end OrdSet

end Demanded
