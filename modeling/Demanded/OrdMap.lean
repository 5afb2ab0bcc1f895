/-!
# Finite maps and sets in key order

An `OrdMap κ ν` is a finite map whose entries stand in strictly ascending key order.  The order is
part of the type, so two maps with the same entries are equal and every listing of a map is in key
order.  An `OrdSet κ` is a map to the unit type.

There are three groups.

* Entry lists.  `insertEntry`, `lookupEntry` and the lemmas below them work on plain lists.
* Maps.  `insert`, `erase`, `filter` and `get?`, with one lemma for what each operation does to
  `get?`, and `OrdMap.ext_get?` for equality.
* Sets.  `OrdSet.insert`, `OrdSet.union` and `OrdSet.contains`.
-/

namespace Demanded

universe u v w

/-! ## Entry lists -/

section Entries

variable {κ : Type u} {ν : Type v} [Ord κ]

/-- Keys in strictly ascending order. -/
def Ascending (entries : List (κ × ν)) : Prop :=
  entries.Pairwise fun a b => compare a.1 b.1 = .lt

/-- Binds `k` to `v` in an ascending list, replacing an entry with the same key. -/
def insertEntry (k : κ) (v : ν) : List (κ × ν) → List (κ × ν)
  | [] => [(k, v)]
  | (k', v') :: rest =>
    match compare k k' with
    | .lt => (k, v) :: (k', v') :: rest
    | .eq => (k, v) :: rest
    | .gt => (k', v') :: insertEntry k v rest

/-- The value bound to `k`. -/
def lookupEntry (k : κ) : List (κ × ν) → Option ν
  | [] => none
  | (k', v') :: rest => if compare k k' = .eq then some v' else lookupEntry k rest

theorem mem_insertEntry {k : κ} {v : ν} {e : κ × ν} {entries : List (κ × ν)}
    (h : e ∈ insertEntry k v entries) : e = (k, v) ∨ e ∈ entries := by
  induction entries with
  | nil => simpa [insertEntry] using h
  | cons head rest ih =>
    obtain ⟨k', v'⟩ := head
    rw [insertEntry] at h
    split at h
    · simpa using h
    · rcases List.mem_cons.1 h with h | h
      · exact .inl h
      · exact .inr (List.mem_cons_of_mem _ h)
    · rcases List.mem_cons.1 h with h | h
      · exact .inr (h ▸ List.mem_cons_self)
      · exact (ih h).imp_right (List.mem_cons_of_mem _)

theorem ascending_insertEntry [Std.TransOrd κ] (k : κ) (v : ν) {entries : List (κ × ν)}
    (h : Ascending entries) : Ascending (insertEntry k v entries) := by
  induction entries with
  | nil => exact List.pairwise_singleton _ _
  | cons head rest ih =>
    obtain ⟨k', v'⟩ := head
    obtain ⟨hhead, hrest⟩ := List.pairwise_cons.1 h
    rw [insertEntry]
    split
    · rename_i hlt
      refine List.pairwise_cons.2 ⟨fun e he => ?_, h⟩
      rcases List.mem_cons.1 he with rfl | he
      · exact hlt
      · exact Std.TransCmp.lt_trans hlt (hhead e he)
    · rename_i heq
      exact List.pairwise_cons.2
        ⟨fun e he => Std.TransCmp.lt_of_eq_of_lt heq (hhead e he), hrest⟩
    · rename_i hgt
      refine List.pairwise_cons.2 ⟨fun e he => ?_, ih hrest⟩
      rcases mem_insertEntry he with rfl | he
      · exact Std.OrientedCmp.lt_of_gt hgt
      · exact hhead e he

theorem lookupEntry_eq_none {k : κ} {entries : List (κ × ν)}
    (h : ∀ e ∈ entries, compare k e.1 = .lt) : lookupEntry k entries = none := by
  induction entries with
  | nil => rfl
  | cons head rest ih =>
    have hk := h head List.mem_cons_self
    rw [lookupEntry, if_neg (by rw [hk]; decide)]
    exact ih fun e he => h e (List.mem_cons_of_mem _ he)

theorem lookupEntry_insertEntry [Std.LawfulEqOrd κ] (k k' : κ) (v : ν) (entries : List (κ × ν)) :
    lookupEntry k' (insertEntry k v entries) =
      if compare k' k = .eq then some v else lookupEntry k' entries := by
  induction entries with
  | nil => rfl
  | cons head rest ih =>
    obtain ⟨k₀, v₀⟩ := head
    rw [insertEntry]
    split
    · rfl
    · rename_i heq
      obtain rfl := Std.LawfulEqOrd.eq_of_compare heq
      simp only [lookupEntry]
      split <;> rfl
    · rename_i hgt
      simp only [lookupEntry, ih]
      split
      · rename_i h1
        obtain rfl := Std.LawfulEqOrd.eq_of_compare h1
        rw [if_neg]
        intro h2
        obtain rfl := Std.LawfulEqOrd.eq_of_compare h2
        rw [h1] at hgt
        cases hgt
      · rfl

theorem lookupEntry_filter_key [Std.LawfulEqOrd κ] (p : κ → Bool) (k : κ) (entries : List (κ × ν)) :
    lookupEntry k (entries.filter fun e => p e.1) =
      if p k then lookupEntry k entries else none := by
  induction entries with
  | nil => simp [lookupEntry]
  | cons head rest ih =>
    obtain ⟨k₀, v₀⟩ := head
    by_cases hk : compare k k₀ = .eq
    · obtain rfl := Std.LawfulEqOrd.eq_of_compare hk
      cases hp : p k with
      | true => simp [hp, lookupEntry]
      | false => simpa [hp, lookupEntry] using ih
    · cases hp : p k₀ <;> simp [hp, lookupEntry, hk, ih]

theorem mem_of_lookupEntry [Std.LawfulEqOrd κ] {k : κ} {v : ν} {entries : List (κ × ν)}
    (h : lookupEntry k entries = some v) : (k, v) ∈ entries := by
  induction entries with
  | nil => cases h
  | cons head rest ih =>
    obtain ⟨k₀, v₀⟩ := head
    rw [lookupEntry] at h
    split at h
    · rename_i heq
      obtain rfl := Std.LawfulEqOrd.eq_of_compare heq
      cases h
      exact List.mem_cons_self
    · exact List.mem_cons_of_mem _ (ih h)

theorem lookupEntry_of_mem [Std.TransOrd κ] [Std.LawfulEqOrd κ] {k : κ} {v : ν}
    {entries : List (κ × ν)} (hs : Ascending entries)
    (h : (k, v) ∈ entries) : lookupEntry k entries = some v := by
  induction entries with
  | nil => cases h
  | cons head rest ih =>
    obtain ⟨k₀, v₀⟩ := head
    obtain ⟨hhead, hrest⟩ := List.pairwise_cons.1 hs
    rw [lookupEntry]
    rcases List.mem_cons.1 h with h | h
    · cases h
      rw [if_pos Std.ReflOrd.compare_self]
    · have hlt := hhead _ h
      rw [if_neg, ih hrest h]
      intro heq
      obtain rfl := Std.LawfulEqOrd.eq_of_compare heq
      rw [Std.ReflOrd.compare_self] at hlt
      cases hlt

/-- Ascending lists with the same look-ups are equal. -/
theorem entries_ext [Std.TransOrd κ] [Std.LawfulEqOrd κ] {l₁ l₂ : List (κ × ν)}
    (h₁ : Ascending l₁) (h₂ : Ascending l₂)
    (h : ∀ k, lookupEntry k l₁ = lookupEntry k l₂) : l₁ = l₂ := by
  induction l₁ generalizing l₂ with
  | nil =>
    cases l₂ with
    | nil => rfl
    | cons head rest =>
      have hk := h head.1
      rw [lookupEntry_of_mem (v := head.2) h₂ List.mem_cons_self] at hk
      cases hk
  | cons a as ih =>
    cases l₂ with
    | nil =>
      have hk := h a.1
      rw [lookupEntry_of_mem (v := a.2) h₁ List.mem_cons_self] at hk
      cases hk
    | cons b bs =>
      have ha := (h a.1).symm.trans (lookupEntry_of_mem (v := a.2) h₁ List.mem_cons_self)
      have hb := (h b.1).trans (lookupEntry_of_mem (v := b.2) h₂ List.mem_cons_self)
      obtain ⟨ha₁, has⟩ := List.pairwise_cons.1 h₁
      obtain ⟨hb₁, hbs⟩ := List.pairwise_cons.1 h₂
      have hab : a = b := by
        rcases List.mem_cons.1 (mem_of_lookupEntry ha) with he | hmem
        · exact he
        · rcases List.mem_cons.1 (mem_of_lookupEntry hb) with he | hmem'
          · exact he.symm
          · have hlt := Std.TransCmp.lt_trans (hb₁ _ hmem) (ha₁ _ hmem')
            rw [Std.ReflOrd.compare_self] at hlt
            cases hlt
      subst hab
      rw [ih has hbs]
      intro k
      have hk := h k
      by_cases hka : compare k a.1 = .eq
      · obtain rfl := Std.LawfulEqOrd.eq_of_compare hka
        rw [lookupEntry_eq_none ha₁, lookupEntry_eq_none hb₁]
      · simpa [lookupEntry, hka] using hk

end Entries

/-! ## Maps -/

/-- A finite map with its entries in strictly ascending key order. -/
structure OrdMap (κ : Type u) (ν : Type v) [Ord κ] where
  /-- The entries, in key order. -/
  entries : List (κ × ν)
  /-- Each key stands once, and the keys ascend. -/
  ascending : Ascending entries

namespace OrdMap

variable {κ : Type u} {ν : Type v} [Ord κ]

instance [DecidableEq κ] [DecidableEq ν] : DecidableEq (OrdMap κ ν) := fun a b =>
  if h : a.entries = b.entries then
    .isTrue (by cases a; cases b; cases h; rfl)
  else
    .isFalse fun he => h (he ▸ rfl)

/-- The map without entries. -/
def empty : OrdMap κ ν := ⟨[], List.Pairwise.nil⟩

instance : EmptyCollection (OrdMap κ ν) := ⟨empty⟩

instance : Inhabited (OrdMap κ ν) := ⟨empty⟩

/-- The value bound to `k`, if any. -/
def get? (m : OrdMap κ ν) (k : κ) : Option ν := lookupEntry k m.entries

/-- Whether `k` is bound. -/
def contains (m : OrdMap κ ν) (k : κ) : Bool := (m.get? k).isSome

/-- The keys, in order. -/
def keys (m : OrdMap κ ν) : List κ := m.entries.map Prod.fst

/-- The number of entries. -/
def size (m : OrdMap κ ν) : Nat := m.entries.length

/-- The entries whose key passes a test. -/
def filterKeys (m : OrdMap κ ν) (p : κ → Bool) : OrdMap κ ν :=
  ⟨m.entries.filter fun e => p e.1, m.ascending.filter _⟩

/-- Removes the binding of `k`. -/
def erase (m : OrdMap κ ν) (k : κ) : OrdMap κ ν :=
  m.filterKeys fun k' => compare k k' != .eq

@[simp]
theorem get?_empty (k : κ) : (empty : OrdMap κ ν).get? k = none := rfl

theorem get?_filterKeys [Std.LawfulEqOrd κ] (m : OrdMap κ ν) (p : κ → Bool) (k : κ) :
    (m.filterKeys p).get? k = if p k then m.get? k else none :=
  lookupEntry_filter_key p k m.entries

theorem get?_erase_self [Std.LawfulEqOrd κ] (m : OrdMap κ ν) (k : κ) :
    (m.erase k).get? k = none := by
  rw [erase, get?_filterKeys, Std.ReflOrd.compare_self]
  rfl

theorem get?_erase_of_ne [Std.LawfulEqOrd κ] (m : OrdMap κ ν) {k k' : κ} (h : k' ≠ k) :
    (m.erase k).get? k' = m.get? k' := by
  rw [erase, get?_filterKeys, if_pos]
  have : compare k k' ≠ .eq := fun he => h (Std.LawfulEqOrd.eq_of_compare he).symm
  simpa using this

variable [Std.TransOrd κ]

/-- Binds `k` to `v`, replacing an older binding. -/
def insert (m : OrdMap κ ν) (k : κ) (v : ν) : OrdMap κ ν :=
  ⟨insertEntry k v m.entries, ascending_insertEntry k v m.ascending⟩

/-- The map of a list of bindings; of two bindings of one key the later one counts. -/
def ofList (bindings : List (κ × ν)) : OrdMap κ ν :=
  bindings.foldl (fun m e => m.insert e.1 e.2) empty

variable [Std.LawfulEqOrd κ]

theorem get?_insert (m : OrdMap κ ν) (k k' : κ) (v : ν) :
    (m.insert k v).get? k' = if compare k' k = .eq then some v else m.get? k' :=
  lookupEntry_insertEntry k k' v m.entries

@[simp]
theorem get?_insert_self (m : OrdMap κ ν) (k : κ) (v : ν) : (m.insert k v).get? k = some v := by
  rw [get?_insert, if_pos Std.ReflOrd.compare_self]

theorem get?_insert_of_ne (m : OrdMap κ ν) {k k' : κ} (v : ν) (h : k' ≠ k) :
    (m.insert k v).get? k' = m.get? k' := by
  rw [get?_insert, if_neg fun he => h (Std.LawfulEqOrd.eq_of_compare he)]

/-- An entry is listed exactly when the look-up finds it. -/
theorem mem_entries_iff {m : OrdMap κ ν} {k : κ} {v : ν} :
    (k, v) ∈ m.entries ↔ m.get? k = some v :=
  ⟨lookupEntry_of_mem m.ascending, mem_of_lookupEntry⟩

/-- Maps with the same look-ups are equal. -/
theorem ext_get? {m₁ m₂ : OrdMap κ ν} (h : ∀ k, m₁.get? k = m₂.get? k) : m₁ = m₂ := by
  have he := entries_ext m₁.ascending m₂.ascending h
  cases m₁
  cases m₂
  cases he
  rfl

omit [Std.TransOrd κ] [Std.LawfulEqOrd κ] in
theorem nodup_keys [Std.OrientedOrd κ] (m : OrdMap κ ν) : m.keys.Nodup := by
  rw [keys, List.Nodup, List.pairwise_map]
  refine m.ascending.imp fun {a b} hlt heq => ?_
  rw [heq, Std.ReflOrd.compare_self] at hlt
  cases hlt

theorem mem_keys {m : OrdMap κ ν} {k : κ} : k ∈ m.keys ↔ m.contains k := by
  rw [keys, List.mem_map, contains, Option.isSome_iff_exists]
  constructor
  · rintro ⟨⟨k', v⟩, hmem, rfl⟩
    exact ⟨v, mem_entries_iff.1 hmem⟩
  · rintro ⟨v, hv⟩
    exact ⟨(k, v), mem_entries_iff.2 hv, rfl⟩

end OrdMap

/-! ## Sets -/

/-- A finite set with its members in ascending order. -/
abbrev OrdSet (κ : Type u) [Ord κ] := OrdMap κ Unit

namespace OrdSet

variable {κ : Type u} [Ord κ]

/-- The members, in order. -/
def toList (s : OrdSet κ) : List κ := OrdMap.keys s

/-- Whether there are no members. -/
def isEmpty (s : OrdSet κ) : Bool := s.entries.isEmpty

variable [Std.TransOrd κ]

/-- Adds a member. -/
def add (s : OrdSet κ) (k : κ) : OrdSet κ := OrdMap.insert s k ()

/-- The set with one member. -/
def singleton (k : κ) : OrdSet κ := add ∅ k

/-- The set of the members of a list. -/
def ofList (ks : List κ) : OrdSet κ := ks.foldl add ∅

/-- The members of either set. -/
def union (s t : OrdSet κ) : OrdSet κ := t.toList.foldl add s

theorem nodup_toList (s : OrdSet κ) : s.toList.Nodup := OrdMap.nodup_keys s

variable [Std.LawfulEqOrd κ]

theorem mem_toList {s : OrdSet κ} {k : κ} : k ∈ s.toList ↔ OrdMap.contains s k :=
  OrdMap.mem_keys

theorem mem_add {s : OrdSet κ} {k x : κ} : x ∈ (s.add k).toList ↔ x = k ∨ x ∈ s.toList := by
  rw [mem_toList, mem_toList, add, OrdMap.contains, OrdMap.contains]
  by_cases h : x = k
  · subst h
    simp
  · rw [OrdMap.get?_insert_of_ne _ _ h]
    simp [h]

theorem mem_foldl_add {s : OrdSet κ} {ks : List κ} {x : κ} :
    x ∈ (ks.foldl add s).toList ↔ x ∈ s.toList ∨ x ∈ ks := by
  induction ks generalizing s with
  | nil => simp
  | cons k rest ih =>
    rw [List.foldl_cons, ih, mem_add, List.mem_cons]
    constructor
    · rintro ((h | h) | h)
      · exact .inr (.inl h)
      · exact .inl h
      · exact .inr (.inr h)
    · rintro (h | h | h)
      · exact .inl (.inr h)
      · exact .inl (.inl h)
      · exact .inr h

theorem mem_ofList {ks : List κ} {x : κ} : x ∈ (ofList ks).toList ↔ x ∈ ks := by
  rw [ofList, mem_foldl_add]
  simp [toList, OrdMap.keys, EmptyCollection.emptyCollection, OrdMap.empty]

theorem mem_union {s t : OrdSet κ} {x : κ} :
    x ∈ (s.union t).toList ↔ x ∈ s.toList ∨ x ∈ t.toList :=
  mem_foldl_add

end OrdSet

end Demanded
