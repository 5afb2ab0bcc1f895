import Mathlib.Data.List.Perm.Subperm
import Mathlib.Logic.Relation
import Demanded.Multigraph.Search
import Demanded.Proofs.Containers

/-!
# Paths in multigraphs

`Multigraph.Leads` is one edge of a graph, `Multigraph.Reaches` a path.  `Multigraph.reachable`
computes the nodes that a path reaches: `mem_reachable` says so.

The computation counts down from the number of nodes.  A round that is not the last one adds a node,
and there are not more nodes than rounds, so the last round adds nothing and its set is closed.
-/

namespace Demanded

universe u v

/-! ## Closure -/

section Closure

variable {N : Type u} [Ord N] [Std.TransOrd N] [Std.LawfulEqOrd N] {next : N → List N}

theorem mem_expand {s : OrdSet N} {x : N} :
    x ∈ (expand next s).toList ↔ x ∈ s.toList ∨ ∃ y ∈ s.toList, x ∈ next y := by
  rw [expand, OrdSet.mem_foldl_add, List.mem_flatMap]

/-- A round that adds nothing starts from a closed set. -/
theorem closed_of_size_expand {s : OrdSet N} (h : (expand next s).size = s.size) {x y : N}
    (hx : x ∈ s.toList) (hy : y ∈ next x) : y ∈ s.toList := by
  have hsub : s.toList ⊆ (expand next s).toList := fun z hz => mem_expand.2 (.inl hz)
  have hperm : s.toList.Perm (expand next s).toList := by
    refine (List.subperm_of_subset (OrdSet.nodup_toList s) hsub).perm_of_length_le ?_
    rw [← OrdSet.size_eq_length, ← OrdSet.size_eq_length]
    exact Nat.le_of_eq h
  exact hperm.mem_iff.2 (mem_expand.2 (.inr ⟨x, hx, hy⟩))

/-- A round that is not the last one adds something. -/
theorem size_lt_size_expand {s : OrdSet N} (h : (expand next s).size ≠ s.size) :
    s.size < (expand next s).size := by
  have hsub : s.toList ⊆ (expand next s).toList := fun z hz => mem_expand.2 (.inl hz)
  have hle := (List.subperm_of_subset (OrdSet.nodup_toList s) hsub).length_le
  rw [← OrdSet.size_eq_length, ← OrdSet.size_eq_length] at hle
  omega

theorem mem_saturate_of_mem (rounds : Nat) {s : OrdSet N} {x : N} (h : x ∈ s.toList) :
    x ∈ (saturate next rounds s).toList := by
  induction rounds generalizing s with
  | zero => exact h
  | succ rounds ih =>
    rw [saturate]
    split
    · exact h
    · exact ih (mem_expand.2 (.inl h))

/-- What any number of rounds adds is reached from the members by steps. -/
theorem exists_of_mem_saturate (rounds : Nat) {s : OrdSet N} {x : N}
    (h : x ∈ (saturate next rounds s).toList) :
    ∃ y ∈ s.toList, Relation.ReflTransGen (fun a b => b ∈ next a) y x := by
  induction rounds generalizing s with
  | zero => exact ⟨x, h, .refl⟩
  | succ rounds ih =>
    rw [saturate] at h
    split at h
    · exact ⟨x, h, .refl⟩
    · obtain ⟨y, hy, hpath⟩ := ih h
      rcases mem_expand.1 hy with hy | ⟨z, hz, hzy⟩
      · exact ⟨y, hy, hpath⟩
      · exact ⟨z, hz, hpath.head hzy⟩

/-- With more rounds than there can be new members, the result is closed. -/
theorem closed_saturate {rounds : Nat} {s : OrdSet N} {all : List N} (hs : s.toList ⊆ all)
    (hnext : ∀ x ∈ all, next x ⊆ all) (hlen : all.length < rounds + s.size) {x y : N}
    (hx : x ∈ (saturate next rounds s).toList) (hy : y ∈ next x) :
    y ∈ (saturate next rounds s).toList := by
  induction rounds generalizing s with
  | zero =>
    have hle := (List.subperm_of_subset (OrdSet.nodup_toList s) hs).length_le
    rw [← OrdSet.size_eq_length] at hle
    omega
  | succ rounds ih =>
    rw [saturate] at hx ⊢
    split
    · rename_i hsize
      rw [if_pos hsize] at hx
      exact closed_of_size_expand hsize hx hy
    · rename_i hsize
      rw [if_neg hsize] at hx
      have hgrow := size_lt_size_expand hsize
      refine ih ?_ (by omega) hx
      intro z hz
      rcases mem_expand.1 hz with hz | ⟨w, hw, hwz⟩
      · exact hs hz
      · exact hnext w (hs hw) hwz

/-- With more rounds than there can be new members, the result has what any number of steps
reaches. -/
theorem mem_saturate_iff {rounds : Nat} {s : OrdSet N} {all : List N} (hs : s.toList ⊆ all)
    (hnext : ∀ x ∈ all, next x ⊆ all) (hlen : all.length < rounds + s.size) {x : N} :
    x ∈ (saturate next rounds s).toList ↔
      ∃ y ∈ s.toList, Relation.ReflTransGen (fun a b => b ∈ next a) y x := by
  refine ⟨exists_of_mem_saturate rounds, ?_⟩
  rintro ⟨y, hy, hpath⟩
  induction hpath with
  | refl => exact mem_saturate_of_mem rounds hy
  | tail _ hstep ih => exact closed_saturate hs hnext hlen ih hstep

end Closure

/-! ## Edges and paths -/

namespace Multigraph

variable {N : Type u} {E : Type v}

/-- There is an edge from `a` to `b`. -/
def Leads (g : Multigraph N E) (a b : N) : Prop := ∃ e ∈ g.edges, e.src = a ∧ e.dst = b

/-- There is a path from `a` to `b`, which may have no edge. -/
def Reaches (g : Multigraph N E) : N → N → Prop := Relation.ReflTransGen g.Leads

variable {g : Multigraph N E}

theorem Leads.src_mem {a b : N} (h : g.Leads a b) : a ∈ g.nodes := by
  obtain ⟨e, he, rfl, rfl⟩ := h
  exact g.src_mem e he

theorem Leads.dst_mem {a b : N} (h : g.Leads a b) : b ∈ g.nodes := by
  obtain ⟨e, he, rfl, rfl⟩ := h
  exact g.dst_mem e he

variable [DecidableEq N]

theorem mem_successors_iff {a b : N} : b ∈ g.successors a ↔ g.Leads a b :=
  mem_successors

variable [Ord N] [Std.TransOrd N] [Std.LawfulEqOrd N]

/-- The reachable nodes are those at the end of a path from the start. -/
theorem mem_reachable {start x : N} :
    x ∈ (g.reachable start).toList ↔ start ∈ g.nodes ∧ g.Reaches start x := by
  rw [reachable]
  split
  · rename_i hstart
    have hall : (OrdSet.singleton start).toList ⊆ g.nodes := by
      intro y hy
      rw [OrdSet.mem_singleton.1 hy]
      exact hstart
    have hsize : (OrdSet.singleton start).size = 1 := rfl
    rw [mem_saturate_iff hall (fun a _ b hb => (mem_successors_iff.1 hb).dst_mem) (by omega)]
    simp only [OrdSet.mem_singleton, exists_eq_left, mem_successors_iff, hstart, true_and]
    rfl
  · rename_i hstart
    exact ⟨fun h => absurd h (OrdSet.notMem_empty x), fun h => absurd h.1 hstart⟩

end Multigraph

end Demanded
