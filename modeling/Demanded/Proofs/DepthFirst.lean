import Demanded.Proofs.Paths

/-!
# Depth-first search

Four results about `Multigraph.backEdges`.

* Without its back edges a graph has no cycle.  The order in which the search finishes the nodes
  shows it: `Ordered` says that the successors of a node are recorded as ends of back edges or were
  finished before it, and `Search.Sound` is the invariant that the search keeps.  The result is
  `exists_rank`: a numbering of the nodes along which every other edge ascends.
* Each back edge closes a cycle (`reaches_of_mem_backEdges`), since the nodes on the path of the
  search lead to the one that it visits.
* Which edges into a part of the graph are back edges depends only on that part, provided no edge
  leads into it from outside.  `Search.project` forgets what lies outside.  The search commutes with
  it, and more fuel than there are nodes changes nothing, so two graphs that agree on such a part
  have the same back edges into it (`backEdges_filter_eq`).
* A visit of a node records the edges that lead back to it from all nodes that it reaches off the
  path (`mem_back_visit`).  So if a node reaches all nodes that reach it and comes before them, then
  all edges into it are back edges (`mem_backEdges_of_first`).
-/

namespace Demanded.Multigraph

universe u v

variable {N : Type u} [DecidableEq N]

/-! ## One edge of a search -/

/-- What a search does with one edge from `n` to `m`. -/
def follow (next : N → List N) (fuel : Nat) (path : List N) (n : N) (s : Search N) (m : N) :
    Search N :=
  if m ∈ n :: path then s.record (n, m)
  else if m ∈ s.finished then s
  else visit next fuel (n :: path) m s

theorem visit_succ (next : N → List N) (fuel : Nat) (path : List N) (n : N) (s : Search N) :
    visit next (fuel + 1) path n s =
      { (next n).foldl (follow next fuel path n) s with
        finished := n :: ((next n).foldl (follow next fuel path n) s).finished } := rfl

/-- What a search does with one of the nodes from which it starts. -/
def restart (next : N → List N) (fuel : Nat) (s : Search N) (n : N) : Search N :=
  if n ∈ s.finished then s else visit next fuel [] n s

theorem depthFirst_eq (next : N → List N) (fuel : Nat) (starts : List N) :
    depthFirst next fuel starts = starts.foldl (restart next fuel) ⟨[], []⟩ := rfl

@[simp]
theorem finished_record (s : Search N) (edge : N × N) : (s.record edge).finished = s.finished := by
  rw [Search.record]
  split <;> rfl

theorem mem_back_record {s : Search N} {edge x : N × N} :
    x ∈ (s.record edge).back ↔ x ∈ s.back ∨ x = edge := by
  rw [Search.record]
  split
  · rename_i h
    exact ⟨.inl, fun hx => hx.elim id fun he => he ▸ h⟩
  · simp

omit [DecidableEq N] in
/-- A path without repetitions leaves fuel for one more node. -/
theorem fuel_pos {all path : List N} {n : N} {fuel : Nat} (hd : (n :: path).Nodup)
    (hsub : n :: path ⊆ all) (hfuel : all.length ≤ fuel + path.length) : 0 < fuel := by
  have hle := (List.subperm_of_subset hd hsub).length_le
  rw [List.length_cons] at hle
  omega

/-! ## The order of finishing -/

/-- In a list of finished nodes, the last one first, the successors of each node are ends of back
edges or were finished before it. -/
def Ordered (next : N → List N) (back : List (N × N)) : List N → Prop
  | [] => True
  | n :: earlier => (∀ m ∈ next n, (n, m) ∈ back ∨ m ∈ earlier) ∧ Ordered next back earlier

omit [DecidableEq N] in
theorem Ordered.mono {next : N → List N} {back back' : List (N × N)} {l : List N}
    (h : Ordered next back l) (hb : back ⊆ back') : Ordered next back' l := by
  induction l with
  | nil => trivial
  | cons n earlier ih => exact ⟨fun m hm => (h.1 m hm).imp_left fun hmem => hb hmem, ih h.2⟩

/-- What a search keeps while the nodes of `path` wait for it. -/
structure Search.Sound (next : N → List N) (all path : List N) (s : Search N) : Prop where
  ordered : Ordered next s.back s.finished
  nodup : s.finished.Nodup
  subset : s.finished ⊆ all
  /-- A node that waits is not finished. -/
  apart : ∀ n ∈ path, n ∉ s.finished
  /-- A back edge is an edge. -/
  back_mem : ∀ edge ∈ s.back, edge.2 ∈ next edge.1
  /-- A back edge leads to a node that was on the path. -/
  met : ∀ edge ∈ s.back, edge.2 ∈ path ∨ edge.2 ∈ s.finished

/-- What a search leaves behind is at least what it started from. -/
structure Search.Grows (s s' : Search N) : Prop where
  finished : s.finished ⊆ s'.finished
  back : s.back ⊆ s'.back

omit [DecidableEq N] in
theorem Search.Grows.refl (s : Search N) : s.Grows s := ⟨List.Subset.refl _, List.Subset.refl _⟩

omit [DecidableEq N] in
theorem Search.Grows.trans {s₁ s₂ s₃ : Search N} (h : s₁.Grows s₂) (h' : s₂.Grows s₃) :
    s₁.Grows s₃ :=
  ⟨List.Subset.trans h.finished h'.finished, List.Subset.trans h.back h'.back⟩

theorem Search.Sound.record {next : N → List N} {all path : List N} {s : Search N} {n m : N}
    (h : s.Sound next all path) (hm : m ∈ next n) (hpath : m ∈ path) :
    (s.record (n, m)).Sound next all path ∧ s.Grows (s.record (n, m)) := by
  have hback : s.back ⊆ (s.record (n, m)).back := fun e he => mem_back_record.2 (.inl he)
  refine ⟨⟨?_, ?_, ?_, ?_, ?_, ?_⟩, ⟨by simp, hback⟩⟩
  · rw [finished_record]
    exact h.ordered.mono hback
  · rw [finished_record]
    exact h.nodup
  · rw [finished_record]
    exact h.subset
  · rw [finished_record]
    exact h.apart
  · intro e he
    rcases mem_back_record.1 he with he | rfl
    · exact h.back_mem e he
    · exact hm
  · intro e he
    rw [finished_record]
    rcases mem_back_record.1 he with he | rfl
    · exact h.met e he
    · exact .inl hpath

omit [DecidableEq N] in
/-- A node that is not finished may be put on the path. -/
theorem Search.Sound.enter {next : N → List N} {all path : List N} {s : Search N} {n : N}
    (h : s.Sound next all path) (hn : n ∉ s.finished) : s.Sound next all (n :: path) where
  ordered := h.ordered
  nodup := h.nodup
  subset := h.subset
  apart := List.forall_mem_cons.2 ⟨hn, h.apart⟩
  back_mem := h.back_mem
  met e he := (h.met e he).imp_left (List.mem_cons_of_mem n)

section Sound

variable {next : N → List N} {all : List N}

/-- What a visit of a node does: the node is finished, and the invariant holds for the nodes that
still wait. -/
def VisitSound (next : N → List N) (all : List N) (fuel : Nat) (path : List N) : Prop :=
  ∀ (n : N) (s : Search N), (n :: path).Nodup → n :: path ⊆ all →
    all.length ≤ fuel + path.length → s.Sound next all (n :: path) →
    (visit next fuel path n s).Sound next all path ∧ s.Grows (visit next fuel path n s) ∧
      n ∈ (visit next fuel path n s).finished

private theorem follow_sound {fuel : Nat} {path : List N} {n : N}
    (hnext : ∀ x ∈ all, next x ⊆ all) (hd : (n :: path).Nodup) (hsub : n :: path ⊆ all)
    (hfuel : all.length ≤ fuel + (n :: path).length) (ih : VisitSound next all fuel (n :: path))
    {s : Search N} {m : N} (hm : m ∈ next n) (hs : s.Sound next all (n :: path)) :
    (follow next fuel path n s m).Sound next all (n :: path) ∧
      s.Grows (follow next fuel path n s m) ∧
      ((n, m) ∈ (follow next fuel path n s m).back ∨
        m ∈ (follow next fuel path n s m).finished) := by
  rw [follow]
  split
  · rename_i hpath
    obtain ⟨hsound, hgrows⟩ := hs.record hm hpath
    exact ⟨hsound, hgrows, .inl (mem_back_record.2 (.inr rfl))⟩
  · rename_i hpath
    split
    · rename_i hfin
      exact ⟨hs, .refl s, .inr hfin⟩
    · rename_i hfin
      have hmall : m ∈ all := hnext n (hsub List.mem_cons_self) hm
      obtain ⟨hsound, hgrows, hmem⟩ :=
        ih m s (List.nodup_cons.2 ⟨hpath, hd⟩) (List.cons_subset.2 ⟨hmall, hsub⟩) hfuel
          (hs.enter hfin)
      exact ⟨hsound, hgrows, .inr hmem⟩

private theorem foldl_follow_sound {fuel : Nat} {path : List N} {n : N}
    (hnext : ∀ x ∈ all, next x ⊆ all) (hd : (n :: path).Nodup) (hsub : n :: path ⊆ all)
    (hfuel : all.length ≤ fuel + (n :: path).length) (ih : VisitSound next all fuel (n :: path))
    (ms : List N) (hms : ms ⊆ next n) (s : Search N) (hs : s.Sound next all (n :: path)) :
    (ms.foldl (follow next fuel path n) s).Sound next all (n :: path) ∧
      s.Grows (ms.foldl (follow next fuel path n) s) ∧
      ∀ m ∈ ms, (n, m) ∈ (ms.foldl (follow next fuel path n) s).back ∨
        m ∈ (ms.foldl (follow next fuel path n) s).finished := by
  induction ms generalizing s with
  | nil => exact ⟨hs, .refl s, fun m hm => absurd hm List.not_mem_nil⟩
  | cons m rest ihms =>
    obtain ⟨hm, hrest⟩ := List.cons_subset.1 hms
    obtain ⟨hsound, hgrows, hmet⟩ := follow_sound hnext hd hsub hfuel ih hm hs
    obtain ⟨hsound', hgrows', hmet'⟩ := ihms hrest _ hsound
    rw [List.foldl_cons]
    refine ⟨hsound', hgrows.trans hgrows', fun x hx => ?_⟩
    rcases List.mem_cons.1 hx with rfl | hx
    · exact hmet.imp (fun h => hgrows'.back h) fun h => hgrows'.finished h
    · exact hmet' x hx

/-- A visit keeps the invariant and finishes its node.  The induction is on the fuel, and the path
tells that it does not run out. -/
theorem visit_sound (hnext : ∀ x ∈ all, next x ⊆ all) (fuel : Nat) (path : List N) :
    VisitSound next all fuel path := by
  induction fuel generalizing path with
  | zero =>
    intro n s hd hsub hfuel _
    exact absurd (fuel_pos hd hsub hfuel) (Nat.lt_irrefl 0)
  | succ fuel ih =>
    intro n s hd hsub hfuel hs
    have hlen : all.length ≤ fuel + (n :: path).length := by
      rw [List.length_cons]
      omega
    obtain ⟨hsound, hgrows, hmet⟩ :=
      foldl_follow_sound hnext hd hsub hlen (ih (n :: path)) (next n) (List.Subset.refl _) s hs
    rw [visit_succ]
    refine ⟨⟨⟨hmet, hsound.ordered⟩, ?_, ?_, ?_, hsound.back_mem, ?_⟩, ⟨?_, hgrows.back⟩,
      List.mem_cons_self⟩
    · exact List.nodup_cons.2 ⟨hsound.apart n List.mem_cons_self, hsound.nodup⟩
    · exact List.cons_subset.2 ⟨hsub List.mem_cons_self, hsound.subset⟩
    · intro x hx hxn
      rcases List.mem_cons.1 hxn with rfl | hxf
      · exact (List.nodup_cons.1 hd).1 hx
      · exact hsound.apart x (List.mem_cons_of_mem _ hx) hxf
    · intro e he
      rcases hsound.met e he with hpath | hfin
      · rcases List.mem_cons.1 hpath with heq | hpath
        · exact .inr (heq ▸ List.mem_cons_self)
        · exact .inl hpath
      · exact .inr (List.mem_cons_of_mem n hfin)
    · exact List.Subset.trans hgrows.finished (List.subset_cons_self _ _)

private theorem foldl_restart_sound (hnext : ∀ x ∈ all, next x ⊆ all) {fuel : Nat}
    (hfuel : all.length ≤ fuel) (starts : List N) (hstarts : starts ⊆ all) (s : Search N)
    (hs : s.Sound next all []) :
    (starts.foldl (restart next fuel) s).Sound next all [] ∧
      s.Grows (starts.foldl (restart next fuel) s) ∧
      starts ⊆ (starts.foldl (restart next fuel) s).finished := by
  induction starts generalizing s with
  | nil => exact ⟨hs, .refl s, List.nil_subset _⟩
  | cons n rest ih =>
    obtain ⟨hn, hrest⟩ := List.cons_subset.1 hstarts
    have hstep : (restart next fuel s n).Sound next all [] ∧
        s.Grows (restart next fuel s n) ∧ n ∈ (restart next fuel s n).finished := by
      rw [restart]
      split
      · rename_i hfin
        exact ⟨hs, .refl s, hfin⟩
      · rename_i hfin
        exact visit_sound hnext fuel [] n s (List.pairwise_singleton _ n)
          (List.cons_subset.2 ⟨hn, List.nil_subset _⟩) (by simpa using hfuel) (hs.enter hfin)
    obtain ⟨hsound, hgrows, hmem⟩ := hstep
    obtain ⟨hsound', hgrows', hmem'⟩ := ih hrest _ hsound
    rw [List.foldl_cons]
    exact ⟨hsound', hgrows.trans hgrows', List.cons_subset.2 ⟨hgrows'.finished hmem, hmem'⟩⟩

omit [DecidableEq N] in
theorem sound_empty (next : N → List N) (all : List N) :
    (⟨[], []⟩ : Search N).Sound next all [] :=
  ⟨trivial, List.nodup_nil, List.nil_subset _, fun _ h => absurd h List.not_mem_nil,
    fun _ h => absurd h List.not_mem_nil, fun _ h => absurd h List.not_mem_nil⟩

/-- A search from a list of nodes keeps the invariant and finishes them all. -/
theorem depthFirst_sound (hnext : ∀ x ∈ all, next x ⊆ all) {fuel : Nat}
    (hfuel : all.length ≤ fuel) {starts : List N} (hstarts : starts ⊆ all) :
    (depthFirst next fuel starts).Sound next all [] ∧
      starts ⊆ (depthFirst next fuel starts).finished := by
  rw [depthFirst_eq]
  obtain ⟨hsound, -, hmem⟩ :=
    foldl_restart_sound hnext hfuel starts hstarts _ (sound_empty next all)
  exact ⟨hsound, hmem⟩

end Sound

/-- Along an ordered list every edge but the back edges leads to a later place. -/
theorem Ordered.idxOf_lt {next : N → List N} {back : List (N × N)} {l : List N}
    (h : Ordered next back l) (hd : l.Nodup) {n m : N} (hn : n ∈ l) (hm : m ∈ next n) :
    (n, m) ∈ back ∨ m ∈ l ∧ l.idxOf n < l.idxOf m := by
  induction l with
  | nil => exact absurd hn List.not_mem_nil
  | cons a earlier ih =>
    obtain ⟨hna, hd'⟩ := List.nodup_cons.1 hd
    rcases List.mem_cons.1 hn with rfl | hn
    · refine (h.1 m hm).imp_right fun hmem => ⟨List.mem_cons_of_mem _ hmem, ?_⟩
      have hne : n ≠ m := fun he => hna (he ▸ hmem)
      rw [List.idxOf_cons_self, List.idxOf_cons_ne _ hne]
      omega
    · refine (ih h.2 hd' hn).imp_right fun ⟨hmem, hlt⟩ => ⟨List.mem_cons_of_mem _ hmem, ?_⟩
      have hne : a ≠ n := fun he => hna (he ▸ hn)
      have hma : a ≠ m := fun he => hna (he ▸ hmem)
      rw [List.idxOf_cons_ne _ hne, List.idxOf_cons_ne _ hma]
      omega

/-- What a finished node leads to is finished, unless it waits. -/
theorem Search.Sound.next_mem {next : N → List N} {all path : List N} {s : Search N}
    (h : s.Sound next all path) {n m : N} (hn : n ∈ s.finished) (hm : m ∈ next n)
    (hpath : m ∉ path) : m ∈ s.finished := by
  rcases h.ordered.idxOf_lt h.nodup hn hm with hback | ⟨hmem, -⟩
  · exact (h.met _ hback).resolve_left hpath
  · exact hmem

section First

variable {next : N → List N} {all : List N}

/-- A visit of a node finds every edge that leads back to it from a node that it reaches without the
nodes that wait. -/
theorem mem_back_visit (hnext : ∀ x ∈ all, next x ⊆ all) {fuel : Nat} {path : List N} {start n : N}
    {s : Search N} (hd : (start :: path).Nodup) (hsub : start :: path ⊆ all)
    (hfuel : all.length ≤ fuel + path.length) (hs : s.Sound next all (start :: path))
    (hreach : Relation.ReflTransGen (fun a b => b ∈ next a ∧ b ∉ path) start n)
    (hn : start ∈ next n) : (n, start) ∈ (visit next fuel path start s).back := by
  have hpos := fuel_pos hd hsub hfuel
  obtain ⟨fuel, rfl⟩ : ∃ k, fuel = k + 1 := ⟨fuel - 1, by omega⟩
  obtain ⟨hsound, -, hfinished⟩ := visit_sound hnext (fuel + 1) path start s hd hsub hfuel hs
  have hnmem : n ∈ (visit next (fuel + 1) path start s).finished := by
    clear hn
    induction hreach with
    | refl => exact hfinished
    | tail _ hstep ih => exact hsound.next_mem ih hstep.1 hstep.2
  -- the node of the visit is the last one that it finishes
  refine (hsound.ordered.idxOf_lt hsound.nodup hnmem hn).resolve_right fun hlater => ?_
  have hlast : (visit next (fuel + 1) path start s).finished.idxOf start = 0 :=
    List.idxOf_cons_self
  omega

/-- A search that starts at a node finds every edge that leads back to it from a node that it
reaches. -/
theorem mem_back_of_start (hnext : ∀ x ∈ all, next x ⊆ all) {fuel : Nat}
    (hfuel : all.length ≤ fuel) {start n : N} {rest : List N} (hstart : start :: rest ⊆ all)
    (hreach : Relation.ReflTransGen (fun a b => b ∈ next a) start n) (hn : start ∈ next n) :
    (n, start) ∈ (depthFirst next fuel (start :: rest)).back := by
  obtain ⟨hmem, hrest⟩ := List.cons_subset.1 hstart
  have hd : [start].Nodup := List.pairwise_singleton _ start
  have hsub : [start] ⊆ all := List.cons_subset.2 ⟨hmem, List.nil_subset _⟩
  have hsound := (sound_empty next all).enter (n := start) List.not_mem_nil
  have hback : (n, start) ∈ (visit next fuel [] start ⟨[], []⟩).back :=
    mem_back_visit hnext hd hsub (by simpa using hfuel) hsound
      (Relation.ReflTransGen.mono (fun _ _ h => ⟨h, List.not_mem_nil⟩) _ _ hreach) hn
  obtain ⟨hsound', -, -⟩ := visit_sound hnext fuel [] start _ hd hsub (by simpa using hfuel) hsound
  obtain ⟨-, hgrows, -⟩ := foldl_restart_sound hnext hfuel rest hrest _ hsound'
  exact hgrows.back hback

end First

/-! ## Cycles -/

section Cycles

variable {next : N → List N}

/-- The end of each recorded edge leads to its start. -/
def Search.Closes (next : N → List N) (s : Search N) : Prop :=
  ∀ edge ∈ s.back, Relation.ReflTransGen (fun a b => b ∈ next a) edge.2 edge.1

/-- Each recorded edge to a node closes a cycle that keeps off some nodes. -/
def Search.ClosesAt (next : N → List N) (off : List N) (target : N) (s : Search N) : Prop :=
  ∀ a, (a, target) ∈ s.back →
    Relation.ReflTransGen (fun x y => y ∈ next x ∧ y ∉ off) target a

private theorem foldl_follow_closesAt {off : List N} {target : N} {fuel : Nat} {path : List N}
    {n : N} (hoff : off ⊆ n :: path)
    (hpath : target ∈ n :: path →
      Relation.ReflTransGen (fun x y => y ∈ next x ∧ y ∉ off) target n)
    (ih : ∀ m (s : Search N), off ⊆ m :: n :: path →
      (target ∈ m :: n :: path →
        Relation.ReflTransGen (fun x y => y ∈ next x ∧ y ∉ off) target m) →
      s.ClosesAt next off target → (visit next fuel (n :: path) m s).ClosesAt next off target)
    (ms : List N) (hms : ms ⊆ next n) (s : Search N) (hs : s.ClosesAt next off target) :
    (ms.foldl (follow next fuel path n) s).ClosesAt next off target := by
  induction ms generalizing s with
  | nil => exact hs
  | cons m rest ihms =>
    obtain ⟨hm, hrest⟩ := List.cons_subset.1 hms
    refine ihms hrest _ ?_
    rw [follow]
    split
    · rename_i hmem
      intro a ha
      rcases mem_back_record.1 ha with ha | heq
      · exact hs a ha
      · cases heq
        exact hpath hmem
    · rename_i hmem
      split
      · exact hs
      · refine ih m s (List.subset_cons_of_subset m hoff) (fun htarget => ?_) hs
        rcases List.mem_cons.1 htarget with rfl | htarget
        · exact .refl
        · exact (hpath htarget).tail ⟨hm, fun hin => hmem (hoff hin)⟩

/-- A visit records only edges that close a cycle off the nodes that waited for it, if the target of
these edges leads to the node that is visited as soon as it is on the path. -/
theorem visit_closesAt {off : List N} {target : N} (fuel : Nat) (path : List N) (n : N)
    (s : Search N) (hoff : off ⊆ n :: path)
    (hpath : target ∈ n :: path →
      Relation.ReflTransGen (fun x y => y ∈ next x ∧ y ∉ off) target n)
    (hs : s.ClosesAt next off target) : (visit next fuel path n s).ClosesAt next off target := by
  induction fuel generalizing path n s with
  | zero => exact hs
  | succ fuel ih =>
    rw [visit_succ]
    exact foldl_follow_closesAt hoff hpath (ih (n :: path)) (next n) (List.Subset.refl _) s hs

theorem depthFirst_closes (next : N → List N) (fuel : Nat) (starts : List N) :
    (depthFirst next fuel starts).Closes next := by
  rintro ⟨a, target⟩ hedge
  have hcloses : (depthFirst next fuel starts).ClosesAt next [] target := by
    rw [depthFirst_eq]
    refine List.foldlRecOn starts (restart next fuel) (motive := Search.ClosesAt next [] target)
      (fun _ h => absurd h List.not_mem_nil) fun s hs n _ => ?_
    rw [restart]
    split
    · exact hs
    · refine visit_closesAt fuel [] n s (List.nil_subset _) (fun hmem => ?_) hs
      rw [List.mem_singleton.1 hmem]
  exact Relation.ReflTransGen.mono (fun _ _ h => h.1) _ _ (hcloses a hedge)

end Cycles

section Graphs

variable {E : Type v} [Ord N] [Std.TransOrd N] [Std.LawfulEqOrd N] {g : Multigraph N E}

private theorem search_sound (g : Multigraph N E) :
    (depthFirst g.successors g.nodes.length g.sortedNodes).Sound g.successors g.nodes [] ∧
      g.sortedNodes ⊆ (depthFirst g.successors g.nodes.length g.sortedNodes).finished :=
  depthFirst_sound (fun _ _ _ hb => (mem_successors_iff.1 hb).dst_mem) (Nat.le_refl _)
    fun _ hn => mem_sortedNodes.1 hn

/-- A back edge is an edge. -/
theorem leads_of_mem_backEdges {a b : N} (h : (a, b) ∈ g.backEdges) : g.Leads a b :=
  mem_successors_iff.1 ((search_sound g).1.back_mem _ h)

/-- The nodes can be numbered so that every edge that is not a back edge ascends. -/
theorem exists_rank (g : Multigraph N E) :
    ∃ rank : N → Nat, (∀ n, rank n ≤ g.nodes.length) ∧
      ∀ a b, g.Leads a b → (a, b) ∈ g.backEdges ∨ rank a < rank b := by
  obtain ⟨hsound, hall⟩ := search_sound g
  refine ⟨fun n => (depthFirst g.successors g.nodes.length g.sortedNodes).finished.idxOf n,
    fun n => ?_, fun a b hab => ?_⟩
  · have hle := (List.subperm_of_subset hsound.nodup hsound.subset).length_le
    exact Nat.le_trans List.idxOf_le_length hle
  · have ha := hall (mem_sortedNodes.2 hab.src_mem)
    exact (hsound.ordered.idxOf_lt hsound.nodup ha (mem_successors_iff.2 hab)).imp_right And.right

omit [Std.LawfulEqOrd N] in
/-- A back edge closes a cycle. -/
theorem reaches_of_mem_backEdges {a b : N} (h : (a, b) ∈ g.backEdges) : g.Reaches b a :=
  Relation.ReflTransGen.mono (fun _ _ h => mem_successors_iff.1 h) _ _
    (depthFirst_closes g.successors g.nodes.length g.sortedNodes (a, b) h)

/-- A cycle has a back edge. -/
theorem exists_mem_backEdges {x y : N} (hxy : g.Leads x y) (hyx : g.Reaches y x) :
    ∃ a b, (a, b) ∈ g.backEdges ∧ g.Reaches b y := by
  obtain ⟨rank, -, hrank⟩ := exists_rank g
  by_contra hnone
  have hlt : ∀ a b, g.Leads a b → g.Reaches b y → rank a < rank b := fun a b hab hb =>
    (hrank a b hab).resolve_left fun hback => hnone ⟨a, b, hback, hb⟩
  -- every edge of the cycle would ascend
  have hle : ∀ z, g.Reaches y z → g.Reaches z y → rank y ≤ rank z := by
    intro z hyz
    induction hyz with
    | refl => exact fun _ => Nat.le_refl _
    | tail _ hstep ih =>
      exact fun hz => Nat.le_trans (ih (hz.head hstep)) (Nat.le_of_lt (hlt _ _ hstep hz))
  exact absurd (hlt x y hxy .refl) (Nat.not_lt.2 (hle x hyx (.single hxy)))

end Graphs

/-! ## A part of the graph -/

/-- The successors inside a part of the graph. -/
def inside (keep : N → Bool) (next : N → List N) (n : N) : List N := (next n).filter keep

/-- What a search has seen inside a part of the graph. -/
def Search.project (keep : N → Bool) (s : Search N) : Search N where
  finished := s.finished.filter keep
  back := s.back.filter fun edge => keep edge.2

section Project

variable {keep : N → Bool} {next : N → List N}

theorem project_record_of_keep {s : Search N} {n m : N} (hm : keep m = true) :
    (s.record (n, m)).project keep = (s.project keep).record (n, m) := by
  have hmem : (n, m) ∈ s.back ↔ (n, m) ∈ (s.project keep).back := by
    rw [Search.project, List.mem_filter]
    exact ⟨fun h => ⟨h, hm⟩, And.left⟩
  rw [Search.record, Search.record]
  by_cases h : (n, m) ∈ s.back
  · rw [if_pos h, if_pos (hmem.1 h)]
  · rw [if_neg h, if_neg fun h' => h (hmem.2 h')]
    simp [Search.project, List.filter_append, hm]

theorem project_record_of_not_keep {s : Search N} {n m : N} (hm : keep m = false) :
    (s.record (n, m)).project keep = s.project keep := by
  rw [Search.record]
  split
  · rfl
  · simp [Search.project, List.filter_append, hm]

/-- A visit outside the part leaves no trace in it, because no edge leads into the part. -/
theorem project_visit_of_not_keep (hclosed : ∀ a, ∀ b ∈ next a, keep b = true → keep a = true)
    (fuel : Nat) (path : List N) (n : N) (s : Search N) (hn : keep n = false) :
    (visit next fuel path n s).project keep = s.project keep := by
  induction fuel generalizing path n s with
  | zero => rfl
  | succ fuel ih =>
    have hout : ∀ m ∈ next n, keep m = false := by
      intro m hm
      by_contra hk
      rw [hclosed n m hm (by simpa using hk)] at hn
      cases hn
    have hfold : ∀ (ms : List N) (s : Search N), (∀ m ∈ ms, keep m = false) →
        (ms.foldl (follow next fuel path n) s).project keep = s.project keep := by
      intro ms
      induction ms with
      | nil => exact fun s _ => rfl
      | cons m rest ihms =>
        intro s hms
        obtain ⟨hm, hrest⟩ := List.forall_mem_cons.1 hms
        rw [List.foldl_cons, ihms _ hrest, follow]
        split
        · exact project_record_of_not_keep hm
        · split
          · rfl
          · exact ih (n :: path) m s hm
    rw [visit_succ, ← hfold (next n) s hout]
    simp [Search.project, hn]

/-- Inside the part, a visit is a visit of the part. -/
theorem project_visit_of_keep (hclosed : ∀ a, ∀ b ∈ next a, keep b = true → keep a = true)
    (fuel : Nat) (path : List N) (n : N) (s : Search N) (hn : keep n = true) :
    (visit next fuel path n s).project keep =
      visit (inside keep next) fuel path n (s.project keep) := by
  induction fuel generalizing path n s with
  | zero => rfl
  | succ fuel ih =>
    have hfollow : ∀ (s : Search N) (m : N), keep m = true →
        (follow next fuel path n s m).project keep =
          follow (inside keep next) fuel path n (s.project keep) m := by
      intro s m hm
      have hfin : m ∈ s.finished ↔ m ∈ (s.project keep).finished := by
        rw [Search.project, List.mem_filter]
        exact ⟨fun h => ⟨h, hm⟩, And.left⟩
      rw [follow, follow]
      by_cases hpath : m ∈ n :: path
      · rw [if_pos hpath, if_pos hpath, project_record_of_keep hm]
      · rw [if_neg hpath, if_neg hpath]
        by_cases h : m ∈ s.finished
        · rw [if_pos h, if_pos (hfin.1 h)]
        · rw [if_neg h, if_neg fun h' => h (hfin.2 h'), ih (n :: path) m s hm]
    have hskip : ∀ (s : Search N) (m : N), keep m = false →
        (follow next fuel path n s m).project keep = s.project keep := by
      intro s m hm
      rw [follow]
      split
      · exact project_record_of_not_keep hm
      · split
        · rfl
        · exact project_visit_of_not_keep hclosed fuel (n :: path) m s hm
    have hfold : ∀ (ms : List N) (s : Search N),
        (ms.foldl (follow next fuel path n) s).project keep =
          (ms.filter keep).foldl (follow (inside keep next) fuel path n) (s.project keep) := by
      intro ms
      induction ms with
      | nil => exact fun s => rfl
      | cons m rest ihms =>
        intro s
        rw [List.foldl_cons, ihms]
        cases hm : keep m with
        | true => rw [hfollow s m hm, List.filter_cons_of_pos hm, List.foldl_cons]
        | false => rw [hskip s m hm, List.filter_cons_of_neg (by simp [hm])]
    rw [visit_succ, visit_succ]
    have hfold' := hfold (next n) s
    rw [inside, ← hfold']
    simp [Search.project, hn]

theorem project_depthFirst (hclosed : ∀ a, ∀ b ∈ next a, keep b = true → keep a = true)
    (fuel : Nat) (starts : List N) :
    (depthFirst next fuel starts).project keep =
      depthFirst (inside keep next) fuel (starts.filter keep) := by
  have hfold : ∀ (starts : List N) (s : Search N),
      (starts.foldl (restart next fuel) s).project keep =
        (starts.filter keep).foldl (restart (inside keep next) fuel) (s.project keep) := by
    intro starts
    induction starts with
    | nil => exact fun s => rfl
    | cons n rest ih =>
      intro s
      rw [List.foldl_cons, ih]
      cases hn : keep n with
      | true =>
        have hfin : n ∈ s.finished ↔ n ∈ (s.project keep).finished := by
          rw [Search.project, List.mem_filter]
          exact ⟨fun h => ⟨h, hn⟩, And.left⟩
        rw [List.filter_cons_of_pos hn, List.foldl_cons, restart, restart]
        by_cases h : n ∈ s.finished
        · rw [if_pos h, if_pos (hfin.1 h)]
        · rw [if_neg h, if_neg fun h' => h (hfin.2 h'),
            project_visit_of_keep hclosed fuel [] n s hn]
      | false =>
        rw [List.filter_cons_of_neg (by simp [hn]), restart]
        split
        · rfl
        · rw [project_visit_of_not_keep hclosed fuel [] n s hn]
  rw [depthFirst_eq, depthFirst_eq, hfold]
  rfl

end Project

/-! ## The fuel of a search -/

section Fuel

variable {next : N → List N} (all : List N)

/-- Extra fuel changes nothing in a visit, as soon as there is enough for every node that is not on
the path. -/
theorem visit_fuel (hnext : ∀ x ∈ all, next x ⊆ all) {fuel fuel' : Nat} {path : List N} {n : N}
    (hd : (n :: path).Nodup) (hsub : n :: path ⊆ all)
    (hfuel : all.length ≤ fuel + path.length) (hle : fuel ≤ fuel') (s : Search N) :
    visit next fuel' path n s = visit next fuel path n s := by
  induction fuel generalizing fuel' path n s with
  | zero => exact absurd (fuel_pos hd hsub hfuel) (Nat.lt_irrefl 0)
  | succ fuel ih =>
    obtain ⟨fuel', rfl⟩ : ∃ k, fuel' = k + 1 := ⟨fuel' - 1, by omega⟩
    have hlen : all.length ≤ fuel + (n :: path).length := by
      rw [List.length_cons]
      omega
    have hfollow : ∀ (s : Search N), ∀ m ∈ next n,
        follow next fuel' path n s m = follow next fuel path n s m := by
      intro s m hm
      rw [follow, follow]
      split
      · rfl
      · rename_i hpath
        split
        · rfl
        · have hmall : m ∈ all := hnext n (hsub List.mem_cons_self) hm
          exact ih (List.nodup_cons.2 ⟨hpath, hd⟩) (List.cons_subset.2 ⟨hmall, hsub⟩) hlen
            (by omega) s
    have hfold : (next n).foldl (follow next fuel' path n) s =
        (next n).foldl (follow next fuel path n) s :=
      List.foldl_ext _ _ _ fun s m hm => hfollow s m hm
    rw [visit_succ, visit_succ, hfold]

theorem depthFirst_fuel (hnext : ∀ x ∈ all, next x ⊆ all) {fuel fuel' : Nat} {starts : List N}
    (hstarts : starts ⊆ all) (hfuel : all.length ≤ fuel) (hle : fuel ≤ fuel') :
    depthFirst next fuel' starts = depthFirst next fuel starts := by
  rw [depthFirst_eq, depthFirst_eq]
  refine List.foldl_ext _ _ _ fun s n hn => ?_
  rw [restart, restart]
  split
  · rfl
  · exact visit_fuel all hnext (List.pairwise_singleton _ n)
      (List.cons_subset.2 ⟨hstarts hn, List.nil_subset _⟩) (by simpa using hfuel) hle s

end Fuel

section Parts

variable {E : Type v} [Ord N] [Std.TransOrd N] [Std.LawfulEqOrd N] {g g' : Multigraph N E}
  {keep : N → Bool}

/-- Two graphs have the same back edges into a part if they agree on its nodes and on the edges
inside it, in order, and no edge leads into it from outside. -/
theorem backEdges_filter_eq (hclosed : ∀ a b, g.Leads a b → keep b = true → keep a = true)
    (hclosed' : ∀ a b, g'.Leads a b → keep b = true → keep a = true)
    (hnodes : ∀ n, keep n = true → (n ∈ g.nodes ↔ n ∈ g'.nodes))
    (hnext : ∀ n, keep n = true →
      (g.successors n).filter keep = (g'.successors n).filter keep)
    (hlen : g.nodes.length ≤ g'.nodes.length) :
    (g.backEdges.filter fun edge => keep edge.2) =
      g'.backEdges.filter fun edge => keep edge.2 := by
  have hinside : inside keep g.successors = inside keep g'.successors := by
    funext n
    cases hn : keep n with
    | true => exact hnext n hn
    | false =>
      have hnone : ∀ h : Multigraph N E, (∀ a b, h.Leads a b → keep b = true → keep a = true) →
          inside keep h.successors n = [] := by
        intro h hc
        refine List.filter_eq_nil_iff.2 fun m hm hk => ?_
        rw [hc n m (mem_successors_iff.1 hm) hk] at hn
        cases hn
      rw [hnone g hclosed, hnone g' hclosed']
  have hstarts : g.sortedNodes.filter keep = g'.sortedNodes.filter keep := by
    refine OrdSet.filter_toList_eq fun n hn => ?_
    rw [OrdSet.mem_ofList, OrdSet.mem_ofList]
    exact hnodes n hn
  have hproj := project_depthFirst
    (fun a b hb => hclosed a b (mem_successors_iff.1 hb)) g.nodes.length g.sortedNodes
  have hproj' := project_depthFirst
    (fun a b hb => hclosed' a b (mem_successors_iff.1 hb)) g'.nodes.length g'.sortedNodes
  have hfuel : depthFirst (inside keep g.successors) g'.nodes.length (g.sortedNodes.filter keep) =
      depthFirst (inside keep g.successors) g.nodes.length (g.sortedNodes.filter keep) := by
    refine depthFirst_fuel g.nodes ?_ ?_ (Nat.le_refl _) hlen
    · intro a _ b hb
      exact (mem_successors_iff.1 (List.mem_filter.1 hb).1).dst_mem
    · intro n hn
      exact mem_sortedNodes.1 (List.mem_filter.1 hn).1
  have heq : (depthFirst g.successors g.nodes.length g.sortedNodes).project keep =
      (depthFirst g'.successors g'.nodes.length g'.sortedNodes).project keep := by
    rw [hproj, hproj', ← hinside, ← hstarts, hfuel]
  exact congrArg Search.back heq

omit [DecidableEq N] [Std.TransOrd N] [Std.LawfulEqOrd N] in
theorem exists_cons_of_first {l : List N} (hl : l.Pairwise fun a b => compare a b = .lt) {n : N}
    (hn : n ∈ l) (hfirst : ∀ x ∈ l, compare x n ≠ .lt) : ∃ rest, l = n :: rest := by
  cases l with
  | nil => exact absurd hn List.not_mem_nil
  | cons a rest =>
    rcases List.mem_cons.1 hn with rfl | hmem
    · exact ⟨rest, rfl⟩
    · exact absurd (List.rel_of_pairwise_cons hl hmem) (hfirst a List.mem_cons_self)

/-- If a node reaches all nodes that reach it, and none of them comes before it in the order, then
every edge into it is a back edge. -/
theorem mem_backEdges_of_first {start n : N} (hback : ∀ x, g.Reaches x start → g.Reaches start x)
    (hfirst : ∀ x, g.Reaches x start → compare x start ≠ .lt) (hn : g.Leads n start) :
    (n, start) ∈ g.backEdges := by
  classical
  let keep : N → Bool := fun x => decide (g.Reaches x start)
  have hkeep : ∀ {x}, keep x = true ↔ g.Reaches x start := decide_eq_true_iff
  have hclosed : ∀ a, ∀ b ∈ g.successors a, keep b = true → keep a = true := fun a b hb hk =>
    hkeep.2 ((hkeep.1 hk).head (mem_successors_iff.1 hb))
  have hsorted : (g.sortedNodes.filter keep).Pairwise fun a b => compare a b = .lt :=
    (OrdSet.ascending_toList _).filter keep
  have hmem : start ∈ g.sortedNodes.filter keep :=
    List.mem_filter.2 ⟨mem_sortedNodes.2 hn.dst_mem, hkeep.2 .refl⟩
  obtain ⟨rest, hstarts⟩ := exists_cons_of_first hsorted hmem fun x hx =>
    hfirst x (hkeep.1 (List.mem_filter.1 hx).2)
  have hproj := project_depthFirst hclosed g.nodes.length g.sortedNodes
  rw [hstarts] at hproj
  have hsub : start :: rest ⊆ g.nodes := by
    rw [← hstarts]
    exact fun x hx => mem_sortedNodes.1 (List.mem_filter.1 hx).1
  -- what lies on the way to the source of the edge also reaches the node
  have hroute : ∀ a, g.Reaches a n →
      Relation.ReflTransGen (fun a b => b ∈ inside keep g.successors a) a n := by
    intro a ha
    induction ha using Relation.ReflTransGen.head_induction_on with
    | refl => exact .refl
    | head hstep hrest ih =>
      exact ih.head (List.mem_filter.2 ⟨mem_successors_iff.2 hstep, hkeep.2 (hrest.tail hn)⟩)
  have hedge : start ∈ inside keep g.successors n :=
    List.mem_filter.2 ⟨mem_successors_iff.2 hn, hkeep.2 .refl⟩
  have hnext : ∀ a ∈ g.nodes, inside keep g.successors a ⊆ g.nodes := fun a _ b hb =>
    (mem_successors_iff.1 (List.mem_filter.1 hb).1).dst_mem
  have hfound := mem_back_of_start hnext (Nat.le_refl _) hsub (hroute start (hback n (.single hn)))
    hedge
  rw [← hproj] at hfound
  exact (List.mem_filter.1 hfound).1

end Parts

end Demanded.Multigraph
