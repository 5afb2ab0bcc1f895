import Demanded.Proofs.InsertedPaths

/-!
# Loop heads stay loop heads

An insertion at a loop head lets its forward edges lead to a fresh location, from which the new
statement leads to the head.  The edges that are moved come first among the edges of their sources,
so the search for back edges takes other ways than before.  It still finds the back edges of the
head.

* The old search and the new one do the same until one of them meets the head.  The new search meets
  it as soon as it visits a node with a moved edge, or the fresh node, since what it follows first
  there leads to the head.  The old search has visited no fewer nodes when it meets the head.
  `Detour` says how the two graphs are related, and `InStep` how the two searches are.
* A back edge of the head starts at a node that the head reaches without the nodes on the path to it
  (`visit_closesAt`).  Fewer nodes are on the path of the new search, so the head still reaches this
  node, and the new search finds the edge (`mem_back_visit`).

The main result is `FlowGraph.addStmtAt_keeps_loopHead`.
-/

namespace Demanded

universe u v

namespace Multigraph

variable {N : Type u} [DecidableEq N]

/-! ## What later steps of a search keep -/

section Later

variable {next : N → List N}

theorem follow_grows {fuel : Nat} {path : List N} {n : N}
    (ih : ∀ m (s : Search N), s.Grows (visit next fuel (n :: path) m s)) (s : Search N) (m : N) :
    s.Grows (follow next fuel path n s m) := by
  rw [follow]
  split
  · exact ⟨by simp, fun e he => mem_back_record.2 (.inl he)⟩
  · split
    · exact .refl s
    · exact ih m s

omit [DecidableEq N] in
theorem foldl_grows {step : Search N → N → Search N}
    (hstep : ∀ (s : Search N) m, s.Grows (step s m)) (ms : List N) (s : Search N) :
    s.Grows (ms.foldl step s) := by
  induction ms generalizing s with
  | nil => exact .refl s
  | cons m rest ih => exact (hstep s m).trans (ih _)

theorem visit_grows (fuel : Nat) (path : List N) (n : N) (s : Search N) :
    s.Grows (visit next fuel path n s) := by
  induction fuel generalizing path n s with
  | zero => exact .refl s
  | succ fuel ih =>
    rw [visit_succ]
    have hfold := foldl_grows (follow_grows (ih (n :: path))) (next n) s
    exact ⟨List.Subset.trans hfold.finished (List.subset_cons_self _ _), hfold.back⟩

theorem restart_grows (fuel : Nat) (s : Search N) (n : N) : s.Grows (restart next fuel s n) := by
  rw [restart]
  split
  · exact .refl s
  · exact visit_grows fuel [] n s

/-- A step records no further edges to a node once this is finished. -/
def Settles (step : Search N → N → Search N) (target : N) : Prop :=
  ∀ s m a, target ∈ s.finished → (a, target) ∈ (step s m).back → (a, target) ∈ s.back

omit [DecidableEq N] in
theorem Settles.foldl {step : Search N → N → Search N} {target : N} (h : Settles step target)
    (hgrows : ∀ (s : Search N) m, s.Grows (step s m)) (ms : List N) {s : Search N} {a : N}
    (hfin : target ∈ s.finished) (ha : (a, target) ∈ (ms.foldl step s).back) :
    (a, target) ∈ s.back := by
  induction ms generalizing s with
  | nil => exact ha
  | cons m rest ih => exact h s m a hfin (ih ((hgrows s m).finished hfin) ha)

theorem follow_settles {fuel : Nat} {path : List N} {n target : N} (hpath : target ∉ n :: path)
    (ih : ∀ m (s : Search N) a, target ∉ m :: n :: path → target ∈ s.finished →
      (a, target) ∈ (visit next fuel (n :: path) m s).back → (a, target) ∈ s.back) :
    Settles (follow next fuel path n) target := by
  intro s m a hfin ha
  rw [follow] at ha
  split at ha
  · rename_i hmem
    rcases mem_back_record.1 ha with ha | heq
    · exact ha
    · cases heq
      exact absurd hmem hpath
  · split at ha
    · exact ha
    · rename_i hm
      refine ih m s a (fun hmem => ?_) hfin ha
      rcases List.mem_cons.1 hmem with rfl | hmem
      · exact hm hfin
      · exact hpath hmem

theorem visit_settles (fuel : Nat) (path : List N) (n : N) (s : Search N) {target a : N}
    (hpath : target ∉ n :: path) (hfin : target ∈ s.finished)
    (ha : (a, target) ∈ (visit next fuel path n s).back) : (a, target) ∈ s.back := by
  induction fuel generalizing path n s a with
  | zero => exact ha
  | succ fuel ih =>
    have hsettles : Settles (follow next fuel path n) target :=
      follow_settles hpath fun m s a hpath hfin => ih (n :: path) m s hpath hfin
    exact hsettles.foldl (follow_grows fun m s => visit_grows fuel (n :: path) m s) (next n) hfin ha

theorem restart_settles (fuel : Nat) (target : N) : Settles (restart next fuel) target := by
  intro s n a hfin ha
  rw [restart] at ha
  split at ha
  · exact ha
  · rename_i hn
    refine visit_settles fuel [] n s (fun hmem => ?_) hfin ha
    rw [List.mem_singleton.1 hmem] at hfin
    exact hn hfin

end Later

/-! ## Two searches in step -/

variable {E : Type v}

/-- How a graph changes when some edges to a node lead there through a fresh node instead: the nodes
with such edges lead to the fresh node first, the edges of all others are as before, and no edge to
another node is lost. -/
structure Detour (g g' : Multigraph N E) (head fresh : N) : Prop where
  head_mem : head ∈ g.nodes
  fresh_notMem : fresh ∉ g.nodes
  mem_nodes : ∀ x, x ∈ g'.nodes ↔ x ∈ g.nodes ∨ x = fresh
  next_fresh : g'.successors fresh = [head]
  next_cases : ∀ n ∈ g.nodes, g'.successors n = g.successors n ∨
    head ∈ g.successors n ∧ ∃ rest, g'.successors n = fresh :: rest
  kept : ∀ a b, g.Leads a b → b ≠ head → g'.Leads a b

/-- A search has not met the head, whichever of the two graphs it searches. -/
structure Search.Awaits (g g' : Multigraph N E) (head : N) (path : List N) (s : Search N) :
    Prop where
  unmet : head ∉ s.finished
  sound : s.Sound g.successors g.nodes path
  sound' : s.Sound g'.successors g'.nodes path

/-- The first search is through with the head, and the second one has recorded the edges to it that
the first one has, if they are left. -/
structure Search.Matched (g' : Multigraph N E) (head : N) (s s' : Search N) : Prop where
  met : head ∈ s.finished
  back : ∀ a, g'.Leads a head → (a, head) ∈ s.back → (a, head) ∈ s'.back

/-- The searches have seen the same and not the head, or the head is done with. -/
def Search.InStep (g g' : Multigraph N E) (head : N) (path : List N) (s s' : Search N) : Prop :=
  s' = s ∧ s.Awaits g g' head path ∨ s.Matched g' head s'

theorem next_subset_nodes (g : Multigraph N E) : ∀ n ∈ g.nodes, g.successors n ⊆ g.nodes :=
  fun _ _ _ hm => (mem_successors_iff.1 hm).dst_mem

section Detours

variable {g g' : Multigraph N E} {path : List N} {head fresh : N} {s s' t t' : Search N}

omit [DecidableEq N] in
theorem Search.Matched.later (h : s.Matched g' head s') (hgrows : s.Grows t)
    (hsettled : ∀ a, (a, head) ∈ t.back → (a, head) ∈ s.back) (hgrows' : s'.Grows t') :
    t.Matched g' head t' where
  met := hgrows.finished h.met
  back a ha hback := hgrows'.back (h.back a ha (hsettled a hback))

/-- Searches stay in step over a list of nodes if they do at each of them. -/
theorem Search.InStep.foldl {step step' : Search N → N → Search N}
    (hgrows : ∀ (s : Search N) m, s.Grows (step s m))
    (hgrows' : ∀ (s : Search N) m, s.Grows (step' s m)) (hsettles : Settles step head)
    {ms : List N}
    (hstep : ∀ s, s.Awaits g g' head path → ∀ m ∈ ms,
      (step s m).InStep g g' head path (step' s m))
    (hs : s.Awaits g g' head path) :
    (ms.foldl step s).InStep g g' head path (ms.foldl step' s) := by
  induction ms generalizing s with
  | nil => exact .inl ⟨rfl, hs⟩
  | cons m rest ih =>
    rw [List.foldl_cons, List.foldl_cons]
    rcases hstep s hs m List.mem_cons_self with ⟨heq, hs⟩ | hmatched
    · rw [heq]
      exact ih (fun s hs m hm => hstep s hs m (List.mem_cons_of_mem _ hm)) hs
    · exact .inr (hmatched.later (foldl_grows hgrows rest _)
        (fun a ha => hsettles.foldl hgrows rest hmatched.met ha) (foldl_grows hgrows' rest _))

theorem Search.Awaits.not_mem_back (hs : s.Awaits g g' head path) (hpath : head ∉ path) (a : N) :
    (a, head) ∉ s.back := by
  intro ha
  rcases hs.sound.met _ ha with hin | hin
  · exact hpath hin
  · exact hs.unmet hin

/-- The old search records edges to the head only from nodes that the head reaches off the path on
which it was not met. -/
theorem Search.Awaits.reach_of_mem_back (hs : s.Awaits g g' head path) (hpath : head ∉ path)
    {fuel : Nat} {waiting : List N} {n a : N} (hoff : path ⊆ n :: waiting) (hwait : head ∉ waiting)
    (ha : (a, head) ∈ (visit g.successors fuel waiting n s).back) :
    Relation.ReflTransGen (fun x y => y ∈ g.successors x ∧ y ∉ path) head a := by
  refine visit_closesAt fuel waiting n s hoff (fun hmem => ?_)
    (fun a ha => absurd ha (hs.not_mem_back hpath a)) a ha
  rcases List.mem_cons.1 hmem with rfl | hmem
  · exact .refl
  · exact absurd hmem hwait

namespace Detour

theorem subset_nodes (h : Detour g g' head fresh) : g.nodes ⊆ g'.nodes :=
  fun x hx => (h.mem_nodes x).2 (.inl hx)

theorem length_nodes (h : Detour g g' head fresh) : g'.nodes.length = g.nodes.length + 1 := by
  have hd : (fresh :: g.nodes).Nodup := List.nodup_cons.2 ⟨h.fresh_notMem, g.nodup⟩
  have hperm : g'.nodes.Perm (fresh :: g.nodes) := by
    refine (List.perm_ext_iff_of_nodup g'.nodup hd).2 fun x => ?_
    rw [h.mem_nodes, List.mem_cons, or_comm]
  exact hperm.length_eq

/-- A cycle at the head off some nodes is left in the new graph, since it meets the head only at its
ends. -/
theorem reach (h : Detour g g' head fresh) {off : List N} {a : N}
    (hreach : Relation.ReflTransGen (fun x y => y ∈ g.successors x ∧ y ∉ off) head a) :
    Relation.ReflTransGen (fun x y => y ∈ g'.successors x ∧ y ∉ fresh :: off) head a := by
  induction hreach with
  | refl => exact .refl
  | @tail x y _ hstep ih =>
    by_cases hhead : y = head
    · rw [hhead]
    · have hedge := mem_successors_iff.1 hstep.1
      refine ih.tail ⟨mem_successors_iff.2 (h.kept x y hedge hhead), fun hin => ?_⟩
      rcases List.mem_cons.1 hin with rfl | hin
      · exact h.fresh_notMem hedge.dst_mem
      · exact hstep.2 hin

/-- A search that goes on from the fresh node meets the head next, and then finds the edges to
it. -/
theorem mem_back_fresh (h : Detour g g' head fresh) {fuel : Nat} {a : N} (hd : path.Nodup)
    (hsub : path ⊆ g.nodes) (hfuel : g'.nodes.length ≤ fuel + path.length) (hpath : head ∉ path)
    (hs : s.Awaits g g' head path)
    (hreach : Relation.ReflTransGen (fun x y => y ∈ g.successors x ∧ y ∉ path) head a)
    (ha : g'.Leads a head) : (a, head) ∈ (visit g'.successors fuel path fresh s).back := by
  have hfresh : fresh ∉ path := fun hin => h.fresh_notMem (hsub hin)
  have hd₁ : (fresh :: path).Nodup := List.nodup_cons.2 ⟨hfresh, hd⟩
  have hsub₁ : fresh :: path ⊆ g'.nodes :=
    List.cons_subset.2 ⟨(h.mem_nodes fresh).2 (.inr rfl),
      List.Subset.trans hsub h.subset_nodes⟩
  have hpos := fuel_pos hd₁ hsub₁ hfuel
  obtain ⟨fuel, rfl⟩ : ∃ k, fuel = k + 1 := ⟨fuel - 1, by omega⟩
  have hhead : head ∉ fresh :: path := by
    intro hin
    rcases List.mem_cons.1 hin with rfl | hin
    · exact h.fresh_notMem h.head_mem
    · exact hpath hin
  have hunseen : fresh ∉ s.finished := fun hin => h.fresh_notMem (hs.sound.subset hin)
  rw [visit_succ, h.next_fresh]
  show (a, head) ∈ (follow g'.successors fuel path fresh s head).back
  rw [follow, if_neg hhead, if_neg hs.unmet]
  apply mem_back_visit g'.next_subset_nodes
  · exact List.nodup_cons.2 ⟨hhead, hd₁⟩
  · exact List.cons_subset.2 ⟨h.subset_nodes h.head_mem, hsub₁⟩
  · rw [List.length_cons]
    omega
  · exact (hs.sound'.enter hunseen).enter hs.unmet
  · exact h.reach hreach
  · exact mem_successors_iff.2 ha

/-- Both searches visit a node that neither has seen.  If it is the head, they meet it with the same
path; any other visit is left to `ih`. -/
theorem inStep_enter (h : Detour g g' head fresh) {fuel : Nat} {m : N} (hd : (m :: path).Nodup)
    (hsub : m :: path ⊆ g.nodes) (hfuel : g'.nodes.length ≤ fuel + path.length)
    (hpath : head ∉ path)
    (ih : head ∉ m :: path → s.Awaits g g' head (m :: path) →
      (visit g.successors fuel path m s).InStep g g' head path (visit g'.successors fuel path m s))
    (hfin : m ∉ s.finished) (hs : s.Awaits g g' head path) :
    (visit g.successors fuel path m s).InStep g g' head path
      (visit g'.successors fuel path m s) := by
  by_cases hhead : m = head
  · subst hhead
    have hlen : g.nodes.length ≤ fuel + path.length := by
      rw [h.length_nodes] at hfuel
      omega
    obtain ⟨-, -, hmet⟩ :=
      visit_sound g.next_subset_nodes fuel path m s hd hsub hlen (hs.sound.enter hfin)
    refine .inr ⟨hmet, fun a ha hback => ?_⟩
    have hreach := hs.reach_of_mem_back hpath (List.subset_cons_self _ _) hpath hback
    refine mem_back_visit g'.next_subset_nodes hd (List.Subset.trans hsub h.subset_nodes) hfuel
      (hs.sound'.enter hfin) ?_ (mem_successors_iff.2 ha)
    exact Relation.ReflTransGen.mono
      (fun _ _ hstep => ⟨hstep.1, fun hin => hstep.2 (List.mem_cons_of_mem _ hin)⟩) _ _
      (h.reach hreach)
  · apply ih
    · exact fun hin => (List.mem_cons.1 hin).elim (fun heq => hhead heq.symm) hpath
    · exact ⟨hs.unmet, hs.sound.enter hfin, hs.sound'.enter hfin⟩

/-- One edge of the two searches, from a node whose edges are as before. -/
theorem inStep_follow (h : Detour g g' head fresh) {fuel : Nat} {n m : N} (hd : (n :: path).Nodup)
    (hsub : n :: path ⊆ g.nodes) (hfuel : g'.nodes.length ≤ fuel + (n :: path).length)
    (hpath : head ∉ n :: path)
    (ih : ∀ m (s : Search N), (m :: n :: path).Nodup → m :: n :: path ⊆ g.nodes →
      head ∉ m :: n :: path → s.Awaits g g' head (m :: n :: path) →
      (visit g.successors fuel (n :: path) m s).InStep g g' head (n :: path)
        (visit g'.successors fuel (n :: path) m s))
    (hm : m ∈ g.successors n) (hm' : m ∈ g'.successors n) (hs : s.Awaits g g' head (n :: path)) :
    (follow g.successors fuel path n s m).InStep g g' head (n :: path)
      (follow g'.successors fuel path n s m) := by
  rw [follow, follow]
  split
  · rename_i hmem
    refine .inl ⟨rfl, ?_, (hs.sound.record hm hmem).1, (hs.sound'.record hm' hmem).1⟩
    rw [finished_record]
    exact hs.unmet
  · rename_i hmem
    split
    · exact .inl ⟨rfl, hs⟩
    · rename_i hfin
      have hd₁ : (m :: n :: path).Nodup := List.nodup_cons.2 ⟨hmem, hd⟩
      have hsub₁ : m :: n :: path ⊆ g.nodes :=
        List.cons_subset.2 ⟨(mem_successors_iff.1 hm).dst_mem, hsub⟩
      exact h.inStep_enter hd₁ hsub₁ hfuel hpath (ih m s hd₁ hsub₁) hfin hs

/-- A visit of a node by the two searches.  The induction is on the fuel, as for all visits. -/
theorem inStep_visit (h : Detour g g' head fresh) (fuel : Nat) (path : List N) (n : N)
    (s : Search N) (hd : (n :: path).Nodup) (hsub : n :: path ⊆ g.nodes)
    (hfuel : g'.nodes.length ≤ fuel + path.length) (hpath : head ∉ n :: path)
    (hs : s.Awaits g g' head (n :: path)) :
    (visit g.successors fuel path n s).InStep g g' head path
      (visit g'.successors fuel path n s) := by
  induction fuel generalizing path n s with
  | zero =>
    exact absurd (fuel_pos hd (List.Subset.trans hsub h.subset_nodes) hfuel) (Nat.lt_irrefl 0)
  | succ fuel ih =>
    have hlen : g.nodes.length ≤ fuel + 1 + path.length := by
      rw [h.length_nodes] at hfuel
      omega
    have hlen₁ : g'.nodes.length ≤ fuel + (n :: path).length := by
      rw [List.length_cons]
      omega
    obtain ⟨hsound, -, hn⟩ :=
      visit_sound g.next_subset_nodes (fuel + 1) path n s hd hsub hlen hs.sound
    obtain ⟨hsound', -, -⟩ := visit_sound g'.next_subset_nodes (fuel + 1) path n s hd
      (List.Subset.trans hsub h.subset_nodes) hfuel hs.sound'
    obtain ⟨hne, hpath₀⟩ : head ≠ n ∧ head ∉ path := by simpa using hpath
    have hgrows : ∀ (g : Multigraph N E) (s : Search N) m,
        s.Grows (follow g.successors fuel path n s m) :=
      fun g => follow_grows fun m s => visit_grows fuel (n :: path) m s
    rcases h.next_cases n (hsub List.mem_cons_self) with hsame | ⟨hhead, rest, hfirst⟩
    · have hfold : ((g.successors n).foldl (follow g.successors fuel path n) s).InStep g g' head
          (n :: path) ((g.successors n).foldl (follow g'.successors fuel path n) s) := by
        refine Search.InStep.foldl (hgrows g) (hgrows g') (follow_settles hpath fun m s a =>
          visit_settles fuel (n :: path) m s) (fun s hs m hm => ?_) hs
        exact h.inStep_follow hd hsub hlen₁ hpath
          (fun m s hd hsub => ih (n :: path) m s hd hsub hlen₁) hm (hsame ▸ hm) hs
      rw [visit_succ] at hsound hsound' ⊢
      rw [visit_succ g'.successors, hsame]
      rw [hsame] at hsound'
      rcases hfold with ⟨heq, hawaits⟩ | hmatched
      · rw [heq] at hsound' ⊢
        exact .inl ⟨rfl, by simp [hne, hawaits.unmet], hsound, hsound'⟩
      · exact .inr ⟨List.mem_cons_of_mem _ hmatched.met, hmatched.back⟩
    · -- the new search goes to the head at once, the old one gets there before it leaves the node
      refine .inr ⟨hsound.next_mem hn hhead hpath₀, fun a ha hback => ?_⟩
      have hreach := hs.reach_of_mem_back hpath (List.Subset.refl _) hpath₀ hback
      have hfound := h.mem_back_fresh hd hsub hlen₁ hpath hs hreach ha
      have hunmet : fresh ∉ n :: path := fun hin => h.fresh_notMem (hsub hin)
      have hunseen : fresh ∉ s.finished := fun hin => h.fresh_notMem (hs.sound.subset hin)
      rw [visit_succ, hfirst, List.foldl_cons, follow, if_neg hunmet, if_neg hunseen]
      exact (foldl_grows (hgrows g') rest _).back hfound

/-- Whole searches.  The new one starts from the fresh node too, wherever it comes among the
nodes. -/
theorem mem_back_depthFirst (h : Detour g g' head fresh) {fuel : Nat}
    (hfuel : g'.nodes.length ≤ fuel) {before later : List N} (hbefore : before ⊆ g.nodes) {a : N}
    (ha : g'.Leads a head)
    (hback : (a, head) ∈ (depthFirst g.successors fuel (before ++ later)).back) :
    (a, head) ∈ (depthFirst g'.successors fuel (before ++ fresh :: later)).back := by
  have hreach := depthFirst_closes _ _ _ _ hback
  have hstart : (⟨[], []⟩ : Search N).Awaits g g' head [] :=
    ⟨List.not_mem_nil, sound_empty _ _, sound_empty _ _⟩
  have hstep : ∀ s, s.Awaits g g' head [] → ∀ n ∈ before,
      (restart g.successors fuel s n).InStep g g' head [] (restart g'.successors fuel s n) := by
    intro s hs n hn
    rw [restart, restart]
    split
    · exact .inl ⟨rfl, hs⟩
    · rename_i hfin
      have hd : [n].Nodup := List.pairwise_singleton _ n
      have hsub : [n] ⊆ g.nodes := List.cons_subset.2 ⟨hbefore hn, List.nil_subset _⟩
      exact h.inStep_enter hd hsub hfuel List.not_mem_nil
        (h.inStep_visit fuel [] n s hd hsub hfuel) hfin hs
  rw [depthFirst_eq, List.foldl_append] at hback ⊢
  rw [List.foldl_cons]
  rcases Search.InStep.foldl (restart_grows fuel) (restart_grows fuel) (restart_settles fuel head)
    hstep hstart with ⟨heq, hs⟩ | hmatched
  · -- no node before the fresh one leads to the head, so the new search meets it here
    have hunseen : fresh ∉ (before.foldl (restart g.successors fuel) ⟨[], []⟩).finished :=
      fun hin => h.fresh_notMem (hs.sound.subset hin)
    rw [heq, restart, if_neg hunseen]
    refine (foldl_grows (restart_grows fuel) later _).back ?_
    refine h.mem_back_fresh List.nodup_nil (List.nil_subset _) hfuel List.not_mem_nil hs ?_ ha
    exact Relation.ReflTransGen.mono (fun _ _ hstep => ⟨hstep, List.not_mem_nil⟩) _ _ hreach
  · have hold := (restart_settles fuel head).foldl (restart_grows fuel) later hmatched.met hback
    exact ((restart_grows fuel _ fresh).trans (foldl_grows (restart_grows fuel) later _)).back
      (hmatched.back a ha hold)

variable [Ord N] [Std.TransOrd N] [Std.LawfulEqOrd N]

/-- The nodes of the new graph in order: those before the fresh one, itself, and those after it. -/
theorem exists_sortedNodes (h : Detour g g' head fresh) :
    ∃ before later, g.sortedNodes = before ++ later ∧
      g'.sortedNodes = before ++ fresh :: later := by
  have hmem : fresh ∈ g'.sortedNodes := mem_sortedNodes.2 ((h.mem_nodes fresh).2 (.inr rfl))
  obtain ⟨before, later, hsplit⟩ := List.append_of_mem hmem
  refine ⟨before, later, ?_, hsplit⟩
  have hsame : g.sortedNodes.filter (fun x => decide (x ≠ fresh)) =
      g'.sortedNodes.filter fun x => decide (x ≠ fresh) := by
    refine OrdSet.filter_toList_eq fun x hx => ?_
    rw [OrdSet.mem_ofList, OrdSet.mem_ofList, h.mem_nodes]
    exact (or_iff_left (of_decide_eq_true hx)).symm
  have hall : ∀ x ∈ g.sortedNodes, x ≠ fresh := by
    intro x hx heq
    exact h.fresh_notMem (heq ▸ mem_sortedNodes.1 hx)
  have hnodup : (before ++ fresh :: later).Nodup := by
    rw [← hsplit]
    exact OrdSet.nodup_toList _
  have hothers : ∀ x ∈ before ++ later, x ≠ fresh := by
    intro x hx heq
    exact (List.nodup_middle.1 hnodup).notMem (heq ▸ hx)
  rw [List.filter_eq_self.2 fun x hx => decide_eq_true (hall x hx), hsplit, List.filter_append,
    List.filter_cons_of_neg (by simp), ← List.filter_append] at hsame
  rw [hsame, List.filter_eq_self.2 fun x hx => decide_eq_true (hothers x hx)]

/-- Of the back edges of the head, those that are left are back edges still. -/
theorem mem_backEdges (h : Detour g g' head fresh) {a : N} (ha : g'.Leads a head)
    (hback : (a, head) ∈ g.backEdges) : (a, head) ∈ g'.backEdges := by
  obtain ⟨before, later, hsorted, hsorted'⟩ := h.exists_sortedNodes
  have hall : g.sortedNodes ⊆ g.nodes := fun x hx => mem_sortedNodes.1 hx
  have hfuel : depthFirst g.successors g'.nodes.length g.sortedNodes =
      depthFirst g.successors g.nodes.length g.sortedNodes := by
    refine depthFirst_fuel g.nodes g.next_subset_nodes hall (Nat.le_refl _) ?_
    rw [h.length_nodes]
    omega
  rw [backEdges, ← hfuel, hsorted] at hback
  rw [backEdges, hsorted']
  refine h.mem_back_depthFirst (Nat.le_refl _) (fun x hx => hall ?_) ha hback
  rw [hsorted]
  exact List.mem_append_left _ hx

end Detour

end Detours

end Multigraph

/-! ## Insertion at a loop head -/

namespace FlowGraph

variable {f : FlowGraph} {loc fresh : Loc}

theorem recent_spliceBefore (stmt : Stmt) (hloc : loc ∈ f.graph.nodes) :
    (f.spliceBefore loc fresh stmt).graph.recent =
      ⟨fresh, loc, stmt⟩ ::
        ((f.graph.recent.filter (f.isMoved loc)).reverse.map (fun e => { e with dst := fresh }) ++
          f.graph.recent.filter fun e => !f.isMoved loc e) := by
  simp only [spliceBefore, Multigraph.redirectIn, if_pos hloc, Multigraph.addEdge, Multigraph.move,
    Multigraph.recent_addNode]
  rfl

/-- The edges that are moved come first among the edges of their source. -/
theorem successors_spliceBefore (stmt : Stmt) (hloc : loc ∈ f.graph.nodes) {n : Loc}
    (hn : n ≠ fresh) :
    (f.spliceBefore loc fresh stmt).graph.successors n =
      ((f.graph.outEdges n).filter (f.isMoved loc)).reverse.map (fun _ => fresh) ++
        ((f.graph.outEdges n).filter fun e => !f.isMoved loc e).map Edge.dst := by
  have hswap : ∀ p : Edge Loc Stmt → Bool,
      (f.graph.recent.filter p).filter (fun e => decide (e.src = n)) =
        (f.graph.outEdges n).filter p := by
    intro p
    rw [Multigraph.outEdges, List.filter_filter, List.filter_filter]
    exact List.filter_congr fun e _ => Bool.and_comm _ _
  rw [Multigraph.successors, Multigraph.outEdges, recent_spliceBefore stmt hloc,
    List.filter_cons_of_neg (by simpa using Ne.symm hn), List.filter_append, List.map_append, hswap,
    List.filter_map, List.map_map]
  refine congrArg (· ++ _) ?_
  show ((f.graph.recent.filter (f.isMoved loc)).reverse.filter fun e => decide (e.src = n)).map
    (fun _ => fresh) = _
  rw [List.filter_reverse, hswap]

theorem successors_spliceBefore_fresh (stmt : Stmt) (hloc : loc ∈ f.graph.nodes)
    (hfresh : fresh ∉ f.graph.nodes) :
    (f.spliceBefore loc fresh stmt).graph.successors fresh = [loc] := by
  have hother : ∀ e ∈ f.graph.recent, e.src ≠ fresh := by
    intro e he heq
    exact hfresh (heq ▸ f.graph.src_mem e (f.graph.perm.mem_iff.1 he))
  rw [Multigraph.successors, Multigraph.outEdges, recent_spliceBefore stmt hloc,
    List.filter_cons_of_pos (by simp), List.filter_eq_nil_iff.2]
  · rfl
  · intro e he hsrc
    rcases List.mem_append.1 he with hmoved | hkept
    · obtain ⟨e₀, he₀, rfl⟩ := List.mem_map.1 hmoved
      exact hother e₀ (List.mem_of_mem_filter (List.mem_reverse.1 he₀)) (of_decide_eq_true hsrc)
    · exact hother e (List.mem_of_mem_filter hkept) (of_decide_eq_true hsrc)

/-- The edges from a node are as before, or the first of them leads to the fresh location now. -/
theorem successors_spliceBefore_cases (stmt : Stmt) (hloc : loc ∈ f.graph.nodes) {n : Loc}
    (hn : n ≠ fresh) :
    (f.spliceBefore loc fresh stmt).graph.successors n = f.graph.successors n ∨
      loc ∈ f.graph.successors n ∧
        ∃ rest, (f.spliceBefore loc fresh stmt).graph.successors n = fresh :: rest := by
  rw [successors_spliceBefore stmt hloc hn]
  cases hmoved : ((f.graph.outEdges n).filter (f.isMoved loc)).reverse with
  | nil =>
    left
    have hnone : ∀ e ∈ f.graph.outEdges n, f.isMoved loc e = false := by
      simpa using hmoved
    rw [List.filter_eq_self.2 fun e he => by simp [hnone e he]]
    rfl
  | cons e rest =>
    right
    have he : e ∈ (f.graph.outEdges n).filter (f.isMoved loc) := by
      rw [← List.mem_reverse, hmoved]
      exact List.mem_cons_self
    obtain ⟨hout, hpicked⟩ := List.mem_filter.1 he
    exact ⟨(isMoved_iff.1 hpicked).1 ▸ List.mem_map_of_mem hout, _, rfl⟩

/-- Edges to other locations and back edges are left where they were. -/
theorem leads_splice_of_kept (stmt : Stmt) (hloc : loc ∈ f.graph.nodes)
    (hbefore : f.splicesBefore loc = true) {a b : Loc} (hab : f.graph.Leads a b)
    (hkept : b ≠ loc ∨ (a, loc) ∈ f.backEdges) :
    (f.splice loc fresh stmt).graph.Leads a b := by
  obtain ⟨e, he, rfl, rfl⟩ := hab
  refine ⟨e, (mem_edges_splice hloc).2 (.inl ⟨e, he, ?_⟩), rfl, rfl⟩
  rw [rewire, if_pos hbefore, if_neg]
  intro hmoved
  obtain ⟨hdst, hforward⟩ := isMoved_iff.1 hmoved
  exact hkept.elim (fun hne => hne hdst) hforward

theorem detour_splice (stmt : Stmt) (hloc : loc ∈ f.graph.nodes) (hfresh : fresh ∉ f.graph.nodes)
    (hbefore : f.splicesBefore loc = true) :
    f.graph.Detour (f.splice loc fresh stmt).graph loc fresh where
  head_mem := hloc
  fresh_notMem := hfresh
  mem_nodes _ := mem_nodes_splice stmt hloc
  next_fresh := by
    rw [splice, if_pos hbefore]
    exact successors_spliceBefore_fresh stmt hloc hfresh
  next_cases n hn := by
    rw [splice, if_pos hbefore]
    exact successors_spliceBefore_cases stmt hloc fun heq => hfresh (heq ▸ hn)
  kept _ _ hab hne := leads_splice_of_kept stmt hloc hbefore hab (.inl hne)

/-- An insertion at a loop head succeeds with the fresh location.  The loop head stays one, and the
edges that were back edges of it still are. -/
theorem addStmtAt_keeps_loopHead (supply : LocSupply) (stmt : Stmt) {head : Loc}
    (hhead : head ∈ f.loopHeads.toList) (hfresh : supply.fresh.1 ∉ f.graph.nodes) :
    ∃ f', f.addStmtAt supply head stmt = .ok (supply.fresh.1, f', supply.fresh.2) ∧
      head ∈ f'.loopHeads.toList ∧ ∀ b, (b, head) ∈ f.backEdges → (b, head) ∈ f'.backEdges := by
  obtain ⟨src, hsrc⟩ := mem_loopHeads.1 hhead
  have hloc : head ∈ f.graph.nodes := (Multigraph.leads_of_mem_backEdges hsrc).dst_mem
  have hbefore : f.splicesBefore head = true := splicesBefore_iff.2 (.inr hhead)
  have hkeeps : ∀ b, (b, head) ∈ f.backEdges →
      (b, head) ∈ (f.splice head supply.fresh.1 stmt).backEdges := by
    intro b hb
    have hedge := Multigraph.leads_of_mem_backEdges hb
    exact (detour_splice stmt hloc hfresh hbefore).mem_backEdges
      (leads_splice_of_kept stmt hloc hbefore hedge (.inr hb)) hb
  exact ⟨_, addStmtAt_of_mem stmt supply hloc, mem_loopHeads.2 ⟨src, hkeeps src hsrc⟩, hkeeps⟩

/-- Two locations that lead to each other and can both be entered, and code that is not reached. -/
def crossing : FlowGraph :=
  empty
    |>.addEdge .entry (.id 4) .skip
    |>.addEdge .entry (.id 3) .skip
    |>.addEdge (.id 3) (.id 4) .skip
    |>.addEdge (.id 4) (.id 5) .skip
    |>.addEdge (.id 5) (.id 4) .skip
    |>.addEdge (.id 5) (.id 3) .skip
    |>.addEdge (.id 6) (.id 4) .skip

/-- An insertion at one of two loop heads, with a fresh location that comes before both.  The search
enters through the fresh location afterwards, and the other head is none any more. -/
theorem addStmtAt_keeps_loopHead_crossing :
    crossing.loopHeads.toList = [.id 3, .id 4] ∧
      crossing.backEdges = [(.id 5, .id 3), (.id 5, .id 4)] ∧
      ∃ f', crossing.addStmtAt ⟨1⟩ (.id 4) .skip = .ok (.id 1, f', ⟨2⟩) ∧
        Loc.id 4 ∈ f'.loopHeads.toList ∧ (.id 5, .id 4) ∈ f'.backEdges ∧
        Loc.id 3 ∉ f'.loopHeads.toList := by
  have hfacts : crossing.loopHeads.toList = [.id 3, .id 4] ∧
      crossing.backEdges = [(.id 5, .id 3), (.id 5, .id 4)] ∧ Loc.id 1 ∉ crossing.graph.nodes ∧
      Loc.id 4 ∈ crossing.graph.nodes ∧
      Loc.id 3 ∉ (crossing.splice (.id 4) (.id 1) .skip).loopHeads.toList := by
    decide +kernel
  obtain ⟨hheads, hback, hfresh, hloc, hlost⟩ := hfacts
  have hmem : Loc.id 4 ∈ crossing.loopHeads.toList := by simp [hheads]
  obtain ⟨f', hadd, hhead, hkeeps⟩ := addStmtAt_keeps_loopHead ⟨1⟩ .skip hmem hfresh
  refine ⟨hheads, hback, f', hadd, hhead, hkeeps _ (by simp [hback]), ?_⟩
  rw [addStmtAt_of_mem .skip ⟨1⟩ hloc] at hadd
  cases hadd
  exact hlost

end FlowGraph

end Demanded
