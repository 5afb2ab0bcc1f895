import Demanded.Proofs.Inputs

/-!
# The order of statements is total

Statements are compared by the rank of their form, then part by part.  This module proves that the
comparison is a total order in which only equal statements are equal, so that a sorted list of
statements does not depend on the order in which they came (`sortBy_eq_of_perm`).

The laws are stated at one item, `OrderedAt cmp a`, so that they can be carried through the
recursion of expressions.  Three lemmas build them up: a comparison by an injective key has them
(`on_key`), they pass to pairs that are compared lexicographically (`pair`), and to a form that is
compared by its rank first (`ranked`).  Each constructor is then one use of `ranked`.
-/

namespace Demanded

universe u

variable {α β : Type u}

/-! ## The laws of a comparison -/

/-- The laws of a total order, for comparisons with `a`. -/
structure OrderedAt (cmp : α → α → Ordering) (a : α) : Prop where
  eq_iff : ∀ b, cmp a b = .eq ↔ a = b
  swap : ∀ b, cmp b a = (cmp a b).swap
  lt_of_lt_of_isLE : ∀ b c, cmp a b = .lt → (cmp b c).isLE → cmp a c = .lt

namespace OrderedAt

variable {cmp : α → α → Ordering} {cmp' : β → β → Ordering} {a : α} {b : β}

/-- Comparing by a key that tells all items apart. -/
theorem on_key {κ : Type} [Ord κ] [Std.TransOrd κ] [Std.LawfulEqOrd κ] {key : α → κ}
    (hkey : Function.Injective key) (a : α) :
    OrderedAt (fun x y => compare (key x) (key y)) a where
  eq_iff _ := Std.LawfulEqOrd.compare_eq_iff_eq.trans hkey.eq_iff
  swap _ := Std.OrientedOrd.eq_swap
  lt_of_lt_of_isLE _ _ := Std.TransCmp.lt_of_lt_of_isLE

theorem unit : OrderedAt (fun _ _ : Unit => .eq) () where
  eq_iff _ := iff_of_true rfl rfl
  swap _ := rfl
  lt_of_lt_of_isLE _ _ h := by cases h

/-- Comparing the first parts, then the second ones. -/
theorem pair (h : OrderedAt cmp a) (h' : OrderedAt cmp' b) :
    OrderedAt (fun p q : α × β => (cmp p.1 q.1).then (cmp' p.2 q.2)) (a, b) where
  eq_iff q := by rw [Ordering.then_eq_eq, h.eq_iff, h'.eq_iff, Prod.ext_iff]
  swap q := by rw [h.swap, h'.swap, Ordering.swap_then]
  lt_of_lt_of_isLE q r hlt hle := by
    rw [Ordering.then_eq_lt] at hlt ⊢
    rw [Ordering.isLE_then_iff_or] at hle
    have hfirst : (cmp q.1 r.1).isLE := by
      rcases hle with hle | hle
      · rw [hle]; rfl
      · rw [hle.1]; rfl
    -- either the first parts decide, or they are equal and the second parts do
    rcases hlt with hlt | ⟨heq, hlt⟩
    · exact .inl (h.lt_of_lt_of_isLE _ _ hlt hfirst)
    · obtain rfl := (h.eq_iff _).1 heq
      exact hle.imp id fun hle => ⟨hle.1, h'.lt_of_lt_of_isLE _ _ hlt hle.2⟩

/-- Comparing by rank, where the items of the rank of `f b` are those of the form `f` and compare
like their parts. -/
theorem ranked {rank : α → Nat} (h : OrderedAt cmp' b) (f : β → α)
    (hrank : ∀ a a', rank a ≠ rank a' → cmp a a' = compare (rank a) (rank a'))
    (hform : ∀ a, rank a = rank (f b) → ∃ y, a = f y)
    (hinj : Function.Injective f) (hcmp : ∀ x y, cmp (f x) (f y) = cmp' x y) :
    OrderedAt cmp (f b) where
  eq_iff x := by
    by_cases hx : rank x = rank (f b)
    · obtain ⟨y, rfl⟩ := hform x hx
      rw [hcmp, h.eq_iff, hinj.eq_iff]
    · rw [hrank _ _ (Ne.symm hx), Std.LawfulEqOrd.compare_eq_iff_eq]
      exact ⟨fun he => absurd he.symm hx, fun he => congrArg rank he⟩
  swap x := by
    by_cases hx : rank x = rank (f b)
    · obtain ⟨y, rfl⟩ := hform x hx
      rw [hcmp, hcmp, h.swap]
    · rw [hrank _ _ hx, hrank _ _ (Ne.symm hx)]
      exact Std.OrientedOrd.eq_swap
  lt_of_lt_of_isLE x y hlt hle := by
    -- a smaller item has no greater rank, so the three ranks are equal or the outer ones decide
    have hmono : ∀ {a a'}, (cmp a a').isLE → rank a ≤ rank a' := by
      intro a a' hle
      by_contra hgt
      rw [hrank _ _ (by omega), Nat.isLE_compare] at hle
      exact hgt hle
    have hx : rank (f b) ≤ rank x := hmono (by rw [hlt]; rfl)
    have hy : rank x ≤ rank y := hmono hle
    by_cases heq : rank y = rank (f b)
    · obtain ⟨x, rfl⟩ := hform x (by omega)
      obtain ⟨y, rfl⟩ := hform y heq
      rw [hcmp] at hlt hle ⊢
      exact h.lt_of_lt_of_isLE _ _ hlt hle
    · rw [hrank _ _ (Ne.symm heq), Nat.compare_eq_lt]
      omega

theorem transCmp (h : ∀ a, OrderedAt cmp a) : Std.TransCmp cmp where
  eq_swap {a b} := (h b).swap a
  isLE_trans {a b c} hab hbc := by
    rcases Ordering.isLE_iff_eq_lt_or_eq_eq.1 hab with hlt | heq
    · rw [(h a).lt_of_lt_of_isLE b c hlt hbc]
      rfl
    · obtain rfl := ((h a).eq_iff b).1 heq
      exact hbc

theorem lawfulEqCmp (h : ∀ a, OrderedAt cmp a) : Std.LawfulEqCmp cmp where
  compare_self {a} := ((h a).eq_iff a).2 rfl
  eq_of_compare {a b} := ((h a).eq_iff b).1

end OrderedAt

/-! ## Literals and operators -/

theorem BinaryOp.rank_injective : Function.Injective BinaryOp.rank := by
  intro a b h
  cases a <;> cases b <;> first | rfl | exact absurd h (by decide)

theorem UnaryOp.rank_injective : Function.Injective UnaryOp.rank := by
  intro a b h
  cases a <;> cases b <;> first | rfl | exact absurd h (by decide)

namespace Literal

theorem compare_of_rank_ne (a b : Literal) (h : a.rank ≠ b.rank) :
    a.compare b = compare a.rank b.rank := by
  cases a <;> cases b <;> first | rfl | exact absurd rfl h

theorem form_of_rank_eq {a b : Literal} (h : b.rank = a.rank) :
    match a with
    | int _ => ∃ v, b = int v
    | bool _ => ∃ v, b = bool v
    | null => ∃ _ : Unit, b = null := by
  cases a <;> cases b <;> first | exact ⟨_, rfl⟩ | exact ⟨(), rfl⟩ | cases h

theorem orderedAt (a : Literal) : OrderedAt Literal.compare a := by
  cases a with
  | int v =>
    exact (OrderedAt.on_key (fun _ _ => Word.ext : Function.Injective Word.val) v).ranked int
      compare_of_rank_ne (fun _ => form_of_rank_eq) (fun _ _ => int.inj) fun _ _ => rfl
  | bool v =>
    have hinj : Function.Injective Bool.toNat := by
      intro a b
      cases a <;> cases b <;> decide
    exact (OrderedAt.on_key hinj v).ranked bool
      compare_of_rank_ne (fun _ => form_of_rank_eq) (fun _ _ => bool.inj) fun _ _ => rfl
  | null =>
    exact OrderedAt.unit.ranked (fun _ => null)
      compare_of_rank_ne (fun _ => form_of_rank_eq) (fun _ _ _ => rfl) fun _ _ => rfl

end Literal

/-! ## Expressions -/

namespace Expr

theorem compare_of_rank_ne (a b : Expr) (h : a.rank ≠ b.rank) :
    a.compare b = compare a.rank b.rank := by
  cases a <;> cases b <;> first | rfl | exact absurd rfl h

theorem form_of_rank_eq {a b : Expr} (h : b.rank = a.rank) :
    match a with
    | var _ => ∃ x, b = var x
    | lit _ => ∃ v, b = lit v
    | binary .. => ∃ p : BinaryOp × Expr × Expr, b = binary p.1 p.2.1 p.2.2
    | unary .. => ∃ p : UnaryOp × Expr, b = unary p.1 p.2
    | field .. => ∃ p : Expr × String, b = field p.1 p.2
    | index .. => ∃ p : Expr × Expr, b = index p.1 p.2
    | array _ => ∃ es, b = array es
    | call .. => ∃ p : String × List Expr, b = call p.1 p.2 := by
  cases a <;> cases b <;>
    first | exact ⟨_, rfl⟩ | exact ⟨(_, _), rfl⟩ | exact ⟨(_, _, _), rfl⟩ | cases h

theorem compareList_of_rank_ne (a b : List Expr) (h : (!a.isEmpty).toNat ≠ (!b.isEmpty).toNat) :
    compareList a b = compare (!a.isEmpty).toNat (!b.isEmpty).toNat := by
  cases a <;> cases b <;> first | rfl | exact absurd rfl h

theorem list_form_of_rank_eq {a b : List Expr} (h : (!b.isEmpty).toNat = (!a.isEmpty).toNat) :
    match a with
    | [] => ∃ _ : Unit, b = []
    | _ :: _ => ∃ p : Expr × List Expr, b = p.1 :: p.2 := by
  cases a <;> cases b <;> first | exact ⟨(), rfl⟩ | exact ⟨(_, _), rfl⟩ | cases h

mutual

theorem orderedAt (e : Expr) : OrderedAt Expr.compare e := by
  have hform := @form_of_rank_eq e
  cases e with
  | var x =>
    exact (OrderedAt.on_key Function.injective_id x).ranked var
      compare_of_rank_ne @hform (fun _ _ => var.inj) fun _ _ => rfl
  | lit v =>
    exact v.orderedAt.ranked lit
      compare_of_rank_ne @hform (fun _ _ => lit.inj) fun _ _ => rfl
  | binary op lhs rhs =>
    exact ((OrderedAt.on_key BinaryOp.rank_injective op).pair
      (orderedAt lhs |>.pair (orderedAt rhs))).ranked (fun p => binary p.1 p.2.1 p.2.2)
      compare_of_rank_ne @hform (fun _ _ h => by simpa [Prod.ext_iff] using h) fun _ _ => rfl
  | unary op operand =>
    exact ((OrderedAt.on_key UnaryOp.rank_injective op).pair (orderedAt operand)).ranked
      (fun p => unary p.1 p.2)
      compare_of_rank_ne @hform (fun _ _ h => by simpa [Prod.ext_iff] using h) fun _ _ => rfl
  | field receiver name =>
    exact ((orderedAt receiver).pair (.on_key Function.injective_id name)).ranked
      (fun p => field p.1 p.2)
      compare_of_rank_ne @hform (fun _ _ h => by simpa [Prod.ext_iff] using h) fun _ _ => rfl
  | index receiver idx =>
    exact ((orderedAt receiver).pair (orderedAt idx)).ranked (fun p => index p.1 p.2)
      compare_of_rank_ne @hform (fun _ _ h => by simpa [Prod.ext_iff] using h) fun _ _ => rfl
  | array elements =>
    exact (orderedAt_list elements).ranked array
      compare_of_rank_ne @hform (fun _ _ => array.inj) fun _ _ => rfl
  | call callee args =>
    exact ((OrderedAt.on_key Function.injective_id callee).pair (orderedAt_list args)).ranked
      (fun p => call p.1 p.2)
      compare_of_rank_ne @hform (fun _ _ h => by simpa [Prod.ext_iff] using h) fun _ _ => rfl

theorem orderedAt_list (es : List Expr) : OrderedAt compareList es := by
  have hform := @list_form_of_rank_eq es
  cases es with
  | nil =>
    exact OrderedAt.unit.ranked (fun _ => [])
      compareList_of_rank_ne @hform (fun _ _ _ => rfl) fun _ _ => rfl
  | cons e rest =>
    exact ((orderedAt e).pair (orderedAt_list rest)).ranked (fun p => p.1 :: p.2)
      compareList_of_rank_ne @hform (fun _ _ h => by simpa [Prod.ext_iff] using h) fun _ _ => rfl

end

end Expr

/-! ## Selectors and statements -/

namespace Selector

/-- The place of a kind of selector. -/
def rank : Selector → Nat
  | field _ => 0
  | index _ => 1

theorem compare_of_rank_ne (a b : Selector) (h : a.rank ≠ b.rank) :
    a.compare b = compare a.rank b.rank := by
  cases a <;> cases b <;> first | rfl | exact absurd rfl h

theorem form_of_rank_eq {a b : Selector} (h : b.rank = a.rank) :
    match a with
    | field _ => ∃ x, b = field x
    | index _ => ∃ e, b = index e := by
  cases a <;> cases b <;> first | exact ⟨_, rfl⟩ | cases h

theorem orderedAt (s : Selector) : OrderedAt Selector.compare s := by
  have hform := @form_of_rank_eq s
  cases s with
  | field x =>
    exact (OrderedAt.on_key Function.injective_id x).ranked field
      compare_of_rank_ne @hform (fun _ _ => field.inj) fun _ _ => rfl
  | index e =>
    exact e.orderedAt.ranked index
      compare_of_rank_ne @hform (fun _ _ => index.inj) fun _ _ => rfl

end Selector

namespace Stmt

theorem compare_of_rank_ne (a b : Stmt) (h : a.rank ≠ b.rank) :
    a.compare b = compare a.rank b.rank := by
  cases a <;> cases b <;> first | rfl | exact absurd rfl h

theorem form_of_rank_eq {a b : Stmt} (h : b.rank = a.rank) :
    match a with
    | assign .. => ∃ p : String × Expr, b = assign p.1 p.2
    | write .. => ∃ p : Expr × Selector × Expr, b = write p.1 p.2.1 p.2.2
    | throw _ => ∃ e, b = throw e
    | assume _ => ∃ e, b = assume e
    | expr _ => ∃ e, b = expr e
    | skip => ∃ _ : Unit, b = skip := by
  cases a <;> cases b <;>
    first
    | exact ⟨_, rfl⟩
    | exact ⟨(), rfl⟩
    | exact ⟨(_, _), rfl⟩
    | exact ⟨(_, _, _), rfl⟩
    | cases h

theorem orderedAt (s : Stmt) : OrderedAt Stmt.compare s := by
  have hform := @form_of_rank_eq s
  cases s with
  | assign x e =>
    exact ((OrderedAt.on_key Function.injective_id x).pair e.orderedAt).ranked
      (fun p => assign p.1 p.2)
      compare_of_rank_ne @hform (fun _ _ h => by simpa [Prod.ext_iff] using h) fun _ _ => rfl
  | write e s r =>
    exact (e.orderedAt.pair (s.orderedAt.pair r.orderedAt)).ranked
      (fun p => write p.1 p.2.1 p.2.2)
      compare_of_rank_ne @hform (fun _ _ h => by simpa [Prod.ext_iff] using h) fun _ _ => rfl
  | throw e =>
    exact e.orderedAt.ranked throw
      compare_of_rank_ne @hform (fun _ _ => throw.inj) fun _ _ => rfl
  | assume e =>
    exact e.orderedAt.ranked assume
      compare_of_rank_ne @hform (fun _ _ => assume.inj) fun _ _ => rfl
  | expr e =>
    exact e.orderedAt.ranked expr
      compare_of_rank_ne @hform (fun _ _ => expr.inj) fun _ _ => rfl
  | skip =>
    exact OrderedAt.unit.ranked (fun _ => skip)
      compare_of_rank_ne @hform (fun _ _ _ => rfl) fun _ _ => rfl

instance : Std.TransCmp Stmt.compare := OrderedAt.transCmp orderedAt

instance : Std.LawfulEqCmp Stmt.compare := OrderedAt.lawfulEqCmp orderedAt

end Stmt

/-! ## Sorting -/

section Sorting

variable {cmp : α → α → Ordering} [Std.TransCmp cmp]

theorem pairwise_insertBy (x : α) {l : List α} (h : l.Pairwise fun a b => (cmp a b).isLE) :
    (insertBy cmp x l).Pairwise fun a b => (cmp a b).isLE := by
  induction l with
  | nil => exact List.pairwise_singleton _ _
  | cons y rest ih =>
    obtain ⟨hy, hrest⟩ := List.pairwise_cons.1 h
    rw [insertBy]
    split
    · rename_i hle
      refine List.pairwise_cons.2 ⟨fun z hz => ?_, h⟩
      rcases List.mem_cons.1 hz with rfl | hz
      · exact hle
      · exact Std.TransCmp.isLE_trans hle (hy z hz)
    · rename_i hgt
      have hle : (cmp y x).isLE := by
        have hswap : cmp y x = (cmp x y).swap := Std.OrientedCmp.eq_swap
        rw [hswap]
        cases hc : cmp x y <;> simp_all
      refine List.pairwise_cons.2 ⟨fun z hz => ?_, ih hrest⟩
      rcases List.mem_cons.1 ((perm_insertBy cmp x rest).mem_iff.1 hz) with rfl | hz
      · exact hle
      · exact hy z hz

theorem pairwise_sortBy (l : List α) : (sortBy cmp l).Pairwise fun a b => (cmp a b).isLE := by
  induction l with
  | nil => exact List.Pairwise.nil
  | cons x rest ih => exact pairwise_insertBy x ih

/-- What a sorted list is depends only on its members and how often they stand in it. -/
theorem sortBy_eq_of_perm [Std.LawfulEqCmp cmp] {l l' : List α} (h : l.Perm l') :
    sortBy cmp l = sortBy cmp l' := by
  refine List.Perm.eq_of_pairwise (fun a b _ _ hab hba => ?_) (pairwise_sortBy l)
    (pairwise_sortBy l') ?_
  · exact Std.LawfulEqCmp.eq_of_compare (Std.OrientedCmp.isLE_antisymm hab hba)
  · exact (perm_sortBy cmp l).trans (h.trans (perm_sortBy cmp l').symm)

end Sorting

end Demanded
