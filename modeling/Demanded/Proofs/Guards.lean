import Demanded.Proofs.NormalForm

/-!
# Guards narrow what they mention

A guard goes down the logical structure of its condition to comparisons.  On the way it takes one
part after the other where both have to hold, and joins the two outcomes where one of them is
enough.  A comparison binds the keys of both its sides to intervals that it computed beforehand, and
both sides may have the same key.

`State.Narrows` says that one state comes from another by making some keys tighter and leaving the
others alone.  It has a lemma for each of these moves: `Narrows.trans`, `Narrows.join` and
`Narrows.set`.  The last one speaks of the state before the comparison, so it does not matter that
the second binding may undo the first.
-/

namespace Demanded

/-! ## Occurrence -/

/-- One expression occurs in another one, or is the other one. -/
inductive Expr.Occurs (e : Expr) : Expr → Prop
  | here : Occurs e e
  | lhs {op : BinaryOp} {lhs rhs : Expr} (h : Occurs e lhs) : Occurs e (.binary op lhs rhs)
  | rhs {op : BinaryOp} {lhs rhs : Expr} (h : Occurs e rhs) : Occurs e (.binary op lhs rhs)
  | operand {op : UnaryOp} {operand : Expr} (h : Occurs e operand) : Occurs e (.unary op operand)
  | object {receiver : Expr} {name : String} (h : Occurs e receiver) :
    Occurs e (.field receiver name)
  | receiver {receiver idx : Expr} (h : Occurs e receiver) : Occurs e (.index receiver idx)
  | idx {receiver idx : Expr} (h : Occurs e idx) : Occurs e (.index receiver idx)
  | element {elements : List Expr} {x : Expr} (hx : x ∈ elements) (h : Occurs e x) :
    Occurs e (.array elements)
  | arg {callee : String} {args : List Expr} {x : Expr} (hx : x ∈ args) (h : Occurs e x) :
    Occurs e (.call callee args)

namespace Expr

@[simp]
theorem occurs_var {e : Expr} {name : String} : e.Occurs (.var name) ↔ e = .var name := by
  constructor
  · rintro ⟨⟩
    rfl
  · rintro rfl
    exact .here

@[simp]
theorem occurs_unary {e operand : Expr} {op : UnaryOp} :
    e.Occurs (.unary op operand) ↔ e = .unary op operand ∨ e.Occurs operand := by
  constructor
  · rintro (_ | _ | _ | h)
    · exact .inl rfl
    · exact .inr h
  · rintro (rfl | h)
    · exact .here
    · exact .operand h

@[simp]
theorem occurs_binary {e lhs rhs : Expr} {op : BinaryOp} :
    e.Occurs (.binary op lhs rhs) ↔ e = .binary op lhs rhs ∨ e.Occurs lhs ∨ e.Occurs rhs := by
  constructor
  · rintro (_ | h | h)
    · exact .inl rfl
    · exact .inr (.inl h)
    · exact .inr (.inr h)
  · rintro (rfl | h | h)
    · exact .here
    · exact .lhs h
    · exact .rhs h

@[simp]
theorem occurs_field {e receiver : Expr} {name : String} :
    e.Occurs (.field receiver name) ↔ e = .field receiver name ∨ e.Occurs receiver := by
  constructor
  · rintro (_ | _ | _ | _ | h)
    · exact .inl rfl
    · exact .inr h
  · rintro (rfl | h)
    · exact .here
    · exact .object h

end Expr

/-- The key is a variable that occurs in the expression, or a field of a variable that does. -/
def Expr.Mentions (e : Expr) (key : String) : Prop :=
  (Expr.var key).Occurs e ∨
    ∃ name f, key = fieldKey name f ∧ (Expr.field (.var name) f).Occurs e

/-- An expression mentions the keys of what occurs in it. -/
theorem Expr.Occurs.mentions {e e' : Expr} (h : e.Occurs e') {key : String}
    (hkey : e.key? = some key) : e'.Mentions key := by
  unfold Expr.key? at hkey
  split at hkey
  · cases hkey
    exact .inl h
  · rename_i name f
    cases hkey
    exact .inr ⟨name, f, rfl, h⟩
  · cases hkey

theorem Interval.refine_implies (op : BinaryOp) (a b : Interval) :
    (a.refine op b).implies a = true := by
  cases b with
  | bottom => rfl
  | range l u =>
    rw [refine, implies_iff_holds (ordered_meet _ _)]
    intro v hv
    exact (holds_meet_iff.1 hv).1

theorem Interval.join_self {a : Interval} (ha : a.Ordered) : a.join a = a :=
  implies_antisymm (join_implies (implies_refl a) (implies_refl a))
    ((implies_iff_holds ha).2 fun _ hv => holds_join (.inl hv))

namespace State

theorem eval_of_key? (s : State) {e : Expr} {key : String} (hkey : e.key? = some key) :
    s.eval e = s.get key := by
  unfold Expr.key? at hkey
  split at hkey
  · cases hkey
    rw [eval]
  · cases hkey
    rw [eval]
  · cases hkey

/-- A key that two states bind alike is bound so in their join. -/
theorem get_join {a b : OrdMap String Interval} (ha : (env a).Normal) (hb : (env b).Normal)
    {key : String} (h : (env a).get key = (env b).get key) :
    ((env a).join (env b)).get key = (env a).get key := by
  obtain ⟨m, hjoin, hget⟩ := join_env ha b
  have hsame := get?_eq_of_get ha hb h
  rw [join, hjoin, hget, merged, ← hsame]
  cases hx : a.get? key with
  | none => exact (get_env_of_none hx).symm
  | some x =>
    rw [get_env_of_some hx]
    exact Interval.join_self (ha key x hx).ordered

/-! ## Narrowing -/

/-- The state `t` is at least as tight as `s`, and differs from it only at keys from `touched`,
unless it is unreachable. -/
structure Narrows (touched : String → Prop) (s t : State) : Prop where
  implies : t.implies s = true
  get : t ≠ bottom → ∀ key, ¬touched key → t.get key = s.get key

namespace Narrows

variable {touched : String → Prop} {s t r : State}

theorem refl (s : State) : s.Narrows touched s :=
  ⟨implies_refl s, fun _ _ _ => rfl⟩

theorem bottom (s : State) : s.Narrows touched .bottom :=
  ⟨rfl, fun h => absurd rfl h⟩

theorem ne_bottom (h : s.Narrows touched t) (ht : t ≠ .bottom) : s ≠ .bottom := by
  rintro rfl
  cases t with
  | bottom => exact ht rfl
  | env m => exact absurd h.implies Bool.false_ne_true

theorem trans (hr : r.Normal) (h : s.Narrows touched t) (h' : t.Narrows touched r) :
    s.Narrows touched r where
  implies := implies_trans hr h'.implies h.implies
  get hne key hkey := (h'.get hne key hkey).trans (h.get (h'.ne_bottom hne) key hkey)

/-- Two ways to narrow a state may be joined. -/
theorem join (ht : t.Normal) (hr : r.Normal) (h : s.Narrows touched t) (h' : s.Narrows touched r) :
    s.Narrows touched (t.join r) where
  implies := join_implies ht h.implies h'.implies
  get hne key hkey := by
    cases t with
    | bottom => exact h'.get hne key hkey
    | env a =>
      have hleft := h.get (env_ne_bottom a) key hkey
      cases r with
      | bottom => exact hleft
      | env b =>
        have hright := h'.get (env_ne_bottom b) key hkey
        rw [get_join ht hr (hleft.trans hright.symm), hleft]

/-- A key may be bound to an interval that is tighter than the one it had at first. -/
theorem set (h : s.Narrows touched t) {key : String} (hkey : touched key) {a : Interval}
    (ha : a.implies (s.get key) = true) : s.Narrows touched (t.set key a) := by
  by_cases hbottom : t.set key a = .bottom
  · rw [hbottom]
    exact .bottom s
  · cases t with
    | bottom => exact absurd rfl hbottom
    | env m =>
      have hne : a ≠ .bottom := by
        rintro rfl
        exact hbottom rfl
      have hs := h.ne_bottom (env_ne_bottom m)
      obtain ⟨m', hset, hget⟩ := set_env m key hne
      rw [hset]
      cases s with
      | bottom => exact absurd rfl hs
      | env m₀ =>
        refine ⟨implies_env_iff.2 fun k => ?_, fun _ k hk => ?_⟩
        · rw [hget]
          split
          · rename_i heq
            rw [heq]
            exact ha
          · exact implies_env_iff.1 h.implies k
        · have hk' : k ≠ key := fun heq => hk (heq ▸ hkey)
          rw [hget, if_neg hk']
          exact h.get (env_ne_bottom m) k hk

end Narrows

/-! ## Guards -/

section Guards

variable {touched : String → Prop} {s t : State}

/-- One side of a comparison is restricted to what the comparison leaves of its values. -/
theorem Narrows.restrict (h : s.Narrows touched t) {e : Expr}
    (he : ∀ key, e.key? = some key → touched key) (op : BinaryOp) (b : Interval) :
    s.Narrows touched (t.restrict e ((s.eval e).refine op b)) := by
  unfold State.restrict
  split
  · rename_i key hkey
    rw [eval_of_key? s hkey]
    exact h.set (he key hkey) (Interval.refine_implies op _ b)
  · exact h

theorem narrows_compare (s : State) (op : BinaryOp) {lhs rhs : Expr}
    (hl : ∀ key, lhs.key? = some key → touched key)
    (hr : ∀ key, rhs.key? = some key → touched key) :
    s.Narrows touched (s.compare op lhs rhs) := by
  have hleft := (Narrows.refl s).restrict hl op (s.eval rhs)
  dsimp only [compare]
  split
  · split
    · rename_i swapped _
      exact hleft.restrict hr swapped (s.eval lhs)
    · exact hleft
  · exact .bottom s

/-- A guard narrows the keys that its condition mentions.  The parts of a condition mention no other
keys, so the induction goes through for any keys that include those. -/
theorem narrows_assume (hs : s.Normal) {cond : Expr} (polarity : Bool)
    (h : ∀ (e : Expr) (key : String), e.Occurs cond → e.key? = some key → touched key) :
    s.Narrows touched (s.assume cond polarity) := by
  have hzero : ∀ key, (Expr.int Word.zero).key? = some key → touched key := by
    intro key hkey
    cases hkey
  fun_induction assume s cond polarity with
  | case1 => exact .bottom _
  | case2 s polarity hb operand ih => exact ih hs fun e key he => h e key he.operand
  | case3 s hb lhs rhs ihl ihr =>
    have hleft := ihl hs fun e key he => h e key he.lhs
    have hl := normal_assume hs lhs true
    exact hleft.trans (normal_assume hl rhs true) (ihr hl fun e key he => h e key he.rhs)
  | case4 s polarity hb lhs rhs hp ihl ihr =>
    exact (ihl hs fun e key he => h e key he.lhs).join (normal_assume hs lhs false)
      (normal_assume hs rhs false) (ihr hs fun e key he => h e key he.rhs)
  | case5 s hb lhs rhs ihl ihr =>
    exact (ihl hs fun e key he => h e key he.lhs).join (normal_assume hs lhs true)
      (normal_assume hs rhs true) (ihr hs fun e key he => h e key he.rhs)
  | case6 s polarity hb lhs rhs hp ihl ihr =>
    have hleft := ihl hs fun e key he => h e key he.lhs
    have hl := normal_assume hs lhs false
    exact hleft.trans (normal_assume hl rhs false) (ihr hl fun e key he => h e key he.rhs)
  | case7 s polarity hb op lhs rhs hand hor hcomparison assumed hassumed =>
    exact narrows_compare s assumed (fun key => h lhs key (.lhs .here))
      fun key => h rhs key (.rhs .here)
  | case8 => exact .refl _
  | case9 s polarity hb op lhs rhs hand hor hcomparison =>
    exact narrows_compare s _ (fun key => h _ key .here) hzero
  | case10 s polarity hb cond hnot hand hor hbinary =>
    exact narrows_compare s _ (fun key => h cond key .here) hzero

end Guards

/-- A guard leaves a state that implies the one before it and, unless it is unreachable, binds every
key that the condition does not mention as before. -/
theorem guard_narrows {s : State} (hs : s.Normal) (cond : Expr) :
    (s.interpret (.assume cond)).implies s = true ∧
      ∀ m, s.interpret (.assume cond) = env m →
        ∃ m₀, s = env m₀ ∧ ∀ key, ¬cond.Mentions key → m.get? key = m₀.get? key := by
  have hnormal := normal_interpret hs (.assume cond)
  have hnarrows : s.Narrows cond.Mentions (s.interpret (.assume cond)) := by
    unfold interpret
    split
    · exact .bottom s
    · exact narrows_assume hs true fun e key he => he.mentions
  refine ⟨hnarrows.implies, fun m hm => ?_⟩
  rw [hm] at hnarrows hnormal
  cases s with
  | bottom => exact absurd rfl (hnarrows.ne_bottom (env_ne_bottom m))
  | env m₀ =>
    refine ⟨m₀, rfl, fun key hkey => get?_eq_of_get hnormal hs ?_⟩
    exact hnarrows.get (env_ne_bottom m) key hkey

/-- An index that is not negative, and the lengths of two arrays. -/
def twoLengths : State :=
  ((top.set "a.length" (.constant .one)).set "b.length" (.atLeast .one)).set "i" (.atLeast .zero)

/-- The condition that the index is neither beyond the first array nor unequal to itself: both parts
of a disjunction fail, and the second one compares a key with itself. -/
def belowFirst : Expr :=
  .unary .not (.binary .or (.binary .ge (.var "i") (.field (.var "a") "length"))
    (.binary .ne (.var "i") (.var "i")))

/-- The guard leaves zero as the only index and does not touch the length of the other array. -/
theorem guard_narrows_belowFirst :
    twoLengths.Normal ∧ ¬belowFirst.Mentions "b.length" ∧
      (twoLengths.interpret (.assume belowFirst)).implies twoLengths = true ∧
      ∃ m m₀, twoLengths.interpret (.assume belowFirst) = env m ∧ twoLengths = env m₀ ∧
        (env m).get "i" = .constant .zero ∧ m.get? "b.length" = m₀.get? "b.length" := by
  have hnormal : twoLengths.Normal :=
    normal_set (normal_set (normal_set normal_top (Interval.ordered_constant _) "a.length")
      (Interval.ordered_make _ _) "b.length") (Interval.ordered_make _ _) "i"
  have hother : ¬belowFirst.Mentions "b.length" := by
    rintro (h | ⟨name, f, hkey, h⟩)
    · simp [belowFirst] at h
    · have hfield : name = "a" ∧ f = "length" := by simpa [belowFirst] using h
      rw [hfield.1, hfield.2] at hkey
      exact absurd hkey (by decide)
  obtain ⟨himplies, hframe⟩ := guard_narrows hnormal belowFirst
  cases h : twoLengths.interpret (.assume belowFirst) with
  | bottom => exact absurd h (by decide +kernel)
  | env m =>
    obtain ⟨m₀, hm₀, hkeys⟩ := hframe m h
    have hindex : (twoLengths.interpret (.assume belowFirst)).get "i" = .constant .zero := by
      decide +kernel
    rw [h] at himplies hindex
    exact ⟨hnormal, hother, himplies, m, m₀, rfl, hm₀, hindex, hkeys _ hother⟩

end State

end Demanded
