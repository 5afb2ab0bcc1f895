import Mathlib.Order.MinMax
import Demanded.Proofs.JsonNesting
import Demanded.Proofs.StoredStates
import Demanded.Source.Load

/-!
# Stored programs are read back

A program, a statement or an expression is read back from its text if the text nests at most 127
arrays and objects, and is refused if it nests deeper (`SourceProgram.read_back_within_limit`).

A decoder counts down the levels that are left, so the notion that carries the proof has them as a
parameter: `Decodes read j x` says for every number of levels whether the tree `j` is read as `x`.
There is one lemma for each type, and its cases say how many brackets each form opens.
-/

namespace Demanded

open Json

/-! ## Reading within a number of levels -/

/-- The reader takes the tree as the value if enough levels are left for it, and refuses it
otherwise. -/
def Decodes {α : Type} (read : Nat → Json → Option α) (j : Json) (x : α) : Prop :=
  ∀ levels, read levels j = if j.depth ≤ levels then some x else none

theorem bind_within {α β : Type} {d n : Nat} (x : α) (f : α → Option β) :
    ((if d ≤ n then some x else none) >>= f) = if d ≤ n then f x else none := by
  split <;> rfl

theorem map_within {α β : Type} {d n : Nat} (x : α) (f : α → β) :
    (if d ≤ n then some x else none).map f = if d ≤ n then some (f x) else none := by
  split <;> rfl

namespace Decodes

variable {α : Type} {read : Nat → Json → Option α} {j : Json} {x : α}

/-- A reader that opens a bracket first. -/
theorem of_one (hzero : read 0 j = none) (hdepth : 1 ≤ j.depth)
    (h : ∀ levels, read (levels + 1) j = if j.depth ≤ levels + 1 then some x else none) :
    Decodes read j x := by
  intro levels
  cases levels with
  | zero => rw [hzero, if_neg (by omega)]
  | succ levels => exact h levels

/-- A reader that opens two brackets first. -/
theorem of_two (hzero : read 0 j = none) (hone : read 1 j = none) (hdepth : 2 ≤ j.depth)
    (h : ∀ levels, read (levels + 2) j = if j.depth ≤ levels + 2 then some x else none) :
    Decodes read j x := by
  refine of_one hzero (by omega) fun levels => ?_
  cases levels with
  | zero => rw [hone, if_neg (by omega)]
  | succ levels => exact h levels

end Decodes

@[simp]
theorem depth_text (s : String) : (Json.text s).depth = 0 := rfl

@[simp]
theorem depth_record (members : List (String × Json)) :
    (record members).depth = depthItems (members.map Prod.snd) + 1 := by
  have hmembers : depthMembers (members.map fun m => (some m.1, m.2)) =
      depthItems (members.map Prod.snd) := by
    induction members with
    | nil => rfl
    | cons m members ih => rw [List.map_cons, List.map_cons, depthMembers, depthItems, ih]
  rw [record, depth, hmembers]

@[simp]
theorem depth_tag (name : String) (value : Json) : (tag name value).depth = value.depth + 1 := by
  simp [tag, depthItems]

/-- The items of an array are read one after the other, each within the same levels. -/
theorem mapM_within {α : Type} {read : Nat → Json → Option α} {store : α → Json} {xs : List α}
    (h : ∀ x ∈ xs, Decodes read (store x) x) (levels : Nat) :
    (xs.map store).mapM (read levels) =
      if depthItems (xs.map store) ≤ levels then some xs else none := by
  induction xs with
  | nil => simp [depthItems]
  | cons x xs ih =>
    obtain ⟨hx, hxs⟩ := List.forall_mem_cons.1 h
    rw [List.map_cons, List.mapM_cons, hx levels, ih hxs, depthItems]
    simp only [bind_within, Nat.max_le, ite_and]
    rfl

theorem decodes_array {α : Type} {read : Nat → Json → Option α} {store : α → Json} {xs : List α}
    (h : ∀ x ∈ xs, Decodes read (store x) x) :
    Decodes (arrayOfJson? read) (arr (xs.map store)) xs := by
  refine .of_one rfl (by simp [depth]) fun levels => ?_
  show (xs.map store).mapM (read levels) = _
  simp [mapM_within h, depth]

/-! ## Expressions -/

theorem BinaryOp.decodes (op : BinaryOp) : Decodes ofJson? op.toJson op := by
  intro levels
  show (BinaryOp.ofTag? op.tag) = _
  simp [toJson]

theorem UnaryOp.decodes (op : UnaryOp) : Decodes ofJson? op.toJson op := by
  intro levels
  show (UnaryOp.ofTag? op.tag) = _
  simp [toJson]

theorem Literal.decodes (v : Literal) : Decodes ofJson? v.toJson v := by
  cases v with
  | null =>
    intro levels
    show some null = _
    simp [toJson]
  | int w =>
    refine .of_one rfl (by simp [toJson]) fun levels => ?_
    show (Word.ofInt? w.val).map int = _
    simp [toJson, Json.int, depth]
  | bool b =>
    refine .of_one rfl (by simp [toJson]) fun levels => ?_
    show some (bool b) = _
    simp [toJson, depth]

namespace Expr

theorem toJsons_eq_map (es : List Expr) : toJsons es = es.map toJson := by
  induction es with
  | nil => rfl
  | cons e es ih => rw [toJsons, List.map_cons, ih]

theorem decodes (e : Expr) : Decodes ofJson? e.toJson e := by
  match e with
  | var name =>
    refine .of_one rfl (by simp [toJson]) fun levels => ?_
    show some (var name) = _
    simp [toJson]
  | lit v =>
    refine .of_one rfl (by simp [toJson]) fun levels => ?_
    show (Literal.ofJson? levels v.toJson).map lit = _
    rw [Literal.decodes v levels, map_within]
    simp [toJson]
  | binary op lhs rhs =>
    refine .of_two rfl rfl (by simp [toJson]) fun levels => ?_
    show (do
      let op ← BinaryOp.ofJson? levels op.toJson
      let lhs ← ofJson? levels lhs.toJson
      let rhs ← ofJson? levels rhs.toJson
      return binary op lhs rhs) = _
    rw [BinaryOp.decodes op levels, decodes lhs levels, decodes rhs levels]
    simp [bind_within, toJson, depthItems, ite_and]
  | unary op operand =>
    refine .of_two rfl rfl (by simp [toJson]) fun levels => ?_
    show (do
      let op ← UnaryOp.ofJson? levels op.toJson
      let operand ← ofJson? levels operand.toJson
      return unary op operand) = _
    rw [UnaryOp.decodes op levels, decodes operand levels]
    simp [bind_within, toJson, depthItems, ite_and]
  | field receiver name =>
    refine .of_two rfl rfl (by simp [toJson]) fun levels => ?_
    show (do
      let receiver ← ofJson? levels receiver.toJson
      return field receiver name) = _
    rw [decodes receiver levels]
    simp [bind_within, toJson, depthItems]
  | index receiver idx =>
    refine .of_two rfl rfl (by simp [toJson]) fun levels => ?_
    show (do
      let receiver ← ofJson? levels receiver.toJson
      let idx ← ofJson? levels idx.toJson
      return index receiver idx) = _
    rw [decodes receiver levels, decodes idx levels]
    simp [bind_within, toJson, depthItems, ite_and]
  | array elements =>
    refine .of_two rfl rfl (by simp [toJson, depth]) fun levels => ?_
    show ((toJsons elements).mapM (ofJson? levels)).map array = _
    rw [toJsons_eq_map, mapM_within (fun x hx => decodes x) levels, map_within]
    simp [toJson, depth, toJsons_eq_map]
  | call callee args =>
    refine .of_two rfl rfl (by simp [toJson]) fun levels => ?_
    -- the arguments are an array inside the record
    cases levels with
    | zero =>
      rw [if_neg (by simp [toJson, depthItems, depth])]
      rfl
    | succ levels =>
      show (do
        let args ← (toJsons args).mapM (ofJson? levels)
        return call callee args) = _
      rw [toJsons_eq_map, mapM_within (fun x hx => decodes x) levels]
      simp [bind_within, toJson, depthItems, depth, toJsons_eq_map]

end Expr

/-! ## Statements -/

theorem Selector.decodes (sel : Selector) : Decodes ofJson? sel.toJson sel := by
  cases sel with
  | field name =>
    refine .of_one rfl (by simp [toJson]) fun levels => ?_
    show some (field name) = _
    simp [toJson]
  | index idx =>
    refine .of_one rfl (by simp [toJson]) fun levels => ?_
    show (Expr.ofJson? levels idx.toJson).map index = _
    rw [Expr.decodes idx levels, map_within]
    simp [toJson]

theorem Stmt.decodes (stmt : Stmt) : Decodes ofJson? stmt.toJson stmt := by
  cases stmt with
  | assign lhs rhs =>
    refine .of_two rfl rfl (by simp [toJson]) fun levels => ?_
    show (do
      let rhs ← Expr.ofJson? levels rhs.toJson
      return assign lhs rhs) = _
    rw [Expr.decodes rhs levels]
    simp [bind_within, toJson, depthItems]
  | write receiver sel rhs =>
    refine .of_two rfl rfl (by simp [toJson]) fun levels => ?_
    show (do
      let receiver ← Expr.ofJson? levels receiver.toJson
      let sel ← Selector.ofJson? levels sel.toJson
      let rhs ← Expr.ofJson? levels rhs.toJson
      return write receiver sel rhs) = _
    rw [Expr.decodes receiver levels, Selector.decodes sel levels, Expr.decodes rhs levels]
    simp [bind_within, toJson, depthItems, ite_and]
  | throw exn =>
    refine .of_two rfl rfl (by simp [toJson]) fun levels => ?_
    show (Expr.ofJson? levels exn.toJson).map throw = _
    rw [Expr.decodes exn levels, map_within]
    simp [toJson, depthItems]
  | assume cond =>
    refine .of_one (by cases cond <;> rfl) (by simp [toJson]) fun levels => ?_
    have hread : ofJson? (levels + 1) (assume cond).toJson =
        (Expr.ofJson? levels cond.toJson).map assume := by
      cases cond <;> cases levels <;> rfl
    rw [hread, Expr.decodes cond levels, map_within]
    simp [toJson]
  | expr e =>
    refine .of_one (by cases e <;> rfl) (by simp [toJson]) fun levels => ?_
    have hread : ofJson? (levels + 1) (expr e).toJson =
        (Expr.ofJson? levels e.toJson).map expr := by
      cases e <;> cases levels <;> rfl
    rw [hread, Expr.decodes e levels, map_within]
    simp [toJson]
  | skip =>
    intro levels
    show some skip = _
    simp [toJson]

/-! ## Programs -/

theorem decodes_text (s : String) : Decodes (fun _ => text?) (Json.text s) s := by
  intro levels
  simp [Json.text, text?, depth]

theorem SourceEdge.decodes (e : SourceEdge) : Decodes ofJson? e.toJson e := by
  refine .of_one rfl (by simp [toJson]) fun levels => ?_
  show (do
    let stmt ← Stmt.ofJson? levels e.stmt.toJson
    return SourceEdge.mk e.src e.dst stmt) = _
  rw [Stmt.decodes e.stmt levels]
  simp [bind_within, toJson, depthItems]

theorem SourceFunction.decodes (f : SourceFunction) : Decodes ofJson? f.toJson f := by
  refine .of_one rfl (by simp [toJson]) fun levels => ?_
  show (do
    let formals ← arrayOfJson? (fun _ => text?) levels (arr (f.formals.map Json.text))
    let edges ← arrayOfJson? SourceEdge.ofJson? levels (arr (f.edges.map SourceEdge.toJson))
    return SourceFunction.mk f.name formals f.entry f.exit edges) = _
  rw [decodes_array (fun s _ => decodes_text s) levels,
    decodes_array (fun e _ => SourceEdge.decodes e) levels]
  simp [bind_within, toJson, depthItems, ite_and]

theorem SourceProgram.decodes (p : SourceProgram) : Decodes ofJson? p.toJson p := by
  refine .of_one rfl (by simp [toJson]) fun levels => ?_
  show (do
    let functions ← arrayOfJson? SourceFunction.ofJson? levels
      (arr (p.functions.map SourceFunction.toJson))
    return SourceProgram.mk functions) = _
  rw [decodes_array (fun f _ => SourceFunction.decodes f) levels]
  simp [bind_within, toJson, depthItems]

/-! ## Texts -/

theorem Json.itemsPlain_map {α : Type} (store : α → Json) (xs : List α) :
    itemsPlain (xs.map store) = xs.all fun x => (store x).isPlain := by
  induction xs with
  | nil => rfl
  | cons x xs ih => simp [itemsPlain, ih]

theorem Json.isPlain_tag (name : String) (value : Json) :
    (tag name value).isPlain = value.isPlain := by
  simp [tag, isPlain_record]

@[simp]
theorem Json.isPlain_text (s : String) : (Json.text s).isPlain = true := rfl

theorem Expr.isPlain_toJson (e : Expr) : e.toJson.isPlain = true := by
  match e with
  | var name => simp [toJson, isPlain_tag]
  | lit v => cases v <;> simp [toJson, Literal.toJson, isPlain_tag, Json.int, isPlain]
  | binary op lhs rhs =>
    simp [toJson, isPlain_tag, isPlain_record, BinaryOp.toJson, isPlain_toJson lhs,
      isPlain_toJson rhs]
  | unary op operand =>
    simp [toJson, isPlain_tag, isPlain_record, UnaryOp.toJson, isPlain_toJson operand]
  | field receiver name => simp [toJson, isPlain_tag, isPlain_record, isPlain_toJson receiver]
  | index receiver idx =>
    simp [toJson, isPlain_tag, isPlain_record, isPlain_toJson receiver, isPlain_toJson idx]
  | array elements =>
    have helements : ∀ e ∈ elements, e.toJson.isPlain = true := fun e he => isPlain_toJson e
    simpa [toJson, isPlain_tag, isPlain, toJsons_eq_map, itemsPlain_map] using helements
  | call callee args =>
    have hargs : ∀ e ∈ args, e.toJson.isPlain = true := fun e he => isPlain_toJson e
    simpa [toJson, isPlain_tag, isPlain_record, isPlain, toJsons_eq_map, itemsPlain_map] using hargs

theorem Stmt.isPlain_toJson (stmt : Stmt) : stmt.toJson.isPlain = true := by
  cases stmt with
  | write receiver sel rhs =>
    cases sel <;> simp [toJson, Selector.toJson, isPlain_tag, isPlain_record, Expr.isPlain_toJson]
  | assign | throw | assume | expr | skip =>
    simp [toJson, isPlain_tag, isPlain_record, Expr.isPlain_toJson]

theorem SourceProgram.isPlain_toJson (p : SourceProgram) : p.toJson.isPlain = true := by
  have hedge : ∀ e : SourceEdge, e.toJson.isPlain = true := fun e => by
    simp [SourceEdge.toJson, isPlain_record, Stmt.isPlain_toJson]
  have hfunction : ∀ f : SourceFunction, f.toJson.isPlain = true := fun f => by
    simp [SourceFunction.toJson, isPlain_record, isPlain, itemsPlain_map, hedge]
  simp [toJson, isPlain_record, isPlain, itemsPlain_map, hfunction]

/-- A plain tree is read from its texts as from itself. -/
theorem Decodes.texts {α : Type} {read : Nat → Json → Option α} {j : Json} {x : α}
    (h : Decodes read j x) (hplain : j.isPlain = true) :
    (parse? j.compact).bind (read maxDepth) = (if nesting j.compact ≤ 127 then some x else none) ∧
      (parse? j.pretty).bind (read maxDepth) = if nesting j.pretty ≤ 127 then some x else none := by
  rw [parse?_compact hplain, parse?_pretty hplain, nesting_compact, nesting_pretty]
  exact ⟨h maxDepth, h maxDepth⟩

theorem loadText_of_some {text : String} {p : SourceProgram}
    (h : SourceProgram.decode? text = some p) (supply : LocSupply) :
    loadText text supply = p.load supply := by
  rw [loadText, h]

theorem loadText_of_none {text : String} (h : SourceProgram.decode? text = none)
    (supply : LocSupply) :
    loadText text supply = ⟨.error (.malformedProgram (objection text)), supply, []⟩ := by
  rw [loadText, h]

/-- Programs, statements and expressions are read back from texts that nest at most 127 deep, and
texts of them that nest deeper are refused. -/
theorem SourceProgram.read_back_within_limit :
    (∀ p : SourceProgram,
      decode? p.encode = (if nesting p.encode ≤ 127 then some p else none) ∧
        decode? p.toJson.pretty = (if nesting p.toJson.pretty ≤ 127 then some p else none) ∧
        ∀ supply, loadText p.encode supply =
          if nesting p.encode ≤ 127 then p.load supply
          else ⟨.error (.malformedProgram (objection p.encode)), supply, []⟩) ∧
    (∀ stmt : Stmt,
      (parse? stmt.toJson.compact).bind (Stmt.ofJson? maxDepth) =
          (if nesting stmt.toJson.compact ≤ 127 then some stmt else none) ∧
        (parse? stmt.toJson.pretty).bind (Stmt.ofJson? maxDepth) =
          if nesting stmt.toJson.pretty ≤ 127 then some stmt else none) ∧
    ∀ e : Expr,
      (parse? e.toJson.compact).bind (Expr.ofJson? maxDepth) =
          (if nesting e.toJson.compact ≤ 127 then some e else none) ∧
        (parse? e.toJson.pretty).bind (Expr.ofJson? maxDepth) =
          if nesting e.toJson.pretty ≤ 127 then some e else none := by
  refine ⟨fun p => ?_, fun stmt => ?_, fun e => ?_⟩
  · obtain ⟨hcompact, hpretty⟩ := (decodes p).texts p.isPlain_toJson
    refine ⟨hcompact, hpretty, fun supply => ?_⟩
    have hdecode : decode? p.encode = if nesting p.encode ≤ 127 then some p else none := hcompact
    by_cases hlimit : nesting p.encode ≤ 127
    · rw [if_pos hlimit] at hdecode ⊢
      exact loadText_of_some hdecode supply
    · rw [if_neg hlimit] at hdecode ⊢
      exact loadText_of_none hdecode supply
  · exact (Stmt.decodes stmt).texts stmt.isPlain_toJson
  · exact (Expr.decodes e).texts e.isPlain_toJson

end Demanded
