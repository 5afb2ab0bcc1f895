import Demanded.Json.Shape
import Demanded.Lang.Stmt

/-!
# The stored form of statements

Each type of the language has `toJson`, its stored form, and `ofJson?`, which reads it back.  The
fields of a record are stored in their order here.  `ofJson?` takes the number of arrays and objects
that may still be opened; an expression opens at least one, so the recursion is on that number.
-/

namespace Demanded

open Json

namespace BinaryOp

/-- The stored form of an operator. -/
def toJson (op : BinaryOp) : Json := Json.text op.tag

/-- Reads an operator. -/
def ofJson? (levels : Nat) (j : Json) : Option BinaryOp := (j.unitTag? levels).bind ofTag?

end BinaryOp

namespace UnaryOp

/-- The stored form of an operator. -/
def toJson (op : UnaryOp) : Json := Json.text op.tag

/-- Reads an operator. -/
def ofJson? (levels : Nat) (j : Json) : Option UnaryOp := (j.unitTag? levels).bind ofTag?

end UnaryOp

namespace Literal

/-- The stored form of a literal. -/
def toJson : Literal → Json
  | int v => Json.tag "Int" (Json.int v.val)
  | bool b => Json.tag "Bool" (Json.bool b)
  | null => Json.text "Null"

/-- Reads a literal. -/
def ofJson? (levels : Nat) (j : Json) : Option Literal :=
  if j.unitTag? levels = some "Null" then some null
  else if levels = 0 then none
  else
    match j.tagged? with
    | some ("Int", v) => v.word?.map int
    | some ("Bool", v) => v.bool?.map bool
    | _ => none

end Literal

namespace Expr

mutual

/-- The stored form of an expression. -/
def toJson : Expr → Json
  | var name => Json.tag "Var" (Json.text name)
  | lit value => Json.tag "Lit" value.toJson
  | binary op lhs rhs =>
    Json.tag "Binop" (record [("op", op.toJson), ("lhs", toJson lhs), ("rhs", toJson rhs)])
  | unary op operand =>
    Json.tag "Unop" (record [("op", op.toJson), ("operand", toJson operand)])
  | field receiver name =>
    Json.tag "Field" (record [("rcvr", toJson receiver), ("field", Json.text name)])
  | index receiver idx =>
    Json.tag "Index" (record [("rcvr", toJson receiver), ("idx", toJson idx)])
  | array elements => Json.tag "Array" (arr (toJsons elements))
  | call callee args =>
    Json.tag "Call" (record [("callee", Json.text callee), ("args", arr (toJsons args))])

/-- The stored forms of a list of expressions. -/
def toJsons : List Expr → List Json
  | [] => []
  | e :: rest => toJson e :: toJsons rest

end

/-- Reads an expression. -/
def ofJson? : Nat → Json → Option Expr
  | 0, _ => none
  | levels + 1, j =>
    match j.tagged? with
    | some ("Var", v) => v.text?.map var
    | some ("Lit", v) => (Literal.ofJson? levels v).map lit
    | some ("Binop", v) =>
      match levels, v.fields? ["op", "lhs", "rhs"] with
      | levels + 1, some [some op, some lhs, some rhs] => do
        return binary (← BinaryOp.ofJson? levels op) (← ofJson? levels lhs) (← ofJson? levels rhs)
      | _, _ => none
    | some ("Unop", v) =>
      match levels, v.fields? ["op", "operand"] with
      | levels + 1, some [some op, some operand] => do
        return unary (← UnaryOp.ofJson? levels op) (← ofJson? levels operand)
      | _, _ => none
    | some ("Field", v) =>
      match levels, v.fields? ["rcvr", "field"] with
      | levels + 1, some [some receiver, some name] => do
        return field (← ofJson? levels receiver) (← name.text?)
      | _, _ => none
    | some ("Index", v) =>
      match levels, v.fields? ["rcvr", "idx"] with
      | levels + 1, some [some receiver, some idx] => do
        return index (← ofJson? levels receiver) (← ofJson? levels idx)
      | _, _ => none
    | some ("Array", v) =>
      match levels, v.items? with
      | levels + 1, some items => (items.mapM fun item => ofJson? levels item).map array
      | _, _ => none
    | some ("Call", v) =>
      match levels, v.fields? ["callee", "args"] with
      | levels + 2, some [some callee, some args] => do
        let items ← args.items?
        return call (← callee.text?) (← items.mapM fun item => ofJson? levels item)
      | _, _ => none
    | _ => none

end Expr

namespace Selector

/-- The stored form of a selector. -/
def toJson : Selector → Json
  | field name => Json.tag "Field" (Json.text name)
  | index idx => Json.tag "Index" idx.toJson

/-- Reads a selector. -/
def ofJson? : Nat → Json → Option Selector
  | 0, _ => none
  | levels + 1, j =>
    match j.tagged? with
    | some ("Field", v) => v.text?.map field
    | some ("Index", v) => (Expr.ofJson? levels v).map index
    | _ => none

end Selector

namespace Stmt

/-- The stored form of a statement. -/
def toJson : Stmt → Json
  | assign lhs rhs => Json.tag "Assign" (record [("lhs", Json.text lhs), ("rhs", rhs.toJson)])
  | write receiver sel rhs =>
    Json.tag "Write"
      (record [("rcvr", receiver.toJson), ("sel", sel.toJson), ("rhs", rhs.toJson)])
  | throw exn => Json.tag "Throw" (record [("exn", exn.toJson)])
  | assume cond => Json.tag "Assume" cond.toJson
  | expr e => Json.tag "Expr" e.toJson
  | skip => Json.text "Skip"

/-- Reads a statement. -/
def ofJson? (levels : Nat) (j : Json) : Option Stmt :=
  if j.unitTag? levels = some "Skip" then some skip
  else
    match levels, j.tagged? with
    | levels + 2, some ("Assign", v) =>
      match v.fields? ["lhs", "rhs"] with
      | some [some lhs, some rhs] => do
        return assign (← lhs.text?) (← Expr.ofJson? levels rhs)
      | _ => none
    | levels + 2, some ("Write", v) =>
      match v.fields? ["rcvr", "sel", "rhs"] with
      | some [some receiver, some sel, some rhs] => do
        return write (← Expr.ofJson? levels receiver) (← Selector.ofJson? levels sel)
          (← Expr.ofJson? levels rhs)
      | _ => none
    | levels + 2, some ("Throw", v) =>
      match v.fields? ["exn"] with
      | some [some exn] => (Expr.ofJson? levels exn).map throw
      | _ => none
    | levels + 1, some ("Assume", v) => (Expr.ofJson? levels v).map assume
    | levels + 1, some ("Expr", v) => (Expr.ofJson? levels v).map expr
    | _, _ => none

end Stmt

end Demanded
