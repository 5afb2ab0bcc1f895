import Demanded.Lang.Expr

/-!
# Statements

A statement is executed along an edge of a flow graph.  `Stmt.accesses` lists the array elements
that it reads or writes.
-/

namespace Demanded

/-- What a write changes of its receiver. -/
inductive Selector where
  | field (name : String)
  | index (idx : Expr)

/-- A statement. -/
inductive Stmt where
  | assign (lhs : String) (rhs : Expr)
  /-- A write to a field or an element of a receiver. -/
  | write (receiver : Expr) (sel : Selector) (rhs : Expr)
  | throw (exn : Expr)
  /-- A guard: execution goes on only if the condition holds. -/
  | assume (cond : Expr)
  /-- An expression evaluated for its effects. -/
  | expr (e : Expr)
  | skip

namespace Stmt

/-- The variable that a statement defines. -/
def defined? : Stmt → Option String
  | assign lhs _ => some lhs
  | _ => none

/-- The array elements that a statement reads or writes. -/
def accesses : Stmt → List Access
  | assign _ rhs => rhs.accesses
  | write receiver (.field _) rhs => receiver.accesses ++ rhs.accesses
  | write receiver (.index idx) rhs =>
    ⟨receiver, idx⟩ :: (idx.accesses ++ (receiver.accesses ++ rhs.accesses))
  | throw exn => exn.accesses
  | assume cond => cond.accesses
  | expr e => e.accesses
  | skip => []

/-- The text of a statement. -/
def text : Stmt → String
  | assign lhs rhs => lhs ++ " := " ++ rhs.text
  | write receiver (.field name) rhs => receiver.text ++ "." ++ name ++ " := " ++ rhs.text
  | write receiver (.index idx) rhs => receiver.text ++ "[" ++ idx.text ++ "] := " ++ rhs.text
  | throw exn => "throw " ++ exn.text
  | assume cond => "assume " ++ cond.text
  | expr e => e.text
  | skip => "skip"

end Stmt

end Demanded
