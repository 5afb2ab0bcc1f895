import Demanded.DemandGraph.Basic

/-!
# Demo programs

Four small programs whose array accesses are safe, out of bounds, or not known to be either.
-/

namespace Demanded

/-- A demo program. -/
inductive Demo where
  /-- Fills an array of length 5 within its bounds. -/
  | safeLoop
  /-- Goes one past the end of an array of length 5. -/
  | offByOne
  /-- Reads before the start of an array. -/
  | negativeIndex
  /-- Reads at an index that is a parameter. -/
  | unknownIndex
deriving DecidableEq

namespace Demo

/-- The demo programs. -/
def all : List Demo := [safeLoop, offByOne, negativeIndex, unknownIndex]

/-- The name of a demo program. -/
def name : Demo → String
  | safeLoop => "safe-loop"
  | offByOne => "off-by-one"
  | negativeIndex => "negative-index"
  | unknownIndex => "unknown-index"

/-- The demo program with a name. -/
def ofName? (s : String) : Option Demo := all.find? fun d => d.name == s

theorem ofName?_name (d : Demo) : ofName? d.name = some d := by
  cases d <;> rfl

/-! ## Parts of programs -/

/-- A small number in a program. -/
def number (n : Nat) (h : n < 100 := by decide) : Expr := .int ⟨(n : Int), by omega, by omega⟩

/-- The array of the first numbers. -/
def arrayUpTo (length : Nat) (h : length ≤ 100 := by decide) : Expr :=
  .array ((List.finRange length).map fun n => number n.val (Nat.lt_of_lt_of_le n.isLt h))

/-- The guard that compares a variable with a number. -/
def guard (op : BinaryOp) (var : String) (bound : Nat) (h : bound < 100 := by decide) : Stmt :=
  .assume (.binary op (.var var) (number bound h))

/-- A flow graph with one function, which has all its statements. -/
def mainFunction (formals : List String) (f : FlowGraph) : FlowGraph :=
  f.addFunction (.ofBody "main" formals .entry .exit f.stmts)

/-- A loop that fills an array of length 5 while a guard holds. -/
def fillingLoop (op leaving : BinaryOp) : FlowGraph :=
  let init := Loc.id 0
  let head := Loc.id 1
  let body := Loc.id 2
  let written := Loc.id 3
  mainFunction [] <|
    FlowGraph.empty
      |>.addEdge .entry init (.assign "a" (arrayUpTo 5))
      |>.addEdge init head (.assign "i" (number 0))
      |>.addEdge head body (guard op "i" 5)
      |>.addEdge body written (.write (.var "a") (.index (.var "i")) (.var "i"))
      |>.addEdge written head (.assign "i" (.binary .add (.var "i") (number 1)))
      |>.addEdge head .exit (guard leaving "i" 5)

/-- The flow graph of a demo program. -/
def flow : Demo → FlowGraph
  | safeLoop => fillingLoop .lt .ge
  | offByOne => fillingLoop .le .gt
  | negativeIndex =>
    mainFunction [] <|
      FlowGraph.empty
        |>.addEdge .entry (.id 0) (.assign "a" (arrayUpTo 3))
        |>.addEdge (.id 0) (.id 1) (.assign "i" (.binary .sub (number 0) (number 1)))
        |>.addEdge (.id 1) .exit (.assign "x" (.index (.var "a") (.var "i")))
  | unknownIndex =>
    mainFunction ["n"] <|
      FlowGraph.empty
        |>.addEdge .entry (.id 0) (.assign "a" (arrayUpTo 3))
        |>.addEdge (.id 0) .exit (.assign "x" (.index (.var "a") (.var "n")))

end Demo

end Demanded
