import Demanded.Bounds.Verdict
import Demanded.DemandGraph.Rounds
import Demanded.Json.Writer

/-!
# Checking array accesses

`DemandGraph.checkBounds` demands the stable state before each statement with array accesses and
judges the accesses by it.
-/

namespace Demanded

/-- An access with its verdict. -/
structure Finding where
  /-- Where the statement starts. -/
  src : Loc
  /-- Where the statement leads. -/
  dst : Loc
  /-- The access. -/
  access : Access
  /-- What is known about it. -/
  verdict : Verdict

namespace Finding

/-- The text of the access. -/
def accessText (f : Finding) : String :=
  f.access.receiver.text ++ "[" ++ f.access.idx.text ++ "]"

/-- The text of a finding. -/
def text (f : Finding) : String :=
  f.src.text ++ " -> " ++ f.dst.text ++ ": " ++ f.accessText ++ " is " ++ f.verdict.text

/-- The stored form of a finding. -/
def toJson (f : Finding) : Json :=
  Json.record [("src", f.src.toJson), ("dst", f.dst.toJson), ("access", Json.text f.accessText),
    ("verdict", Json.text f.verdict.tag)]

/-- The text in which findings are stored. -/
def encodeAll (findings : List Finding) : String := (Json.arr (findings.map toJson)).pretty

end Finding

/-- The findings about a statement, given the state before it. -/
def judge (pre : State) (src dst : Loc) (stmt : Stmt) : List Finding :=
  stmt.accesses.map fun access => ⟨src, dst, access, classify pre access⟩

namespace DemandGraph

/-- Checks statements, one after the other.  `findings` and `events` tell what went before. -/
def checkStmts (patience : Nat) : List (NodeName × Stmt) → List Finding → Array Event →
    DemandGraph → Outcome (List Finding)
  | [], findings, events, g => ⟨.ok findings, g, events⟩
  | (name, stmt) :: rest, findings, events, g =>
    if stmt.accesses.isEmpty then checkStmts patience rest findings events g
    else
      match name with
      | .state _ => ⟨.error (.notStmt name), g, events⟩
      | .stmt src dst _ =>
        let out := g.stateAt patience src
        match out.result with
        | .error e => ⟨.error e, out.graph, events ++ out.events⟩
        | .ok pre =>
          let found := judge pre src dst stmt
          let checks := found.flatMap fun f =>
            (classifyWarnings pre f.access).map Event.zeroDivisor ++
              [Event.accessChecked f.access.idx name f.verdict]
          checkStmts patience rest (findings ++ found) (events ++ out.events ++ checks) out.graph

/-- Checks every array access of the program, in the order of statement names. -/
def checkBounds (g : DemandGraph) (patience : Nat) : Outcome (List Finding) :=
  checkStmts patience g.skeleton.stmts.entries [] #[] g

end DemandGraph

end Demanded
