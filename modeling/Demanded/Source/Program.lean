import Demanded.Json.Reader
import Demanded.Json.Writer
import Demanded.Lang.Codec

/-!
# Programs as they are stored

A stored program names its locations by labels.  A function that does not say otherwise has no
parameters, enters at the label `entry` and leaves at the label `exit`.
-/

namespace Demanded

open Json

/-- A statement between two labelled locations. -/
structure SourceEdge where
  src : String
  dst : String
  stmt : Stmt

/-- A stored function. -/
structure SourceFunction where
  name : String
  /-- The parameters, in order. -/
  formals : List String
  /-- The label where the function enters. -/
  entry : String
  /-- The label where the function leaves. -/
  exit : String
  /-- The body. -/
  edges : List SourceEdge

/-- A stored program. -/
structure SourceProgram where
  functions : List SourceFunction

namespace SourceEdge

/-- The stored form of an edge. -/
def toJson (e : SourceEdge) : Json :=
  record [("src", Json.text e.src), ("dst", Json.text e.dst), ("stmt", e.stmt.toJson)]

/-- Reads an edge. -/
def ofJson? : Nat → Json → Option SourceEdge
  | 0, _ => none
  | levels + 1, j =>
    match j.fields? ["src", "dst", "stmt"] with
    | some [some src, some dst, some stmt] => do
      return ⟨← src.text?, ← dst.text?, ← Stmt.ofJson? levels stmt⟩
    | _ => none

end SourceEdge

/-- Reads an array, with a reader for its items. -/
def arrayOfJson? {α : Type} (item? : Nat → Json → Option α) : Nat → Json → Option (List α)
  | 0, _ => none
  | levels + 1, j => j.items?.bind fun items => items.mapM (item? levels)

namespace SourceFunction

/-- The labels that a function mentions: its ends, then those of its edges. -/
def labels (f : SourceFunction) : List String :=
  f.entry :: f.exit :: f.edges.flatMap fun e => [e.src, e.dst]

/-- The stored form of a function. -/
def toJson (f : SourceFunction) : Json :=
  record [("name", Json.text f.name), ("formals", arr (f.formals.map Json.text)),
    ("entry", Json.text f.entry), ("exit", Json.text f.exit),
    ("edges", arr (f.edges.map SourceEdge.toJson))]

/-- Reads a field, or takes a default if it is left out. -/
def fieldOr {α : Type} (default : α) (read : Json → Option α) : Option Json → Option α
  | none => some default
  | some j => read j

/-- Reads a function. -/
def ofJson? : Nat → Json → Option SourceFunction
  | 0, _ => none
  | levels + 1, j =>
    match j.fields? ["name", "formals", "entry", "exit", "edges"] with
    | some [some name, formals, enters, leaves, some edges] => do
      return {
        name := ← name.text?
        formals := ← fieldOr [] (arrayOfJson? (fun _ => Json.text?) levels) formals
        entry := ← fieldOr "entry" Json.text? enters
        exit := ← fieldOr "exit" Json.text? leaves
        edges := ← arrayOfJson? SourceEdge.ofJson? levels edges }
    | _ => none

end SourceFunction

namespace SourceProgram

/-- The stored form of a program. -/
def toJson (p : SourceProgram) : Json :=
  record [("functions", arr (p.functions.map SourceFunction.toJson))]

/-- Reads a program. -/
def ofJson? : Nat → Json → Option SourceProgram
  | 0, _ => none
  | levels + 1, j =>
    match j.fields? ["functions"] with
    | some [some functions] => do
      return ⟨← arrayOfJson? SourceFunction.ofJson? levels functions⟩
    | _ => none

/-- The text in which a program is stored. -/
def encode (p : SourceProgram) : String := p.toJson.compact

/-- The program that a text stores. -/
def decode? (text : String) : Option SourceProgram := (parse? text).bind (ofJson? maxDepth)

end SourceProgram

end Demanded
