import Demanded.Json.Reader
import Demanded.Json.Shape
import Demanded.Json.Writer
import Demanded.State.Basic

/-!
# The stored form of states

Intervals and states have a JSON form.  An infinite bound is stored as `null` and may be left out.
Bounds that cross and bindings that `State.set` would not store are kept as they are, so a state is
read back as it was written.
-/

namespace Demanded

open Json

namespace Interval

/-- The stored form of a bound. -/
def boundToJson : Bound → Json
  | none => null
  | some v => Json.int v.val

/-- Reads a bound that may be left out. -/
def boundOfJson? : Option Json → Option Bound
  | none | some null => some none
  | some j => j.word?.map some

/-- The stored form of an interval. -/
def toJson : Interval → Json
  | bottom => Json.text "Bottom"
  | range l u => Json.tag "Range" (record [("lower", boundToJson l), ("upper", boundToJson u)])

/-- Reads an interval. -/
def ofJson? (levels : Nat) (j : Json) : Option Interval :=
  if j.unitTag? levels = some "Bottom" then some bottom
  else
    match levels, j.tagged? with
    | _ + 2, some ("Range", v) =>
      match v.fields? ["lower", "upper"] with
      | some [l, u] => do return range (← boundOfJson? l) (← boundOfJson? u)
      | _ => none
    | _, _ => none

end Interval

namespace State

/-- The stored form of a state. -/
def toJson : State → Json
  | bottom => Json.text "Bottom"
  | env bindings => Json.tag "Env" (record (bindings.entries.map fun e => (e.1, e.2.toJson)))

/-- Reads a binding. -/
def bindingOfJson? (levels : Nat) : Option String × Json → Option (String × Interval)
  | (key, value) => do return (← key, ← Interval.ofJson? levels value)

/-- Reads a state. -/
def ofJson? (levels : Nat) (j : Json) : Option State :=
  if j.unitTag? levels = some "Bottom" then some bottom
  else
    match levels, j.tagged? with
    | levels + 2, some ("Env", .obj members) =>
      (members.mapM (bindingOfJson? levels)).map fun bindings => env (.ofList bindings)
    | _, _ => none

/-- The text in which a state is stored. -/
def encode (s : State) : String := s.toJson.pretty

/-- The state that a text stores. -/
def decode? (text : String) : Option State := (parse? text).bind (ofJson? maxDepth)

end State

end Demanded
