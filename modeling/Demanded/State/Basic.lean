import Demanded.OrdMap
import Demanded.Interval.Eval
import Demanded.Lang.Expr

/-!
# Abstract states

A state is unreachable, or binds keys to intervals.  A key is the name of a variable, or the name of
a variable and of one of its fields with a dot between them.  A key without a binding is not
constrained.

`State.set` is the one way in which the analysis binds a key: an empty interval makes the whole
state unreachable, and an unconstrained one is not stored.
-/

namespace Demanded

/-! ## Keys -/

/-- The key for the field of a variable. -/
def fieldKey (var field : String) : String := var ++ "." ++ field

/-- The rest of a list after a given beginning. -/
def dropBeginning? : List Char → List Char → Option (List Char)
  | [], cs => some cs
  | _ :: _, [] => none
  | b :: bs, c :: cs => if b = c then dropBeginning? bs cs else none

/-- The field that a key stands for, if it is the key of a field of `var`. -/
def fieldOfKey? (var key : String) : Option String :=
  (dropBeginning? (var.toList ++ ['.']) key.toList).map String.ofList

/-- The key under which facts about an expression are stored: variables and fields of variables
have one. -/
def Expr.key? : Expr → Option String
  | .var name => some name
  | .field (.var name) f => some (fieldKey name f)
  | _ => none

/-! ## States -/

/-- An abstract state. -/
inductive State where
  /-- No execution gets here. -/
  | bottom
  /-- The keys lie in their intervals. -/
  | env (bindings : OrdMap String Interval)
deriving DecidableEq

namespace State

/-- The state without constraints. -/
def top : State := env ∅

/-- Whether the state is unreachable. -/
def isBottom : State → Bool
  | bottom => true
  | env _ => false

/-- The interval of a key. -/
def get : State → String → Interval
  | bottom, _ => .bottom
  | env bindings, key => (bindings.get? key).getD .top

/-- Binds a key. -/
def set : State → String → Interval → State
  | bottom, _, _ => bottom
  | env bindings, key, value =>
    if value.isBottom then bottom
    else if value.isTop then env (bindings.erase key)
    else env (bindings.insert key value)

/-- Binds several keys, one after the other. -/
def setAll (s : State) (bindings : List (String × Interval)) : State :=
  bindings.foldl (fun s b => s.set b.1 b.2) s

/-- The facts about the fields of a variable, by the names of the fields. -/
def fieldsOf (s : State) (var : String) : List (String × Interval) :=
  match s with
  | bottom => []
  | env bindings =>
    bindings.entries.filterMap fun e => (fieldOfKey? var e.1).map fun field => (field, e.2)

/-- Removes the facts about the fields of a variable. -/
def forgetFields (s : State) (var : String) : State :=
  match s with
  | bottom => bottom
  | env bindings => env (bindings.filterKeys fun key => (fieldOfKey? var key).isNone)

/-! ## The lattice -/

/-- Merges the bindings of keys that are bound in both states. -/
def combine (merge : Interval → Interval → Interval) : State → State → State
  | bottom, t => t
  | s, bottom => s
  | env a, env b =>
    top.setAll (a.entries.filterMap fun e => (b.get? e.1).map fun v => (e.1, merge e.2 v))

/-- The least state above both. -/
def join : State → State → State := combine Interval.join

/-- Extrapolates from an accumulated state to a newer one. -/
def widen : State → State → State := combine Interval.widen

/-- The order: each binding of the second state follows from the first one. -/
def implies : State → State → Bool
  | bottom, _ => true
  | env _, bottom => false
  | env a, env b => b.entries.all fun e => ((env a).get e.1).implies e.2

/-- The text of a state. -/
def text : State → String
  | bottom => "bottom"
  | env bindings =>
    "\x7b" ++ String.intercalate ", " (bindings.entries.map fun e => e.1 ++ " -> " ++ e.2.text) ++
      "\x7d"

end State

end Demanded
