/-!
# JSON values

A `Json` is the tree of a JSON text.  The tree keeps what this library decodes: integers, texts,
arrays, and objects with their members in the order of the text, repeated keys included.  Two kinds
of leaf are well formed in a text and yet have no value here.  A number that is not written as a
plain integer is `num none`, and a string with an escape for half of a surrogate pair is `str none`.
Both may stand where a reader skips over a value.
-/

namespace Demanded

/-- The tree of a JSON text. -/
inductive Json where
  | null
  | bool (value : Bool)
  /-- A number; `none` if it is not written as a plain integer. -/
  | num (value : Option Int)
  /-- A string; `none` if an escape in it stands for half of a surrogate pair. -/
  | str (value : Option String)
  | arr (items : List Json)
  /-- The members in the order of the text; a key is `none` as for strings. -/
  | obj (members : List (Option String × Json))

namespace Json

/-- An integer. -/
def int (n : Int) : Json := num (some n)

/-- A natural number. -/
def nat (n : Nat) : Json := num (some n)

/-- A text. -/
def text (s : String) : Json := str (some s)

/-- An object with the given members. -/
def record (members : List (String × Json)) : Json :=
  obj (members.map fun m => (some m.1, m.2))

/-- An object with one member, whose key tells what the value is. -/
def tag (name : String) (value : Json) : Json := record [(name, value)]

/-! ## Nesting -/

mutual

/-- How many arrays and objects are open at the deepest point. -/
def depth : Json → Nat
  | arr items => depthItems items + 1
  | obj members => depthMembers members + 1
  | _ => 0

/-- The greatest depth of the items of an array. -/
def depthItems : List Json → Nat
  | [] => 0
  | item :: rest => max (depth item) (depthItems rest)

/-- The greatest depth of the values of an object. -/
def depthMembers : List (Option String × Json) → Nat
  | [] => 0
  | (_, value) :: rest => max (depth value) (depthMembers rest)

end

end Json

end Demanded
