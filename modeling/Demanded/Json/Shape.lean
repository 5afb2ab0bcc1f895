import Demanded.Json.Basic
import Demanded.Word

/-!
# Shapes of stored data

How the trees of JSON texts stand for data.

* An alternative without content is the text of its tag, or an object with the tag as its only key
  and the value `null`.
* An alternative with content is an object with the tag as its only key.
* A record is an object, in which other members are skipped, or the array of all its fields in
  order.  A field is given at most once.

A decoder takes the number of arrays and objects that may still be opened, and fails when the data
nests deeper.  What is skipped does not count.
-/

namespace Demanded.Json

/-- How many arrays and objects may be open at once in data that is decoded. -/
def maxDepth : Nat := 127

/-- The tag and the content of an alternative with content. -/
def tagged? : Json → Option (String × Json)
  | obj [(some name, value)] => some (name, value)
  | _ => none

/-- The tag of an alternative without content. -/
def unitTag? (levels : Nat) : Json → Option String
  | str s => s
  | obj [(some name, null)] => if levels = 0 then none else some name
  | _ => none

/-- The value of the member with a key; `none` in the result if it is given twice. -/
def member? (name : String) (members : List (Option String × Json)) : Option (Option Json) :=
  match members.filter fun m => m.1 == some name with
  | [] => some none
  | [m] => some (some m.2)
  | _ => none

/-- The fields of a record with the given names. -/
def fields? (names : List String) : Json → Option (List (Option Json))
  | arr items => if items.length = names.length then some (items.map some) else none
  | obj members =>
    if members.all fun m => m.1.isSome then names.mapM fun name => member? name members else none
  | _ => none

/-- A text. -/
def text? : Json → Option String
  | str s => s
  | _ => none

/-- A truth value. -/
def bool? : Json → Option Bool
  | bool b => some b
  | _ => none

/-- A plain integer. -/
def int? : Json → Option Int
  | num n => n
  | _ => none

/-- An integer in the range of a word. -/
def word? (j : Json) : Option Word := j.int?.bind Word.ofInt?

/-- The items of an array. -/
def items? : Json → Option (List Json)
  | arr items => some items
  | _ => none

end Demanded.Json
