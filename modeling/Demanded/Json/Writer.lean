import Demanded.Json.Basic

/-!
# JSON text

`Json.compact` writes a value on one line without blanks, `Json.pretty` writes each item and member
on a line of its own, indented by two blanks per level.  Both are `Json.write` under a `Layout`,
which says what blanks stand where the grammar allows them.

A string escapes the quotation mark, the backslash and the characters below U+0020, the latter by
their short form where there is one.
-/

namespace Demanded.Json

/-! ## Leaves -/

/-- The digit for a value below sixteen. -/
def hexDigit (n : Nat) : Char :=
  if n < 10 then Char.ofNat ('0'.toNat + n) else Char.ofNat ('a'.toNat + (n - 10))

/-- The characters that stand for `c` inside a string. -/
def escapeChar (c : Char) : List Char :=
  if c = '"' then ['\\', '"']
  else if c = '\\' then ['\\', '\\']
  else if c.toNat < 32 then
    if c = '\x08' then ['\\', 'b']
    else if c = '\x0c' then ['\\', 'f']
    else if c = '\n' then ['\\', 'n']
    else if c = '\r' then ['\\', 'r']
    else if c = '\t' then ['\\', 't']
    else ['\\', 'u', '0', '0', hexDigit (c.toNat / 16), hexDigit (c.toNat % 16)]
  else [c]

/-- A string with its quotation marks. -/
def quote (s : String) : List Char :=
  '"' :: s.toList.flatMap escapeChar ++ ['"']

/-- The decimal digits of an integer, after a minus sign if it is negative. -/
def decimal (n : Int) : List Char :=
  if n < 0 then '-' :: Nat.toDigits 10 n.natAbs else Nat.toDigits 10 n.natAbs

/-! ## Layouts -/

/-- The blanks of a written value. -/
structure Layout where
  /-- What stands before an item, a member or a closing bracket at a depth. -/
  lead : Nat → List Char
  /-- What stands between the colon of a member and its value. -/
  afterColon : List Char

/-- No blanks. -/
def Layout.compact : Layout := ⟨fun _ => [], []⟩

/-- A line for each item and member, indented by two blanks per level. -/
def Layout.pretty : Layout := ⟨fun d => '\n' :: List.replicate (2 * d) ' ', [' ']⟩

mutual

/-- The text of a value that stands at a depth.  A leaf without a value is written as `null`. -/
def write (l : Layout) (d : Nat) : Json → List Char
  | null | num none | str none => ['n', 'u', 'l', 'l']
  | bool true => ['t', 'r', 'u', 'e']
  | bool false => ['f', 'a', 'l', 's', 'e']
  | num (some n) => decimal n
  | str (some s) => quote s
  | arr [] => ['[', ']']
  | arr (item :: rest) =>
    '[' :: l.lead (d + 1) ++ write l (d + 1) item ++ writeItems l (d + 1) rest ++ l.lead d ++ [']']
  | obj [] => ['\x7b', '\x7d']
  | obj (m :: rest) =>
    '\x7b' :: l.lead (d + 1) ++ writeMember l (d + 1) m ++ writeMembers l (d + 1) rest ++
      l.lead d ++ ['\x7d']

/-- The items of an array after the first one. -/
def writeItems (l : Layout) (d : Nat) : List Json → List Char
  | [] => []
  | item :: rest => ',' :: l.lead d ++ write l d item ++ writeItems l d rest

/-- A member of an object. -/
def writeMember (l : Layout) (d : Nat) : Option String × Json → List Char
  | (key, value) => quote (key.getD "") ++ ':' :: l.afterColon ++ write l d value

/-- The members of an object after the first one. -/
def writeMembers (l : Layout) (d : Nat) : List (Option String × Json) → List Char
  | [] => []
  | m :: rest => ',' :: l.lead d ++ writeMember l d m ++ writeMembers l d rest

end

/-- The text without blanks. -/
def compact (j : Json) : String := String.ofList (write .compact 0 j)

/-- The text with one item or member per line. -/
def pretty (j : Json) : String := String.ofList (write .pretty 0 j)

end Demanded.Json
