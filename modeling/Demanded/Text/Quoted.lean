import Demanded.Text.Printed

/-!
# Quoted labels

A label of a drawing stands between quotation marks.  The quotation mark and the backslash are
written after a backslash, the usual control characters by their letters, and any other character
that does not print on its own by its number in hexadecimal digits.
-/

namespace Demanded.Text

/-- The characters that stand for `c` in a label. -/
def labelChar (c : Char) : List Char :=
  if c = '"' then ['\\', '"']
  else if c = '\\' then ['\\', '\\']
  else if c = '\n' then ['\\', 'n']
  else if c = '\r' then ['\\', 'r']
  else if c = '\t' then ['\\', 't']
  else if c = '\x00' then ['\\', '0']
  else if isPrinted c then [c]
  else ['\\', 'u', '\x7b'] ++ Nat.toDigits 16 c.toNat ++ ['\x7d']

/-- A label between its quotation marks. -/
def quoted (s : String) : String :=
  String.ofList ('"' :: s.toList.flatMap labelChar ++ ['"'])

end Demanded.Text
