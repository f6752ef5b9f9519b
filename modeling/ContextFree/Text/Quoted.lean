/-
  ContextFree/Text/Quoted.lean
  ============================
  **Quoted text**: a text in quotation marks, on one line and with printable
  characters only, as messages show names.

  The mark is the single one, unless the text holds a single one and no double
  one.  The mark and the backslash get a backslash; line feed, carriage return
  and tab have letters; any other character that is not printable is written by
  its code point, with two, four or eight digits.
-/
import ContextFree.Text.Pieces
import ContextFree.Text.Printable

namespace ContextFree.Text

/-- A hexadecimal digit, in small letters. -/
def hexDigit (n : Nat) : Char := if n < 10 then Char.ofNat (48 + n) else Char.ofNat (87 + n)

/-- The last `width` hexadecimal digits of a number, padded with zeros. -/
def hexDigits : Nat → Nat → List Char
  | 0, _ => []
  | width + 1, n => hexDigits width (n / 16) ++ [hexDigit (n % 16)]

/-- The mark that encloses a text. -/
def quoteMark (cs : List Char) : Char :=
  if cs.contains '\'' && !cs.contains '"' then '"' else '\''

/-- One character between marks. -/
def quotedChar (mark c : Char) : List Char :=
  if c == mark || c == '\\' then ['\\', c]
  else if c == '\n' then ['\\', 'n']
  else if c == '\r' then ['\\', 'r']
  else if c == '\t' then ['\\', 't']
  else if isPrintable c then [c]
  else if c.toNat < 0x100 then '\\' :: 'x' :: hexDigits 2 c.toNat
  else if c.toNat < 0x10000 then '\\' :: 'u' :: hexDigits 4 c.toNat
  else '\\' :: 'U' :: hexDigits 8 c.toNat

/-- A text in quotation marks. -/
def quote (s : String) : String :=
  let mark := quoteMark s.toList
  String.ofList (mark :: s.toList.flatMap (quotedChar mark) ++ [mark])

/-- Items in square brackets. -/
def bracketed (items : List String) : String := "[" ++ join ", " items ++ "]"

end ContextFree.Text
