/-
  ContextFree/Json/Reader.lean
  ============================
  **Reading JSON.**

  A value is read from the front of a text.  Every function returns what it read
  and the rest; a fault carries the number of characters left where it lies, so
  that its place can be told once the length of the whole text is known.  White
  space is space, tab, line feed and carriage return only.  `NaN`, `Infinity` and
  `-Infinity` are numbers.  A whole number has at most `maxDigits` digits; reading
  ends at a longer one, whatever follows.  A `Spell` makes strings of code points.
-/
import ContextFree.Json.Value
import ContextFree.Json.Units

namespace ContextFree.Json

inductive Fault where
  | expectedValue
  | expectedName
  | expectedColon
  | expectedComma
  | extraData
  | unterminatedString
  | controlCharacter
  | invalidEscape
  | invalidUnitEscape
  | byteOrderMark
  deriving DecidableEq

def Fault.message : Fault → String
  | expectedValue => "Expecting value"
  | expectedName => "Expecting property name enclosed in double quotes"
  | expectedColon => "Expecting ':' delimiter"
  | expectedComma => "Expecting ',' delimiter"
  | extraData => "Extra data"
  | unterminatedString => "Unterminated string starting at"
  | controlCharacter => "Invalid control character at"
  | invalidEscape => "Invalid \\escape"
  | invalidUnitEscape => "Invalid \\uXXXX escape"
  | byteOrderMark => "Unexpected UTF-8 BOM (decode using utf-8-sig)"

inductive Stop where
  /-- A fault, with the number of characters from its place to the end. -/
  | fault (fault : Fault) (left : Nat)
  | tooManyDigits (count : Nat)
  deriving DecidableEq

/-- What a reader gives: a result with the rest of the text, or a reason to stop. -/
abbrev Reading (α : Type) := Except Stop α

def faultAt {α : Type} (fault : Fault) (rest : List Char) : Reading α :=
  .error (.fault fault rest.length)

/-- White space between the parts of a value. -/
def isSpace (c : Char) : Bool := c == ' ' || c == '\t' || c == '\n' || c == '\r'

def skipSpace (cs : List Char) : List Char := cs.dropWhile isSpace

/-! ### Strings -/

/-- The character that a letter behind a backslash stands for. -/
def escapedChar? : Char → Option Char
  | '"' => some '"'
  | '\\' => some '\\'
  | '/' => some '/'
  | 'b' => some '\x08'
  | 'f' => some '\x0c'
  | 'n' => some '\n'
  | 'r' => some '\r'
  | 't' => some '\t'
  | _ => none

/-- Puts a unit in front of the units read. -/
def consUnit (u : Nat) (r : Reading (List Nat × List Char)) :
    Reading (List Nat × List Char) := r.map fun p => (u :: p.1, p.2)

/-- The units of a string up to its closing mark; `start` is the text from the opening one on. -/
def readUnits (start : List Char) : List Char → Reading (List Nat × List Char)
  | [] => faultAt .unterminatedString start
  | '"' :: cs => .ok ([], cs)
  | ['\\'] => faultAt .unterminatedString start
  | '\\' :: 'u' :: a :: b :: c :: d :: e :: cs =>
    match hexNumber? 0 [a, b, c, d] with
    | some u => consUnit u (readUnits start (e :: cs))
    | none => faultAt .invalidUnitEscape ('u' :: a :: b :: c :: d :: e :: cs)
  | '\\' :: 'u' :: cs => faultAt .invalidUnitEscape ('u' :: cs)
  | '\\' :: c :: cs =>
    match escapedChar? c with
    | some e => consUnit e.toNat (readUnits start cs)
    | none => faultAt .invalidEscape ('\\' :: c :: cs)
  | c :: cs =>
    if c.toNat < 0x20 then faultAt .controlCharacter (c :: cs)
    else consUnit c.toNat (readUnits start cs)

/-- A string that is refused is a fault of an escape in it. -/
def readString (spell : Spell) (cs : List Char) : Reading (String × List Char) := do
  let (units, rest) ← readUnits ('"' :: cs) cs
  match spell (joinUnits units) with
  | some s => pure (s, rest)
  | none => faultAt .invalidUnitEscape ('"' :: cs)

/-! ### Numbers -/

def isDigit (c : Char) : Bool := '0' ≤ c && c ≤ '9'

def digitsValue (ds : List Char) : Nat := ds.foldl (fun n d => 10 * n + (d.toNat - 48)) 0

def spanDigits (cs : List Char) : List Char × List Char :=
  (cs.takeWhile isDigit, cs.dropWhile isDigit)

/-- The digits before the point: a zero stands alone. -/
def readWhole? : List Char → Option (List Char × List Char)
  | '0' :: cs => some (['0'], cs)
  | cs => match spanDigits cs with
    | ([], _) => none
    | (ds, rest) => some (ds, rest)

/-- The digits behind a point; without a digit the point is not part of the number. -/
def readFraction (cs : List Char) : List Char × List Char :=
  match cs with
  | '.' :: rest => match spanDigits rest with
    | ([], _) => ([], cs)
    | (ds, rest) => (ds, rest)
  | _ => ([], cs)

/-- The value of an exponent; without a digit it is not part of the number. -/
def readExponent (cs : List Char) : Option Int × List Char :=
  match cs with
  | e :: rest =>
    if e == 'e' || e == 'E' then
      let (negative, digits) := match rest with
        | '-' :: r => (true, r)
        | '+' :: r => (false, r)
        | r => (false, r)
      match spanDigits digits with
      | ([], _) => (none, cs)
      | (ds, rest) =>
        let n : Int := digitsValue ds
        (some (if negative then -n else n), rest)
    else (none, cs)
  | [] => (none, cs)

def readInt (negative : Bool) (whole rest : List Char) : Reading (Json × List Char) :=
  if maxDigits < whole.length then .error (.tooManyDigits whole.length)
  else
    let n : Int := digitsValue whole
    .ok (.int (if negative then -n else n), rest)

/-- A number: whole without a fraction and an exponent, else floating point. -/
def readNumber (cs : List Char) : Reading (Json × List Char) :=
  let (negative, unsigned) := match cs with
    | '-' :: r => (true, r)
    | r => (false, r)
  match readWhole? unsigned with
  | none => faultAt .expectedValue cs
  | some (whole, rest) =>
    let (fraction, rest) := readFraction rest
    let (exponent?, rest) := readExponent rest
    match fraction, exponent? with
    | [], none => readInt negative whole rest
    | _, _ =>
      let exponent := exponent?.getD 0 - fraction.length
      .ok (.float (.ofDecimal negative (digitsValue (whole ++ fraction)) exponent), rest)

/-! ### Values -/

/-- The words that are values. -/
def literals : List (List Char × Json) :=
  [ ("null".toList, .null), ("true".toList, .bool true), ("false".toList, .bool false),
    ("NaN".toList, .float .nan), ("Infinity".toList, .float (.infinite false)),
    ("-Infinity".toList, .float (.infinite true)) ]

def readScalar (cs : List Char) : Reading (Json × List Char) :=
  match literals.find? fun l => l.1.isPrefixOf cs with
  | some (w, v) => .ok (v, cs.drop w.length)
  | none => readNumber cs

def readName (spell : Spell) (cs : List Char) : Reading (String × List Char) :=
  match cs with
  | '"' :: cs => do
    let (name, rest) ← readString spell cs
    match skipSpace rest with
    | ':' :: rest => pure (name, skipSpace rest)
    | rest => faultAt .expectedColon rest
  | _ => faultAt .expectedName cs

mutual

/-- A value.  A nesting takes two units of fuel, an item or a member one, and each of them at least
    one character, so twice the length of the text and one unit more are enough. -/
def readValue (spell : Spell) : Nat → List Char → Reading (Json × List Char)
  | 0, cs => faultAt .expectedValue cs
  | n + 1, cs =>
    match cs with
    | '"' :: rest => (readString spell rest).map fun p => (.string p.1, p.2)
    | '[' :: rest => match skipSpace rest with
      | ']' :: rest => .ok (.array [], rest)
      | rest => (readItems spell n rest).map fun p => (.array p.1, p.2)
    | '\x7b' :: rest => match skipSpace rest with
      | '\x7d' :: rest => .ok (.object [], rest)
      | rest => (readMembers spell n rest).map fun p => (.ofMembers p.1, p.2)
    | _ => readScalar cs

def readItems (spell : Spell) : Nat → List Char → Reading (List Json × List Char)
  | 0, cs => faultAt .expectedValue cs
  | n + 1, cs => do
    let (item, rest) ← readValue spell n cs
    match skipSpace rest with
    | ']' :: rest => pure ([item], rest)
    | ',' :: rest =>
      let (items, rest) ← readItems spell n (skipSpace rest)
      pure (item :: items, rest)
    | rest => faultAt .expectedComma rest

def readMembers (spell : Spell) : Nat → List Char → Reading (List (String × Json) × List Char)
  | 0, cs => faultAt .expectedName cs
  | n + 1, cs => do
    let (name, rest) ← readName spell cs
    let (value, rest) ← readValue spell n rest
    match skipSpace rest with
    | '\x7d' :: rest => pure ([(name, value)], rest)
    | ',' :: rest =>
      let (members, rest) ← readMembers spell n (skipSpace rest)
      pure ((name, value) :: members, rest)
    | rest => faultAt .expectedComma rest

end

/-! ### Texts -/

inductive Error where
  /-- A fault and its place: its line and column, and the number of characters in front of it. -/
  | fault (fault : Fault) (line column place : Nat)
  | tooManyDigits (count : Nat)
  deriving DecidableEq

def Error.message : Error → String
  | fault f line column place =>
      f.message ++ ": line " ++ Nat.repr line ++ " column " ++ Nat.repr column ++ " (char " ++
        Nat.repr place ++ ")"
  | tooManyDigits n =>
      "Exceeds the limit (" ++ Nat.repr maxDigits ++
        " digits) for integer string conversion: value has " ++ Nat.repr n ++
        " digits; use sys.set_int_max_str_digits() to increase the limit"

/-- The error that a reason to stop is in a text. -/
def Stop.toError (text : List Char) : Stop → Error
  | fault f left =>
    let place := text.length - left
    let before := text.take place
    .fault f (before.count '\n' + 1)
      ((before.reverse.takeWhile fun c => c != '\n').length + 1) place
  | tooManyDigits n => .tooManyDigits n

def readText (spell : Spell) (cs : List Char) : Reading Json :=
  if cs.head? == some '\uFEFF' then faultAt .byteOrderMark cs
  else do
    let (value, rest) ← readValue spell (2 * cs.length + 1) (skipSpace cs)
    match skipSpace rest with
    | [] => pure value
    | rest => faultAt .extraData rest

def parseWith (spell : Spell) (text : String) : Except Error Json :=
  match readText spell text.toList with
  | .ok v => .ok v
  | .error e => .error (e.toError text.toList)

/-- Reads a text whose strings are made of characters. -/
def parse (text : String) : Except Error Json := parseWith .strict text

end ContextFree.Json
