/-
  ContextFree/Text/Surrogates.lean
  ================================
  **Texts with surrogates.**  A surrogate is half of a pair of 16-bit units.  On its
  own it is a code point but no character, and yet a text that is read from escapes
  may hold it.

  To be a string all the same, such a text is carried: a surrogate becomes the
  carrier, which is the last character in front of all surrogates, and a character
  for private use behind it; the carrier itself becomes a pair of this kind as
  well.  The texts stay apart, keep their order and can be put together
  (`ContextFree.Proofs.CarriedTexts`), so names may be carried throughout a run.
  They differ from plain ones only where code points matter: in quoted text, and
  where a text leaves the program.  A `Spelling` says how the texts of a run are
  meant.
-/
import ContextFree.Text.Quoted

namespace ContextFree.Text

def isHighSurrogate (n : Nat) : Bool := 0xD800 ≤ n && n ≤ 0xDBFF

def isLowSurrogate (n : Nat) : Bool := 0xDC00 ≤ n && n ≤ 0xDFFF

def isSurrogate (n : Nat) : Bool := isHighSurrogate n || isLowSurrogate n

/-! ### Carried texts -/

/-- The character that announces a carried code point. -/
def carrier : Char := '\uD7FF'

/-- A code point in a carried text; the carrier and the surrogates come one behind the other. -/
def carryPoint (n : Nat) : List Char :=
  if 0xD7FF ≤ n ∧ n ≤ 0xDFFF then [carrier, Char.ofNat (n + 0x801)] else [Char.ofNat n]

def carry (points : List Nat) : String := String.ofList (points.flatMap carryPoint)

/-- The code points of a carried text. -/
def carriedPoints : List Char → List Nat
  | [] => []
  | [c] => [c.toNat]
  | c :: d :: cs =>
    if c = carrier then (d.toNat - 0x801) :: carriedPoints cs
    else c.toNat :: carriedPoints (d :: cs)

/-! ### Code points as text -/

/-- The text of code points that are characters. -/
def ofPoints (ps : List Nat) : String := String.ofList (ps.map Char.ofNat)

/-- A surrogate in a text without surrogates. -/
def surrogateEscape (n : Nat) : List Char := '\\' :: 'u' :: hexDigits 4 n

def escapedPoint (n : Nat) : List Char :=
  if isSurrogate n then surrogateEscape n else [Char.ofNat n]

/-- The text of code points; surrogates are escaped. -/
def escapePoints (ps : List Nat) : String := String.ofList (ps.flatMap escapedPoint)

/-- One code point between marks; a surrogate is not printable. -/
def quotedPoint (mark : Char) (n : Nat) : List Char :=
  if isSurrogate n then surrogateEscape n else quotedChar mark (Char.ofNat n)

/-- Code points in quotation marks. -/
def quotePoints (ps : List Nat) : String :=
  let mark := quoteMark ((ps.filter (!isSurrogate ·)).map Char.ofNat)
  String.ofList (mark :: ps.flatMap (quotedPoint mark) ++ [mark])

/-! ### Encoding -/

/-- The first surrogates of a text that cannot be encoded, and the number of code points before
    them. -/
structure EncodeError where
  place : Nat
  surrogates : List Nat
  deriving DecidableEq

/-- The surrogates of an error and their places. -/
def EncodeError.spanText (e : EncodeError) : String :=
  match e.surrogates with
  | [n] =>
      "character '" ++ String.ofList (surrogateEscape n) ++ "' in position " ++ Nat.repr e.place
  | ns =>
      "characters in position " ++ Nat.repr e.place ++ "-" ++
        Nat.repr (e.place + ns.length - 1)

def EncodeError.message (e : EncodeError) : String :=
  "'utf-8' codec can't encode " ++ e.spanText ++ ": surrogates not allowed"

def encodePoints (ps : List Nat) : Except EncodeError String :=
  if ps.any isSurrogate then
    .error ⟨(ps.takeWhile (!isSurrogate ·)).length,
      (ps.dropWhile (!isSurrogate ·)).takeWhile isSurrogate⟩
  else .ok (ofPoints ps)

/-! ### Plain and carried texts -/

/-- How the texts of a run are meant: character by character, or as carried texts. -/
inductive Spelling where
  | plain
  | carried
  deriving DecidableEq

namespace Spelling

def points : Spelling → String → List Nat
  | plain, s => s.toList.map Char.toNat
  | carried, s => carriedPoints s.toList

/-- A text in quotation marks. -/
def quote : Spelling → String → String
  | plain, s => Text.quote s
  | carried, s => quotePoints (carriedPoints s.toList)

/-- Names in quotation marks, in square brackets. -/
def quotedList (spelling : Spelling) (names : List String) : String :=
  bracketed (names.map spelling.quote)

/-- A text as the standard error shows it. -/
def escape : Spelling → String → String
  | plain, s => s
  | carried, s => escapePoints (carriedPoints s.toList)

/-- A text as the standard output takes it. -/
def encode : Spelling → String → Except EncodeError String
  | plain, s => .ok s
  | carried, s => encodePoints (carriedPoints s.toList)

/-- No code point of a text is a surrogate. -/
def IsEncodable (spelling : Spelling) (s : String) : Prop :=
  ∀ n ∈ spelling.points s, isSurrogate n = false

instance (spelling : Spelling) (s : String) : Decidable (spelling.IsEncodable s) :=
  inferInstanceAs (Decidable (∀ n ∈ spelling.points s, isSurrogate n = false))

end Spelling

end ContextFree.Text
