/-
  ContextFree/Text/Utf8.lean
  ==========================
  **UTF-8.**

  A sequence has a first byte that tells its length, a second byte from a window
  that depends on the first, and continuation bytes after it.  Decoding stops at
  the first sequence that is not well formed; the fault spans the bytes of it
  that a well-formed sequence could begin with, at least one.
-/

namespace ContextFree.Text

inductive Utf8Fault where
  | invalidStart
  | invalidContinuation
  | endOfData
  deriving DecidableEq

def Utf8Fault.message : Utf8Fault → String
  | invalidStart => "invalid start byte"
  | invalidContinuation => "invalid continuation byte"
  | endOfData => "unexpected end of data"

/-- A fault with its place: the number of bytes in front of it and the bytes that it spans. -/
structure Utf8Error where
  fault : Utf8Fault
  place : Nat
  span : List UInt8
  deriving DecidableEq

/-- The bytes that may follow a first byte: their number, and the least and the greatest second
    byte.  An ASCII byte stands alone. -/
def followers? (b : UInt8) : Option (Nat × UInt8 × UInt8) :=
  if b < 0x80 then some (0, 0x80, 0xBF)
  else if b < 0xC2 then none
  else if b < 0xE0 then some (1, 0x80, 0xBF)
  else if b == 0xE0 then some (2, 0xA0, 0xBF)
  else if b == 0xED then some (2, 0x80, 0x9F)
  else if b < 0xF0 then some (2, 0x80, 0xBF)
  else if b == 0xF0 then some (3, 0x90, 0xBF)
  else if b < 0xF4 then some (3, 0x80, 0xBF)
  else if b == 0xF4 then some (3, 0x80, 0x8F)
  else none

/-- Takes up to `n` continuation bytes; the first of them lies between `low` and `high`. -/
def takeFollowers : Nat → UInt8 → UInt8 → List UInt8 → List UInt8
  | 0, _, _, _ => []
  | _ + 1, _, _, [] => []
  | n + 1, low, high, b :: bs =>
    if low ≤ b && b ≤ high then b :: takeFollowers n 0x80 0xBF bs else []

/-- The code point of a first byte with `n` followers. -/
def codePoint (first : UInt8) (followers : List UInt8) : Nat :=
  let lead := match followers.length with
    | 0 => first.toNat
    | 1 => first.toNat - 0xC0
    | 2 => first.toNat - 0xE0
    | _ => first.toNat - 0xF0
  followers.foldl (fun n b => n * 64 + (b.toNat - 0x80)) lead

/-- One character from the front of some bytes, with the rest; or a fault and its span. -/
def decodeChar (b : UInt8) (bs : List UInt8) :
    Except (Utf8Fault × List UInt8) (Char × List UInt8) :=
  match followers? b with
  | none => .error (.invalidStart, [b])
  | some (n, low, high) =>
    let taken := takeFollowers n low high bs
    let rest := bs.drop taken.length
    if taken.length = n then .ok (Char.ofNat (codePoint b taken), rest)
    else if rest.isEmpty then .error (.endOfData, b :: taken)
    else .error (.invalidContinuation, b :: taken)

/-- Decodes with a bound on the number of characters; each takes at least one byte. -/
def decodeUpTo : Nat → Nat → List UInt8 → Except Utf8Error (List Char)
  | _, _, [] => .ok []
  | 0, _, _ => .ok []
  | n + 1, place, b :: bs =>
    match decodeChar b bs with
    | .error (fault, span) => .error ⟨fault, place, span⟩
    | .ok (c, rest) =>
      match decodeUpTo n (place + 1 + (bs.length - rest.length)) rest with
      | .error e => .error e
      | .ok cs => .ok (c :: cs)

def decodeUtf8 (bytes : List UInt8) : Except Utf8Error (List Char) :=
  decodeUpTo bytes.length 0 bytes

def encodeUtf8 (cs : List Char) : List UInt8 := cs.flatMap String.utf8EncodeChar

end ContextFree.Text
