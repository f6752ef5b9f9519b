/-
  ContextFree/Json/Writer.lean
  ============================
  **Writing JSON**, one item or member a line, with two spaces of indentation for
  each level.  Characters outside ASCII are written as they are.
-/
import ContextFree.Json.Value

namespace ContextFree.Json

/-- One character of a string: marks, backslashes and control characters are escaped. -/
def escapeChar (c : Char) : List Char :=
  match c with
  | '"' => ['\\', '"']
  | '\\' => ['\\', '\\']
  | '\n' => ['\\', 'n']
  | '\r' => ['\\', 'r']
  | '\t' => ['\\', 't']
  | '\x0c' => ['\\', 'f']
  | '\x08' => ['\\', 'b']
  | c => if c.toNat < 0x20 then '\\' :: 'u' :: Text.hexDigits 4 c.toNat else [c]

def writeString (s : String) : List Char := '"' :: s.toList.flatMap escapeChar ++ ['"']

/-- The start of a line at a level. -/
def newline (level : Nat) : List Char := '\n' :: List.replicate (2 * level) ' '

/-- A floating-point number: what is not finite has a word. -/
def writeFloat : Binary64 → String
  | .nan => "NaN"
  | .infinite negative => if negative then "-Infinity" else "Infinity"
  | x => x.render

mutual

/-- A value whose first line is at a level. -/
def write (level : Nat) : Json → List Char
  | .null => "null".toList
  | .bool b => (if b then "true" else "false").toList
  | .int n => (renderInt n).toList
  | .float x => (writeFloat x).toList
  | .string s => writeString s
  | .array [] => ['[', ']']
  | .array (v :: vs) => '[' :: newline (level + 1) ++ write (level + 1) v ++
      writeItems (level + 1) vs ++ newline level ++ [']']
  | .object [] => ['\x7b', '\x7d']
  | .object ((k, v) :: ms) => '\x7b' :: newline (level + 1) ++ writeString k ++ [':', ' '] ++
      write (level + 1) v ++ writeMembers (level + 1) ms ++ newline level ++ ['\x7d']

/-- The items behind the first. -/
def writeItems (level : Nat) : List Json → List Char
  | [] => []
  | v :: vs => ',' :: newline level ++ write level v ++ writeItems level vs

/-- The members behind the first. -/
def writeMembers (level : Nat) : List (String × Json) → List Char
  | [] => []
  | (k, v) :: ms => ',' :: newline level ++ writeString k ++ [':', ' '] ++ write level v ++
      writeMembers level ms

end

def render (v : Json) : String := String.ofList (write 0 v)

/-! ### Pieces

A value is handed over in pieces.  Each token is one, except that an item of an array that holds no
values of its own makes one piece with what stands between it and the item before. -/

/-- The pieces of an item, with what leads to it. -/
def leadTo (lead : List Char) (item : Json) (ps : List (List Char)) : List (List Char) :=
  match item with
  | .array _ => lead :: ps
  | .object _ => lead :: ps
  | _ => [lead ++ ps.flatten]

mutual

def pieces (level : Nat) : Json → List (List Char)
  | .array (v :: vs) =>
      leadTo ('[' :: newline (level + 1)) v (pieces (level + 1) v) ++ itemPieces (level + 1) vs ++
        [newline level, [']']]
  | .object ((k, v) :: ms) =>
      [['\x7b'], newline (level + 1), writeString k, [':', ' ']] ++ pieces (level + 1) v ++
        memberPieces (level + 1) ms ++ [newline level, ['\x7d']]
  | v => [write level v]

/-- The pieces of the items behind the first. -/
def itemPieces (level : Nat) : List Json → List (List Char)
  | [] => []
  | v :: vs => leadTo (',' :: newline level) v (pieces level v) ++ itemPieces level vs

/-- The pieces of the members behind the first. -/
def memberPieces (level : Nat) : List (String × Json) → List (List Char)
  | [] => []
  | (k, v) :: ms =>
      [',' :: newline level, writeString k, [':', ' ']] ++ pieces level v ++ memberPieces level ms

end

theorem flatten_leadTo (lead : List Char) (item : Json) (ps : List (List Char)) :
    (leadTo lead item ps).flatten = lead ++ ps.flatten := by
  cases item <;> simp [leadTo]

mutual

/-- The pieces of a value together are the value as it is written. -/
theorem flatten_pieces (level : Nat) : ∀ v : Json, (pieces level v).flatten = write level v
  | .array (v :: vs) => by
      simp [pieces, write, flatten_leadTo, flatten_pieces (level + 1) v,
        flatten_itemPieces (level + 1) vs]
  | .object ((k, v) :: ms) => by
      simp [pieces, write, flatten_pieces (level + 1) v, flatten_memberPieces (level + 1) ms]
  | .array [] | .object [] | .null | .bool _ | .int _ | .float _ | .string _ => by
      simp [pieces]

theorem flatten_itemPieces (level : Nat) :
    ∀ vs : List Json, (itemPieces level vs).flatten = writeItems level vs
  | [] => rfl
  | v :: vs => by
      simp [itemPieces, writeItems, flatten_leadTo, flatten_pieces level v,
        flatten_itemPieces level vs]

theorem flatten_memberPieces (level : Nat) :
    ∀ ms : List (String × Json), (memberPieces level ms).flatten = writeMembers level ms
  | [] => rfl
  | (k, v) :: ms => by
      simp [memberPieces, writeMembers, flatten_pieces level v, flatten_memberPieces level ms]

end

def renderPieces (v : Json) : List String := (pieces 0 v).map String.ofList

end ContextFree.Json
