/-
  ContextFree/Json/Value.lean
  ===========================
  **JSON values.**  An object keeps the order of its members; whole numbers are
  exact and numbers with a fraction or an exponent are floating point.

  `display` is the text of a value in messages, and `kind` the word for what it
  is.  A whole number is converted from or to digits only if there are at most
  `maxDigits` of them, so a value has a text only if it `isShowable`.
-/
import ContextFree.Number.Shortest
import ContextFree.Table
import ContextFree.Text.Surrogates

namespace ContextFree

inductive Json where
  | null
  | bool (b : Bool)
  | int (n : Int)
  | float (x : Binary64)
  | string (s : String)
  | array (items : List Json)
  | object (members : List (String × Json))

namespace Json

/-- An object from members as they are written: a repeated name keeps its first place and gets its
    last value. -/
def ofMembers (members : List (String × Json)) : Json := object (Table.ofList members).entries

def member? (name : String) : Json → Option Json
  | object ms => Table.lookup name ms
  | _ => none

def ofNames (names : List String) : Json := array (names.map string)

/-- The number of digits up to which whole numbers are converted. -/
def maxDigits : Nat := 4300

/-- A whole number with more digits than are converted. -/
def isLong (n : Int) : Bool := Nat.pow 10 maxDigits ≤ n.natAbs

/-- A whole number in decimal digits. -/
def renderInt (n : Int) : String :=
  if n < 0 then "-" ++ Nat.repr n.natAbs else Nat.repr n.natAbs

def kind : Json → String
  | null => "NoneType"
  | bool _ => "bool"
  | int _ => "int"
  | float _ => "float"
  | string _ => "str"
  | array _ => "list"
  | object _ => "dict"

mutual

/-- A value has a text unless a whole number in it is long. -/
def isShowable : Json → Bool
  | int n => !isLong n
  | array items => areShowable items
  | object members => haveShowable members
  | _ => true

def areShowable : List Json → Bool
  | [] => true
  | v :: vs => isShowable v && areShowable vs

def haveShowable : List (String × Json) → Bool
  | [] => true
  | (_, v) :: ms => isShowable v && haveShowable ms

end

mutual

/-- The text of a value that has one. -/
def display (spelling : Text.Spelling) : Json → String
  | null => "None"
  | bool b => if b then "True" else "False"
  | int n => renderInt n
  | float x => x.render
  | string s => spelling.quote s
  | array items => Text.bracketed (displayItems spelling items)
  | object members => "\x7b" ++ Text.join ", " (displayMembers spelling members) ++ "\x7d"

def displayItems (spelling : Text.Spelling) : List Json → List String
  | [] => []
  | v :: vs => display spelling v :: displayItems spelling vs

def displayMembers (spelling : Text.Spelling) : List (String × Json) → List String
  | [] => []
  | (k, v) :: ms => (spelling.quote k ++ ": " ++ display spelling v) :: displayMembers spelling ms

end

end Json

end ContextFree
