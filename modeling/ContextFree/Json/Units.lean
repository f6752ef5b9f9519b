/-
  ContextFree/Json/Units.lean
  ===========================
  **Code units of strings.**  An escape of four hexadecimal digits names a 16-bit
  unit; a high surrogate and a low one behind it are one character.  Other
  surrogates are left, and a `Spell` says what becomes of a string that has one.
-/
import ContextFree.Text.Surrogates

namespace ContextFree.Json

def hexValue? (c : Char) : Option Nat :=
  let n := c.toNat
  if 48 ≤ n ∧ n ≤ 57 then some (n - 48)
  else if 97 ≤ n ∧ n ≤ 102 then some (n - 87)
  else if 65 ≤ n ∧ n ≤ 70 then some (n - 55)
  else none

/-- The value of hexadecimal digits behind the value of those before them. -/
def hexNumber? (value : Nat) : List Char → Option Nat
  | [] => some value
  | c :: cs => match hexValue? c with
    | some d => hexNumber? (16 * value + d) cs
    | none => none

/-- The code points of units, with surrogate pairs joined; a surrogate on its own stays. -/
def joinUnits : List Nat → List Nat
  | [] => []
  | h :: l :: us =>
    if Text.isHighSurrogate h && Text.isLowSurrogate l then
      (0x10000 + (h - 0xD800) * 0x400 + (l - 0xDC00)) :: joinUnits us
    else h :: joinUnits (l :: us)
  | [u] => [u]

/-! ### Strings of code points -/

/-- What a reader makes of the code points of a string, if it takes them. -/
abbrev Spell := List Nat → Option String

/-- Characters only: a string with a surrogate is refused. -/
def Spell.strict : Spell := fun ps =>
  if ps.any Text.isSurrogate then none else some (Text.ofPoints ps)

/-- Every surrogate becomes the replacement character. -/
def Spell.replaced : Spell := fun ps =>
  some (String.ofList (ps.map fun n => if Text.isSurrogate n then '\uFFFD' else Char.ofNat n))

/-- Every string is carried. -/
def Spell.carried : Spell := fun ps => some (Text.carry ps)

end ContextFree.Json
