/-
  ContextFree/Number/Binary64.lean
  ================================
  **Binary floating-point numbers of 64 bits**, as exact values.

  A finite number is a sign and `mantissa * 2 ^ exponent`, with a mantissa below
  `2 ^ 53` and an exponent of at least `-1074`.  A decimal number is read as the
  nearest such number; of two equally near ones the even mantissa wins, and what
  is too large becomes infinite.
-/

namespace ContextFree

inductive Binary64 where
  | nan
  | infinite (negative : Bool)
  | finite (negative : Bool) (mantissa : Nat) (exponent : Int)
  deriving DecidableEq

namespace Binary64

/-- The quotient rounded to the nearest natural number, a half to the even neighbour. -/
def roundDiv (num den : Nat) : Nat :=
  let q := num / den
  let r := 2 * (num % den)
  if r < den then q
  else if den < r then q + 1
  else if q % 2 = 0 then q else q + 1

/-- The numerator of `num / den * 2 ^ (-e)` when its denominator is `scaledDen den e`. -/
def scaledNum (num : Nat) (e : Int) : Nat := num * Nat.pow 2 (-e).toNat

/-- The denominator of `num / den * 2 ^ (-e)` when its numerator is `scaledNum num e`. -/
def scaledDen (den : Nat) (e : Int) : Nat := den * Nat.pow 2 e.toNat

/-- The exponent of the number nearest to `num / den`: the one that gives a mantissa of 53 bits, but
    not below the least. -/
def exponentFor (num den : Nat) : Int :=
  let e := (num.log2 : Int) - den.log2 - 52
  let e := if scaledNum num e < Nat.pow 2 52 * scaledDen den e then e - 1 else e
  max e (-1074)

/-- The number nearest to `num / den`, for a positive denominator. -/
def ofRatio (negative : Bool) (num den : Nat) : Binary64 :=
  if num = 0 then finite negative 0 (-1074)
  else
    let e := exponentFor num den
    let m := roundDiv (scaledNum num e) (scaledDen den e)
    let (m, e) := if m = Nat.pow 2 53 then (Nat.pow 2 52, e + 1) else (m, e)
    if 971 < e then infinite negative else finite negative m e

/-- The number nearest to `digits * 10 ^ exponent`.  Far outside the range the answer is clear
    without the power of ten: below `10 ^ (-330)` it is zero, from `10 ^ 310` on it is infinite. -/
def ofDecimal (negative : Bool) (digits : Nat) (exponent : Int) : Binary64 :=
  let size : Int := (Nat.repr digits).length
  if digits = 0 || size + exponent < -330 then finite negative 0 (-1074)
  else if 310 < size + exponent then infinite negative
  else ofRatio negative (digits * Nat.pow 10 exponent.toNat) (Nat.pow 10 (-exponent).toNat)

end Binary64

end ContextFree
