/-
  ContextFree/Number/Shortest.lean
  ================================
  **The shortest decimal** that reads back as a given floating-point number.

  The numbers that read back as `m * 2 ^ e` are those nearer to it than to its
  neighbours, the ends included when `m` is even.  For 1, 2, … 17 digits the two
  decimals next to the number are tried: the first count with a hit wins, of two
  hits the nearer, and of two equally near ones the one with the even last digit.
-/
import ContextFree.Number.Binary64

namespace ContextFree

structure Decimal where
  digits : Nat
  exponent : Int
  deriving DecidableEq

namespace Decimal

/-- Moves zeros at the end of the digits into the exponent. -/
def trim : Nat → Decimal → Decimal
  | 0, d => d
  | n + 1, d =>
    if d.digits % 10 = 0 ∧ d.digits ≠ 0 then trim n ⟨d.digits / 10, d.exponent + 1⟩ else d

end Decimal

namespace Binary64

/-- Compares `a * 10 ^ i` with `b * 2 ^ j`. -/
def comparePowers (a : Nat) (i : Int) (b : Nat) (j : Int) : Ordering :=
  compare (a * Nat.pow 10 i.toNat * Nat.pow 2 (-j).toNat)
    (b * Nat.pow 2 j.toNat * Nat.pow 10 (-i).toNat)

/-- Whether `a * 10 ^ i` reads back as `m * 2 ^ e`.  In quarters of the last place the number is
    `4 * m`, and its interval reaches up by two and down by two, or by one where the numbers below
    lie twice as close. -/
def readsBack (m : Nat) (e : Int) (a : Nat) (i : Int) : Bool :=
  let low := if m = Nat.pow 2 52 ∧ -1074 < e then 4 * m - 1 else 4 * m - 2
  let fromLow := comparePowers a i low (e - 2)
  let fromHigh := comparePowers a i (4 * m + 2) (e - 2)
  if m % 2 = 0 then fromLow.isGE && fromHigh.isLE else fromLow.isGT && fromHigh.isLT

/-- The whole part of `m * 2 ^ e / 10 ^ i`. -/
def wholePart (m : Nat) (e i : Int) : Nat :=
  (m * Nat.pow 2 e.toNat * Nat.pow 10 (-i).toNat) / (Nat.pow 10 i.toNat * Nat.pow 2 (-e).toNat)

/-- Whether `m * 2 ^ e` lies above, at or below the middle of `a * 10 ^ i` and the next decimal. -/
def compareMiddle (m : Nat) (e : Int) (a : Nat) (i : Int) : Ordering :=
  (comparePowers (2 * a + 1) i m (e + 1)).swap

/-- The decimal with the given unit that reads back, if one of the two next to the number does. -/
def decimalAt? (m : Nat) (e i : Int) : Option Decimal :=
  let a := wholePart m e i
  match readsBack m e a i, readsBack m e (a + 1) i with
  | true, true =>
    match compareMiddle m e a i with
    | .lt => some ⟨a, i⟩
    | .gt => some ⟨a + 1, i⟩
    | .eq => some ⟨if a % 2 = 0 then a else a + 1, i⟩
  | true, false => some ⟨a, i⟩
  | false, true => some ⟨a + 1, i⟩
  | false, false => none

/-- The place of the first digit of a positive `m * 2 ^ e`; no such number is below
    `10 ^ (-330)`. -/
def leadingPlace (m : Nat) (e : Int) : Int :=
  ((Nat.repr (wholePart m e (-330))).length : Int) - 331

/-- The shortest decimal that reads back as a positive `m * 2 ^ e`. -/
def shortest (m : Nat) (e : Int) : Decimal :=
  let place := leadingPlace m e
  ((List.range 17).findSome? fun (n : Nat) => decimalAt? m e (place - n)).getD ⟨0, 0⟩ |>.trim 17

/-! ### Written form -/

/-- A decimal in positional notation with at least one digit on each side of the point, or with an
    exponent of at least two digits if its first digit stands below the fourth decimal place or
    above the sixteenth place. -/
def renderDecimal (d : Decimal) : String :=
  let ds := (Nat.repr d.digits).toList
  let place : Int := d.exponent + ds.length - 1
  if place < -4 ∨ 16 ≤ place then
    let mantissa := match ds with
      | c :: c' :: cs => c :: '.' :: c' :: cs
      | cs => cs
    let size := Nat.repr place.natAbs
    let mark := if place < 0 then "e-" else "e+"
    String.ofList mantissa ++ mark ++ (if size.length < 2 then "0" ++ size else size)
  else if place < 0 then
    "0." ++ String.ofList (List.replicate (-place - 1).toNat '0' ++ ds)
  else
    let whole := ds.take (place.toNat + 1)
    let zeros := List.replicate (place.toNat + 1 - ds.length) '0'
    let fraction := ds.drop (place.toNat + 1)
    String.ofList (whole ++ zeros ++ '.' :: (if fraction.isEmpty then ['0'] else fraction))

/-- The shortest written form that reads back. -/
def render : Binary64 → String
  | nan => "nan"
  | infinite negative => if negative then "-inf" else "inf"
  | finite negative m e =>
    (if negative then "-" else "") ++ if m = 0 then "0.0" else renderDecimal (shortest m e)

end Binary64

end ContextFree
