/-!
# Doubles as binary fractions

A finite double is `± mantissa · 2 ^ exponent`. This module takes a double apart
(`Binary.ofFloat?`), finds the double nearest to a ratio of naturals
(`nearestBits`, ties to the even mantissa), and builds on the two the
conversions between integers and doubles and their exact comparison.
-/

namespace Stepwise.Number

/-- The value `mantissa · 2 ^ exponent` with a sign. -/
structure Binary where
  negative : Bool
  mantissa : Nat
  exponent : Int
deriving Repr, DecidableEq

/-- The bits of positive infinity, one more than those of the largest double. -/
def infinityBits : Nat := 2047 * Nat.pow 2 52

/-- The sign bit. -/
def signBit : Nat := Nat.pow 2 63

/-- A finite double taken apart; `none` for infinities and not-a-number. -/
def Binary.ofFloat? (x : Float) : Option Binary :=
  let bits : Nat := x.toBits.toNat
  let biased : Nat := bits / Nat.pow 2 52 % 2048
  let fraction : Nat := bits % Nat.pow 2 52
  if biased = 2047 then none
  else if biased = 0 then some ⟨signBit ≤ bits, fraction, -1074⟩
  else some ⟨signBit ≤ bits, fraction + Nat.pow 2 52, (biased : Int) - 1075⟩

/-- `num / den` as a ratio of naturals after division by `2 ^ e`. -/
def scaled (num den : Nat) (e : Int) : Nat × Nat :=
  if 0 ≤ e then (num, den * Nat.pow 2 e.toNat) else (num * Nat.pow 2 (-e).toNat, den)

/-- The quotient rounded to the nearest natural, a tie to the even one. -/
def roundDiv (num den : Nat) : Nat :=
  let q := num / den
  let r := num % den
  if 2 * r < den then q
  else if 2 * r > den then q + 1
  else q + q % 2

/-- The exponent `e` with `2 ^ e ≤ num / den < 2 ^ (e + 1)`, for positive arguments. -/
def floorLog (num den : Nat) : Int :=
  let e : Int := num.log2 - den.log2
  let (n, d) := scaled num den e
  if d ≤ n then e else e - 1

/--
The bits of the double nearest to `num / den`, a tie to the even mantissa. A
normal and a subnormal mantissa are both added to the exponent's bits, and a
carry of the rounding runs into the exponent, where it belongs. `none` if the
nearest double is beyond the largest one.
-/
def nearestBits (num den : Nat) : Option Nat :=
  if num = 0 then some 0
  else
    let e := max (floorLog num den - 52) (-1074)
    let (n, d) := scaled num den e
    let bits := (e + 1074).toNat * Nat.pow 2 52 + roundDiv n d
    if bits < infinityBits then some bits else none

/-- The double with the given sign and magnitude bits. -/
def ofBits (negative : Bool) (bits : Nat) : Float :=
  Float.ofBits (UInt64.ofNat (if negative then signBit + bits else bits))

/-- The double nearest to `± num / den`, if it is within range. -/
def ofRatio? (negative : Bool) (num den : Nat) : Option Float :=
  (nearestBits num den).map (ofBits negative)

/-- The double nearest to `± num / den`; beyond the largest one, infinity. -/
def ofRatio (negative : Bool) (num den : Nat) : Float :=
  ofBits negative ((nearestBits num den).getD infinityBits)

/-- The double nearest to an integer, if it is within range. -/
def ofInt? (n : Int) : Option Float :=
  ofRatio? (n < 0) n.natAbs 1

/-- The double nearest to the quotient of two integers, if it is within range. -/
def divInt? (a b : Int) : Option Float :=
  ofRatio? ((a < 0) != (b < 0)) a.natAbs b.natAbs

/-- A finite double without its fraction. -/
def Binary.truncate (b : Binary) : Int :=
  let magnitude :=
    if 0 ≤ b.exponent then b.mantissa * Nat.pow 2 b.exponent.toNat
    else b.mantissa / Nat.pow 2 (-b.exponent).toNat
  if b.negative then -(magnitude : Int) else magnitude

/-- Order of an integer and a finite double, without rounding either. -/
def Binary.compareInt (n : Int) (b : Binary) : Ordering :=
  let m : Int := if b.negative then -(b.mantissa : Int) else b.mantissa
  if 0 ≤ b.exponent then compare n (m * Nat.pow 2 b.exponent.toNat)
  else compare (n * Nat.pow 2 (-b.exponent).toNat) m

/-- Order of an integer and a double; `none` for not-a-number. -/
def compareInt? (n : Int) (x : Float) : Option Ordering :=
  match Binary.ofFloat? x with
  | some b => some (b.compareInt n)
  | none => if x.isNaN then none else if x < 0 then some .gt else some .lt

end Stepwise.Number
