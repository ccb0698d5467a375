import Stepwise.Number.Binary
import Stepwise.Text.Basic

/-!
# Doubles as decimal text

`shortest` finds the decimal with the fewest digits that reads back as a given
double, the nearest of them if there are several. `written` lays its digits out:
positional from `10 ^ -4` up to below `10 ^ 16`, with an exponent outside. `read?`
is the way back.
-/

namespace Stepwise.Number

/-- The decimal `digits · 10 ^ exponent`. -/
structure Decimal where
  digits : Nat
  exponent : Int
deriving Repr, DecidableEq

namespace Decimal

/-- The decimal as a ratio of naturals. -/
def ratio (d : Decimal) : Nat × Nat :=
  if 0 ≤ d.exponent then (d.digits * Nat.pow 10 d.exponent.toNat, 1)
  else (d.digits, Nat.pow 10 (-d.exponent).toNat)

/-- The double nearest to the decimal. -/
def toFloat (negative : Bool) (d : Decimal) : Float :=
  ofRatio negative d.ratio.1 d.ratio.2

/-- A ratio of naturals. -/
abbrev Ratio := Nat × Nat

/-- Order of two ratios with positive denominators. -/
def compareRatio (a b : Ratio) : Ordering :=
  compare (a.1 * b.2) (b.1 * a.2)

/-- `m · 2 ^ e` as a ratio. -/
def binaryRatio (m : Nat) (e : Int) : Ratio :=
  if 0 ≤ e then (m * Nat.pow 2 e.toNat, 1) else (m, Nat.pow 2 (-e).toNat)

/--
The reals that round to `m · 2 ^ e` reach half way to the neighbours on both
sides; the neighbour below the least mantissa of a binade is half as far.
-/
def roundingInterval (m : Nat) (e : Int) : Ratio × Ratio :=
  let below := if m = Nat.pow 2 52 && -1074 < e then 4 * m - 1 else 4 * m - 2
  (binaryRatio below (e - 2), binaryRatio (4 * m + 2) (e - 2))

/-- The decimal reads back as `m · 2 ^ e`. The ends of the interval go to the even mantissa. -/
def readsBack (m : Nat) (e : Int) (d : Decimal) : Bool :=
  let (low, high) := roundingInterval m e
  let lower := compareRatio low d.ratio
  let upper := compareRatio d.ratio high
  (lower == .lt || (lower == .eq && m % 2 == 0)) &&
    (upper == .lt || (upper == .eq && m % 2 == 0))

/-- The power of ten with `10 ^ (k - 1) ≤ m · 2 ^ e < 10 ^ k`, for positive `m`. -/
def magnitude (m : Nat) (e : Int) : Int :=
  let guess := Int.fdiv ((m.log2 + e) * 30103) 100000
  let value := binaryRatio m e
  let reaches := fun k => compareRatio (ratio ⟨1, k⟩) value != .gt
  if reaches (guess + 1) then guess + 2 else if reaches guess then guess + 1 else guess

/-- The largest decimal with the given exponent that is at most `m · 2 ^ e`. -/
def floorAt (m : Nat) (e exponent : Int) : Decimal :=
  let (num, den) := binaryRatio m e
  let digits :=
    if 0 ≤ exponent then num / (den * Nat.pow 10 exponent.toNat)
    else num * Nat.pow 10 (-exponent).toNat / den
  ⟨digits, exponent⟩

/-- Distance of a decimal at or below, and of its successor above, from `m · 2 ^ e`. -/
def nearerAbove (m : Nat) (e : Int) (d : Decimal) : Bool :=
  match compareRatio (binaryRatio m (e + 1)) (ratio ⟨2 * d.digits + 1, d.exponent⟩) with
  | .gt => true
  | .lt => false
  | .eq => d.digits % 2 == 1

/-- The neighbour of `m · 2 ^ e` on the grid of the given exponent that reads back, if any. -/
def onGrid? (m : Nat) (e exponent : Int) : Option Decimal :=
  let below := floorAt m e exponent
  let above : Decimal := ⟨below.digits + 1, exponent⟩
  match readsBack m e below, readsBack m e above with
  | true, true => some (if nearerAbove m e below then above else below)
  | true, false => some below
  | false, true => some above
  | false, false => none

/-- The decimal with the fewest digits that reads back as `m · 2 ^ e`; 17 digits always do. -/
def shortest (m : Nat) (e : Int) : Decimal :=
  let k := magnitude m e
  ((List.range 17).findSome? fun (n : Nat) => onGrid? m e (k - (n + 1))).getD (floorAt m e (k - 17))

/-- The digits without trailing zeros, `fuel` of them at most. -/
def trim : Nat → Decimal → Decimal
  | 0, d => d
  | fuel + 1, d => if d.digits % 10 = 0 then trim fuel ⟨d.digits / 10, d.exponent + 1⟩ else d

/-- `n` zeros. -/
def zeroText (n : Nat) : List Char :=
  List.replicate n '0'

/-- Digits with the point after the first `point` of them, positions outside filled with zeros. -/
def positional (digits : List Char) (point : Int) : List Char :=
  if point ≤ 0 then '0' :: '.' :: (zeroText (-point).toNat ++ digits)
  else if digits.length ≤ point.toNat then
    digits ++ zeroText (point.toNat - digits.length) ++ ['.', '0']
  else digits.take point.toNat ++ '.' :: digits.drop point.toNat

/-- One digit before the point, and an exponent with a sign and two digits at least. -/
def exponential (digits : List Char) (point : Int) : List Char :=
  let exponent := (toString (point - 1).natAbs).toList
  let fraction := if digits.length ≤ 1 then [] else '.' :: digits.drop 1
  let sign := if point < 1 then '-' else '+'
  digits.take 1 ++ fraction ++ 'e' :: sign ::
    (if exponent.length < 2 then '0' :: exponent else exponent)

/-- A positive decimal: positional from `10 ^ -4` up to below `10 ^ 16`. -/
def layout (d : Decimal) : List Char :=
  let digits := (toString d.digits).toList
  let point := digits.length + d.exponent
  if -4 < point && point ≤ 16 then positional digits point else exponential digits point

end Decimal

/-- A double as text: the fewest digits that read back. -/
def written (x : Float) : String :=
  match Binary.ofFloat? x with
  | none => if x.isNaN then "nan" else if x < 0 then "-inf" else "inf"
  | some b =>
    let magnitude :=
      if b.mantissa = 0 then ['0', '.', '0']
      else ((Decimal.shortest b.mantissa b.exponent).trim 17).layout
    String.ofList (if b.negative then '-' :: magnitude else magnitude)

/-! ## Reading -/

/-- Digits with at most one point among them, as a decimal. -/
def ofPointed (cs : List Char) : Decimal :=
  let whole := cs.takeWhile (· != '.')
  let fraction := (cs.dropWhile (· != '.')).drop 1
  ⟨Text.number (whole ++ fraction), -fraction.length⟩

/-- A whole number with an optional sign. -/
def signed (cs : List Char) : Int :=
  match cs with
  | '-' :: ds => -(Text.number ds : Int)
  | '+' :: ds => Text.number ds
  | ds => Text.number ds

/-- Reads what `written` writes. -/
def read (s : String) : Float :=
  let (negative, cs) := match s.toList with
    | '-' :: cs => (true, cs)
    | cs => (false, cs)
  if cs = ['n', 'a', 'n'] then 0.0 / 0.0
  else if cs = ['i', 'n', 'f'] then ofBits negative infinityBits
  else
    let d := ofPointed (cs.takeWhile (· != 'e'))
    let shift := signed ((cs.dropWhile (· != 'e')).drop 1)
    Decimal.toFloat negative ⟨d.digits, d.exponent + shift⟩

end Stepwise.Number
