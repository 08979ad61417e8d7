set_option autoImplicit false

/-!
Numbers of the format binary64 that are not negative: rounding an exact ratio to the nearest
one, and the fewest decimal digits that round back to it.

All arithmetic is exact and on natural numbers.
-/

namespace ParamLowering

/-- A value `mantissa · 2 ^ exponent`, or the infinity above all of them. -/
inductive Binary64 where
  | finite (mantissa : Nat) (exponent : Int)
  | infinite
  deriving DecidableEq, Repr

/-- A decimal `digits · 10 ^ exponent`. -/
structure Decimal where
  digits : Nat
  exponent : Int
  deriving DecidableEq, Repr

namespace Binary64

/-- The integer nearest to a ratio; of two equally near ones the even one. -/
def roundDiv (num den : Nat) : Nat :=
  let q := num / den
  let twice := 2 * (num % den)
  if twice < den then q
  else if den < twice then q + 1
  else if q % 2 = 0 then q else q + 1

/-- A ratio divided by a power of two. -/
def scaleDown (num den : Nat) (exponent : Int) : Nat × Nat :=
  if 0 ≤ exponent then (num, den * Nat.pow 2 exponent.toNat)
  else (num * Nat.pow 2 (-exponent).toNat, den)

/-- The least exponent of a binary64 number. -/
def minExponent : Int := -1074

/-- The nearest number to a ratio; the denominator is not zero. -/
def ofRatio (num den : Nat) : Binary64 :=
  if num = 0 then .finite 0 0
  else
    let guess : Int := (Nat.log2 num : Int) - (Nat.log2 den : Int) - 52
    let (n, d) := scaleDown num den guess
    let exponent := max minExponent (if n < d * Nat.pow 2 52 then guess - 1 else guess)
    let (n, d) := scaleDown num den exponent
    let m := roundDiv n d
    let (m, exponent) := if m = Nat.pow 2 53 then (Nat.pow 2 52, exponent + 1) else (m, exponent)
    if 971 < exponent then .infinite else .finite m exponent

/-- The nearest number to a decimal. Exponents far out of range are decided by size alone. -/
def ofDecimal (d : Decimal) : Binary64 :=
  let size : Int := (Nat.log2 d.digits : Int) / 4 + d.exponent
  let reach : Int := (Nat.log2 d.digits : Int) + d.exponent
  if d.digits = 0 then .finite 0 0
  else if 400 < size then .infinite
  else if reach < -400 then .finite 0 0
  else if 0 ≤ d.exponent then ofRatio (d.digits * Nat.pow 10 d.exponent.toNat) 1
  else ofRatio d.digits (Nat.pow 10 (-d.exponent).toNat)

/-- The largest `p ≤ p₀` with `10 ^ p ≤ num / den`, within `steps` steps down. -/
def floorLog10 (num den : Nat) : Nat → Int → Int
  | 0, p => p
  | steps + 1, p =>
    let below := if 0 ≤ p then den * Nat.pow 10 p.toNat ≤ num
      else den ≤ num * Nat.pow 10 (-p).toNat
    if below then p else floorLog10 num den steps (p - 1)

/-- A ratio in units of a power of ten, rounded down. -/
def inUnits (num den : Nat) (exponent : Int) : Nat :=
  if 0 ≤ exponent then num / (den * Nat.pow 10 exponent.toNat)
  else num * Nat.pow 10 (-exponent).toNat / den

/-- Whether `a / b ≤ c · 10 ^ e`, and whether they are equal. -/
def compareUnits (a b c : Nat) (e : Int) : Ordering :=
  if 0 ≤ e then compare a (c * Nat.pow 10 e.toNat * b)
  else compare (a * Nat.pow 10 (-e).toNat) (c * b)

/-- The decimals that round to a number: between two bounds, themselves included or not. -/
structure Interval where
  low : Nat
  value : Nat
  high : Nat
  den : Nat
  closed : Bool

/-- The bounds of the decimals that round to `m · 2 ^ e`, halfway to its neighbours. -/
def interval (m : Nat) (e : Int) : Interval :=
  let up := if 0 ≤ e then Nat.pow 2 e.toNat else 1
  let den := if 0 ≤ e then 4 else 4 * Nat.pow 2 (-e).toNat
  let below := if m = Nat.pow 2 52 ∧ minExponent < e then 1 else 2
  ⟨(4 * m - below) * up, 4 * m * up, (4 * m + 2) * up, den, m % 2 = 0⟩

def Interval.holds (i : Interval) (digits : Nat) (exponent : Int) : Bool :=
  match compareUnits i.low i.den digits exponent, compareUnits i.high i.den digits exponent with
  | .lt, .gt => true
  | .eq, _ | _, .eq => i.closed
  | _, _ => false

/-- The nearer of a decimal and its upper neighbour that lies in the interval. -/
def Interval.nearest (i : Interval) (digits : Nat) (exponent : Int) : Option Decimal :=
  let nearer := compareUnits (2 * i.value) i.den (2 * digits + 1) exponent
  match i.holds digits exponent, i.holds (digits + 1) exponent with
  | true, true => if nearer == .gt then some ⟨digits + 1, exponent⟩ else some ⟨digits, exponent⟩
  | true, false => some ⟨digits, exponent⟩
  | false, true => some ⟨digits + 1, exponent⟩
  | false, false => none

/-- Tries ever finer decimal grids. -/
def Interval.search (i : Interval) : Nat → Int → Decimal
  | 0, e => ⟨inUnits i.value i.den e, e⟩
  | steps + 1, e => match i.nearest (inUnits i.value i.den e) e with
    | some d => d
    | none => i.search steps (e - 1)

/-- A decimal without zeros at its end, of which at most `steps` are taken off. -/
def stripZeros : Nat → Decimal → Decimal
  | 0, d => d
  | steps + 1, d =>
    if d.digits % 10 = 0 then stripZeros steps ⟨d.digits / 10, d.exponent + 1⟩ else d

/-- The decimal of fewest digits that rounds back to a positive number; seventeen are enough. -/
def shortest (m : Nat) (e : Int) : Decimal :=
  let i := interval m e
  let top := floorLog10 i.value i.den 700 ((Nat.log2 i.value : Int) / 3 - (Nat.log2 i.den : Int) / 4 + 1)
  stripZeros 17 (i.search 17 top)

end Binary64

namespace Decimal

/-- Decimal digits, with zeros or a point put where the exponent asks for them. -/
def positional (d : Decimal) : String :=
  let text := toString d.digits
  if 0 ≤ d.exponent then text ++ String.ofList (List.replicate d.exponent.toNat '0')
  else
    let places := (-d.exponent).toNat
    let padded := List.replicate (places + 1 - text.length) '0' ++ text.toList
    let whole := padded.length - places
    String.ofList (padded.take whole ++ '.' :: padded.drop whole)

end Decimal

/-- The fewest digits that read back as the number, never with an exponent. -/
def Binary64.text : Binary64 → String
  | .infinite => "Infinity"
  | .finite m e => if m = 0 then "0" else (Binary64.shortest m e).positional

end ParamLowering
