import ShareVault.Word

/-!
# Whole numbers in binary floating point

A sample of a metric passes through a binary floating-point number of 53 significant digits before
it is written, and it is written with the fewest decimal digits that still name that number.

* `Binary64.ofNat` — the floating-point number nearest to a whole number, of two the even one;
* `Binary64.shortest` — the whole number with the most trailing zeros that reads back as it, of
  several the nearest, of two the larger.
-/

namespace ShareVault

/-- The floating-point number `mantissa * 2 ^ exponent`, with `mantissa` of 53 binary digits, or of
fewer when `exponent` is zero. -/
structure Binary64 where
  mantissa : Nat
  exponent : Nat
deriving DecidableEq

namespace Binary64

/-- How many binary digits a mantissa has. -/
def digits : Nat := 53

/-- A quotient rounded to the nearest whole number, half-way cases to the even one. -/
def roundDiv (n d : Nat) : Nat :=
  let q := n / d
  let twice := 2 * (n % d)
  if twice < d then q
  else if d < twice then q + 1
  else q + q % 2

/-- The nearest floating-point number. -/
def ofNat (n : Nat) : Binary64 :=
  if n < 2 ^ digits then ⟨n, 0⟩
  else
    let exponent := n.log2 + 1 - digits
    let mantissa := roundDiv n (2 ^ exponent)
    if mantissa = 2 ^ digits then ⟨2 ^ (digits - 1), exponent + 1⟩ else ⟨mantissa, exponent⟩

/-- The value of a floating-point number. -/
def toNat (x : Binary64) : Nat := x.mantissa * 2 ^ x.exponent

/-- Whether a whole number is rounded to this floating-point number.  Everything is counted in
quarters: the next number below may be half as far away as the next above. -/
def roundsTo (x : Binary64) (n : Nat) : Bool :=
  let value := 4 * x.toNat
  let above := 2 * 2 ^ x.exponent
  let below := if x.mantissa = 2 ^ (digits - 1) then 2 ^ x.exponent else 2 * 2 ^ x.exponent
  if x.mantissa % 2 = 0 then value ≤ 4 * n + below && 4 * n ≤ value + above
  else value < 4 * n + below && 4 * n < value + above

/-- The multiple of `step` nearest to the value among those that are rounded to it. -/
def onGrid? (x : Binary64) (step : Nat) : Option Nat :=
  let value := x.toNat
  let low := value / step * step
  let high := low + step
  match x.roundsTo low, x.roundsTo high with
  | true, true => some (if value - low < high - value then low else high)
  | true, false => some low
  | false, true => some high
  | false, false => none

/-- The number with the fewest significant digits that is rounded to this one. -/
def shortest (x : Binary64) : Nat :=
  if x.exponent = 0 then x.mantissa
  else
    let steps := (List.range (x.toNat.log2 + 1)).reverse.map (10 ^ ·)
    (steps.findSome? x.onGrid?).getD x.toNat

end Binary64

end ShareVault
