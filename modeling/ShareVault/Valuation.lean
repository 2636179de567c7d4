import ShareVault.Arithmetic
import ShareVault.Config

/-!
# Valuation

What a vault's holdings are worth.  A valuation gives two bounds for every asset: a cautious lower
one, which fees and withdrawals go by, and a generous upper one, which deposits go by.  A basket
of assets also has one value in the reference asset.

* `Tvl` — the two bounds;
* `UnitPriceAdapter` — one price for a unit of each asset, with a haircut on the lower bounds;
* `UnitPriceAdapter.tvl`, `convert`, `setPrice` — its answers;
* `ValuationError` — why there is no answer.
-/

namespace ShareVault

/-- The name by which a vault chooses the source of its prices. -/
abbrev Reference := String

inductive ValuationError where
  /-- The basket has another number of assets. -/
  | lengthMismatch (expected got : Nat)
  | missingPrice (index : Nat)
  /-- The value has too many digits. -/
  | math (e : MathError)
  /-- The source does not answer now. -/
  | unavailable (reason : String)
deriving DecidableEq

def ValuationError.message : ValuationError → String
  | .lengthMismatch expected got =>
    s!"valuation length mismatch: expected {expected}, got {got}"
  | .missingPrice index => s!"no price for asset #{index}"
  | .math e => "valuation math: " ++ e.message
  | .unavailable reason => s!"valuation unavailable: {reason}"

/-- The bounds of the holdings' value, one entry per asset. -/
structure Tvl where
  /-- The cautious bounds. -/
  lower : List Amount
  /-- The generous bounds. -/
  upper : List Amount
deriving DecidableEq

/-- All of something, in basis points. -/
def basisPoints : Amount := ⟨10000, by decide⟩

/-- Prices every asset at a fixed price per unit. -/
structure UnitPriceAdapter where
  reference : Reference
  /-- The price of a unit of each asset, in units of `priceScale`. -/
  prices : List Amount
  /-- The haircut on lower bounds, in basis points. -/
  spread : Amount
  /-- The haircut takes at most everything. -/
  spread_le : spread ≤ basisPoints
deriving DecidableEq

namespace UnitPriceAdapter

/-- An adapter with these prices; a larger haircut than everything counts as everything. -/
def new (reference : Reference) (prices : List Amount) (spread : Nat) : UnitPriceAdapter where
  reference := reference
  prices := prices
  spread := min (Word.saturate 128 spread) basisPoints
  spread_le := by
    rw [Word.le_def, Word.toNat_min]
    exact Nat.min_le_right _ _

/-- An adapter that prices every one of these assets at one reference unit. -/
def atPar (reference : Reference) (assets spread : Nat) : UnitPriceAdapter :=
  new reference (List.replicate assets priceScale) spread

/-- Accepts a basket with one amount per asset. -/
def checkLength (a : UnitPriceAdapter) (got : Nat) : Except ValuationError Unit :=
  if a.prices.length = got then .ok ()
  else .error (.lengthMismatch a.prices.length got)

/-- What the haircut leaves of a holding. -/
def cut (a : UnitPriceAdapter) (holding : Amount) : Except MathError Amount :=
  mulDiv holding (basisPoints.sub a.spread a.spread_le) basisPoints

/-- The bounds of holdings: themselves above, and what the haircut leaves of them below. -/
def tvl (a : UnitPriceAdapter) (holdings : List Amount) : Except ValuationError Tvl := do
  a.checkLength holdings.length
  let lower ← (holdings.mapM a.cut).mapError .math
  return ⟨lower, holdings⟩

/-- The value of amounts at these prices on top of a value so far, each product floored. -/
def worth : Amount → List (Amount × Amount) → Except MathError Amount
  | total, [] => .ok total
  | total, (amount, price) :: rest => do
    let value ← mulDiv amount price priceScale
    let total ← checkedAdd total value
    worth total rest

/-- The value of a basket in the reference asset. -/
def convert (a : UnitPriceAdapter) (amounts : List Amount) : Except ValuationError Amount := do
  a.checkLength amounts.length
  (worth 0 (amounts.zip a.prices)).mapError .math

/-- Replaces the price of one asset. -/
def setPrice (a : UnitPriceAdapter) (index : Nat) (price : Amount) :
    Except ValuationError UnitPriceAdapter :=
  if index < a.prices.length then .ok { a with prices := a.prices.set index price }
  else .error (.missingPrice index)

end UnitPriceAdapter

/-! ### Written form -/

instance : JsonCodec Tvl where
  toJson t := .object [("lower", toJson t.lower), ("upper", toJson t.upper)]
  ofJson? v := do
    let [lower, upper] ← v.slots? ["lower", "upper"] | none
    return ⟨← lower.required?, ← upper.required?⟩

end ShareVault
