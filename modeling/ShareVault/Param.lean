import ShareVault.Access
import ShareVault.Valuation

/-!
# Governed parameters

The eight parameters that governance changes under a timelock: their names, the kind of value each
takes, and the roles that may act on each.

* `Param` — the parameters;
* `Param.kind`, `Param.Value` — the kind of a parameter's values, and the type of them;
* `ParamValue` — a value of any kind, as a caller hands it in;
* `Param.authorizedRoles` — who may stage, commit and roll back.
-/

namespace ShareVault

inductive Param where
  | managementFee
  | performanceFee
  | protocolFee
  | feeChargeThrottle
  | strategyTreasury
  | performanceTreasury
  | protocolTreasury
  | valuationReference
deriving DecidableEq, Repr

inductive ValueKind where
  /-- A yearly fee rate, in units of `feeDenominator`. -/
  | rate
  | seconds
  | account
  /-- The name of a source of prices. -/
  | reference
deriving DecidableEq, Repr

/-- The type of the values of a kind. -/
abbrev ValueKind.Carrier : ValueKind → Type
  | .rate => Amount
  | .seconds => Timestamp
  | .account => Account
  | .reference => Reference

namespace Param

/-- Every parameter, in order. -/
def all : List Param :=
  [.managementFee, .performanceFee, .protocolFee, .feeChargeThrottle, .strategyTreasury,
    .performanceTreasury, .protocolTreasury, .valuationReference]

def name : Param → String
  | .managementFee => "management_fee"
  | .performanceFee => "performance_fee"
  | .protocolFee => "protocol_fee"
  | .feeChargeThrottle => "fee_charge_throttle"
  | .strategyTreasury => "strategy_treasury"
  | .performanceTreasury => "performance_treasury"
  | .protocolTreasury => "protocol_treasury"
  | .valuationReference => "valuation_reference"

/-- The tag of a parameter in JSON. -/
def tag : Param → String
  | .managementFee => "ManagementFee"
  | .performanceFee => "PerformanceFee"
  | .protocolFee => "ProtocolFee"
  | .feeChargeThrottle => "FeeChargeThrottle"
  | .strategyTreasury => "StrategyTreasury"
  | .performanceTreasury => "PerformanceTreasury"
  | .protocolTreasury => "ProtocolTreasury"
  | .valuationReference => "ValuationReference"

/-- The kind of a parameter's values. -/
def kind : Param → ValueKind
  | .managementFee | .performanceFee | .protocolFee => .rate
  | .feeChargeThrottle => .seconds
  | .strategyTreasury | .performanceTreasury | .protocolTreasury => .account
  | .valuationReference => .reference

/-- The type of a parameter's values. -/
abbrev Value (p : Param) : Type := p.kind.Carrier

/-- The roles that may act on a parameter.  The strategy has a say in what it earns. -/
def authorizedRoles : Param → List Role
  | .managementFee | .performanceFee | .strategyTreasury | .performanceTreasury =>
    [.admin, .strategist]
  | .protocolFee | .protocolTreasury | .feeChargeThrottle | .valuationReference => [.admin]

end Param

inductive ParamValue where
  | rate (r : Amount)
  | seconds (s : Timestamp)
  | account (a : Account)
  | reference (r : Reference)
deriving DecidableEq

namespace ParamValue

/-- A value together with its kind. -/
def ofKind : (k : ValueKind) → k.Carrier → ParamValue
  | .rate, r => .rate r
  | .seconds, s => .seconds s
  | .account, a => .account a
  | .reference, r => .reference r

/-- The value, if it is of this kind. -/
def as? : (k : ValueKind) → ParamValue → Option k.Carrier
  | .rate, .rate r => some r
  | .seconds, .seconds s => some s
  | .account, .account a => some a
  | .reference, .reference r => some r
  | _, _ => none

@[simp] theorem as?_ofKind (k : ValueKind) (v : k.Carrier) : (ofKind k v).as? k = some v := by
  cases k <;> rfl

theorem as?_eq_some {k : ValueKind} {v : ParamValue} {x : k.Carrier} :
    v.as? k = some x ↔ v = ofKind k x := by
  cases k <;> cases v <;> simp [as?, ofKind]

end ParamValue

/-! ### Written forms -/

instance : JsonCodec Param where
  toJson p := .text p.tag
  ofJson? v := do
    let (name, content) ← v.variant?
    if Json.noContent content then Param.all.find? (·.tag = name) else none

instance : JsonCodec ParamValue where
  toJson
    | .rate r => .tagged "Rate" (toJson r)
    | .seconds s => .tagged "Seconds" (toJson s)
    | .account a => .tagged "Account" (toJson a)
    | .reference r => .tagged "Reference" (toJson r)
  ofJson? v := do
    let (name, some content) ← v.variant? | none
    match name with
    | "Rate" => return .rate (← JsonCodec.ofJson? content)
    | "Seconds" => return .seconds (← JsonCodec.ofJson? content)
    | "Account" => return .account (← JsonCodec.ofJson? content)
    | "Reference" => return .reference (← JsonCodec.ofJson? content)
    | _ => none

end ShareVault
