import ShareVault.Error

/-!
# Fees

Fees are charged before every deposit and withdrawal, in new shares.  Management and protocol fees
grow with time on the shares there are; the performance fee is a part of the growth in the value
per share above the highest value that was charged before.

* `managementFeeShares`, `performanceFeeShares` — the two formulas;
* `Accrual.of` — what is owed for time, before anything is priced;
* `chargeFees` — a charge on a ledger: mints the shares, raises the mark and moves the fee time;
* `previewFees` — the same charge, on no ledger.

All shares of a charge are computed on the supply before any of them is minted.
-/

namespace ShareVault

/-- Why a charge looks at no rates. -/
inductive SkipReason where
  /-- The last charge is too recent. -/
  | throttled
  /-- No asset is more than dust. -/
  | allDust
deriving DecidableEq, Repr

namespace SkipReason

def name : SkipReason → String
  | .throttled => "Throttled"
  | .allDust => "AllDust"

def all : List SkipReason := [.throttled, .allDust]

end SkipReason

structure FeeCharge where
  strategyMinted : Amount
  protocolMinted : Amount
  performanceMinted : Amount
  /-- The value per share, zero when it was not asked for. -/
  pricePerShare : Amount
  highWaterMark : Amount
  /-- Why no rates were looked at, if none were. -/
  skipped : Option SkipReason
deriving DecidableEq

namespace FeeCharge

def nothing (mark : Amount) (skipped : Option SkipReason) : FeeCharge :=
  ⟨0, 0, 0, 0, mark, skipped⟩

def management (c : FeeCharge) : Amount := c.strategyMinted.addSat c.protocolMinted

def total (c : FeeCharge) : Amount := c.management.addSat c.performanceMinted

end FeeCharge

/-! ### Formulas -/

/-- What a yearly rate is divided by for a second. -/
def yearScale : Nat := secondsPerYear * feeDenominator.toNat

/-- The shares owed for some seconds at a yearly rate: `⌊rate · elapsed · supply / yearScale⌋`. -/
def managementFeeShares (rate : Amount) (elapsed : Timestamp) (supply : Amount) :
    Except MathError Amount := do
  let rateTime ← checked (rate.toNat * elapsed.toNat)
  let scale ← checked yearScale
  mulDiv rateTime supply scale

/-- The shares owed for a growth of the value per share above the mark:
`⌊⌊supply · (price - mark) / mark⌋ · rate / feeDenominator⌋`, and nothing without a mark or a
growth. -/
def performanceFeeShares (supply price mark rate : Amount) : Except MathError Amount :=
  if h : mark < price ∧ mark ≠ 0 then do
    let growth ← mulDiv supply (price.sub mark (Nat.le_of_lt h.1)) mark
    mulDiv growth rate feeDenominator
  else .ok 0

/-! ### What is owed for time -/

/-- How far a charge gets before the holdings are priced. -/
inductive Accrual where
  | skip (reason : SkipReason)
  /-- There are no shares to charge. -/
  | idle
  /-- These shares are owed for time. -/
  | due (strategy protocol : Amount)
deriving DecidableEq

/-- Whether no asset reaches its threshold. -/
def allDust (lower existentials : List Amount) : Bool :=
  (lower.zip existentials).all fun p => p.1 < p.2

/-- The shares owed for some seconds, the strategy's and the protocol's.  The whole is floored
first; the strategy's part of it is floored again, and the protocol has the rest. -/
def splitManagement (schedule : FeeSchedule) (elapsed : Timestamp) (supply : Amount) :
    Except MathError (Amount × Amount) := do
  let rate ← checkedAdd schedule.managementFee schedule.protocolFee
  if rate = 0 then
    return (0, 0)
  let management ← managementFeeShares rate elapsed supply
  let strategy ← mulDiv management schedule.managementFee rate
  return (strategy, management.monus strategy)

/-- What is owed for time on a ledger. -/
def Accrual.of (ledger : ShareLedger) (schedule : FeeSchedule)
    (lower existentials : List Amount) (now : Timestamp) : Except MathError Accrual :=
  let elapsed := now.monus ledger.lastFeeCharge
  if elapsed < schedule.feeChargeThrottle then .ok (.skip .throttled)
  else if allDust lower existentials then .ok (.skip .allDust)
  else if ledger.totalSupply = 0 then .ok .idle
  else do
    let (strategy, protocol) ← splitManagement schedule elapsed ledger.totalSupply
    return .due strategy protocol

/-- Whether a charge asks for the value of the holdings. -/
def asksValue (ledger : ShareLedger) (schedule : FeeSchedule)
    (lower existentials : List Amount) (now : Timestamp) : Bool :=
  match Accrual.of ledger schedule lower existentials now with
  | .ok (.due _ _) => 0 < schedule.performanceFee
  | _ => false

/-! ### Charging -/

/-- A step on a ledger that may fail; what was done before a failure stays. -/
abbrev LedgerStep := EStateM VaultError ShareLedger

/-- A computation as a step that leaves the ledger alone. -/
def LedgerStep.lift {α : Type} : Except VaultError α → LedgerStep α
  | .ok a => pure a
  | .error e => throw e

/-- Mints fee shares for a treasury. -/
def LedgerStep.mint (treasury : Account) (amount : Amount) : LedgerStep Unit := do
  set (← lift (((← get).mint treasury amount).mapError .ledger))

/-- Takes the performance fee into a charge that is owed these shares for time, at a value of the
holdings: raises the mark of the ledger and notes the price and the shares. -/
def LedgerStep.performance (schedule : FeeSchedule) (value : Amount) (owed : FeeCharge) :
    LedgerStep FeeCharge := do
  let ledger ← get
  let price ← lift ((mulDiv value priceScale ledger.totalSupply).mapError .math)
  let minted ← lift ((performanceFeeShares ledger.totalSupply price ledger.highWaterMark
    schedule.performanceFee).mapError .math)
  let raised := ledger.raiseMark price
  set raised
  return { owed with
    performanceMinted := minted
    pricePerShare := price
    highWaterMark := raised.highWaterMark }

/-- Charges fees on a ledger, step by step.  `appraise` gives the value of a basket in the
reference asset; it is asked at most once, and only when a performance fee may be owed. -/
def LedgerStep.charge (schedule : FeeSchedule) (lower existentials : List Amount)
    (appraise : List Amount → Except ValuationError Amount) (now : Timestamp) :
    LedgerStep FeeCharge := do
  let ledger ← get
  let nothing := FeeCharge.nothing ledger.highWaterMark
  let upTo := max now ledger.lastFeeCharge
  match ← lift ((Accrual.of ledger schedule lower existentials now).mapError .math) with
  | .skip reason => return nothing (some reason)
  | .idle =>
    set (ledger.recordCharge upTo)
    return nothing none
  | .due strategy protocol =>
    let owed : FeeCharge :=
      { nothing none with strategyMinted := strategy, protocolMinted := protocol }
    let charge ←
      if 0 < schedule.performanceFee then do
        let value ← lift ((appraise lower).mapError .valuation)
        performance schedule value owed
      else pure owed
    mint schedule.strategyTreasury charge.strategyMinted
    mint schedule.protocolTreasury charge.protocolMinted
    mint schedule.performanceTreasury charge.performanceMinted
    modify (·.recordCharge upTo)
    return charge

/-- Charges fees on a ledger; the ledger that is left after an error holds what was done before
it. -/
def chargeFees (ledger : ShareLedger) (schedule : FeeSchedule) (lower existentials : List Amount)
    (appraise : List Amount → Except ValuationError Amount) (now : Timestamp) :
    Except VaultError FeeCharge × ShareLedger :=
  match (LedgerStep.charge schedule lower existentials appraise now).run ledger with
  | .ok charge ledger' => (.ok charge, ledger')
  | .error e ledger' => (.error e, ledger')

/-- The charge that `chargeFees` would make. -/
def previewFees (ledger : ShareLedger) (schedule : FeeSchedule) (lower existentials : List Amount)
    (appraise : List Amount → Except ValuationError Amount) (now : Timestamp) :
    Except VaultError FeeCharge :=
  (chargeFees ledger schedule lower existentials appraise now).1

/-! ### Written forms -/

instance : JsonCodec SkipReason where
  toJson r := .text r.name
  ofJson? v := do
    let (name, content) ← v.variant?
    if Json.noContent content then SkipReason.all.find? (·.name = name) else none

instance : JsonCodec FeeCharge where
  toJson c := .object
    [("strategy_minted", toJson c.strategyMinted), ("protocol_minted", toJson c.protocolMinted),
      ("performance_minted", toJson c.performanceMinted),
      ("price_per_share", toJson c.pricePerShare), ("high_water_mark", toJson c.highWaterMark),
      ("skipped", toJson c.skipped)]
  ofJson? v := do
    let [strategy, protocol, performance, price, mark, skipped] ← v.slots?
      ["strategy_minted", "protocol_minted", "performance_minted", "price_per_share",
        "high_water_mark", "skipped"] | none
    return ⟨← strategy.required?, ← protocol.required?, ← performance.required?,
      ← price.required?, ← mark.required?, ← skipped.optional?⟩

end ShareVault
