import ShareVault.Param
import ShareVault.Timelock

/-!
# Fee schedules

The eight parameters together: their values at one moment, and their timelocks.

* `FeeSchedule` — the values in force at one moment;
* `FeeParameters` — a timelock for each parameter;
* `FeeParameters.get`, `set` — the timelock of one parameter; `get_set_self` and
  `get_set_of_ne` say that the eight are independent;
* `FeeParameters.active` — the values in force.
-/

namespace ShareVault

/-! ### The values at one moment -/

structure FeeSchedule where
  managementFee : Amount
  performanceFee : Amount
  protocolFee : Amount
  /-- The least number of seconds between two charges. -/
  feeChargeThrottle : Timestamp
  strategyTreasury : Account
  performanceTreasury : Account
  protocolTreasury : Account
  valuationReference : Reference
deriving DecidableEq

namespace FeeSchedule

/-- No fees, no throttle and one treasury. -/
def feeFree (treasury : Account) (reference : Reference) : FeeSchedule :=
  ⟨0, 0, 0, 0, treasury, treasury, treasury, reference⟩

def get (s : FeeSchedule) : (p : Param) → p.Value
  | .managementFee => s.managementFee
  | .performanceFee => s.performanceFee
  | .protocolFee => s.protocolFee
  | .feeChargeThrottle => s.feeChargeThrottle
  | .strategyTreasury => s.strategyTreasury
  | .performanceTreasury => s.performanceTreasury
  | .protocolTreasury => s.protocolTreasury
  | .valuationReference => s.valuationReference

def ofValues (value : (p : Param) → p.Value) : FeeSchedule where
  managementFee := value .managementFee
  performanceFee := value .performanceFee
  protocolFee := value .protocolFee
  feeChargeThrottle := value .feeChargeThrottle
  strategyTreasury := value .strategyTreasury
  performanceTreasury := value .performanceTreasury
  protocolTreasury := value .protocolTreasury
  valuationReference := value .valuationReference

@[simp] theorem get_ofValues (value : (p : Param) → p.Value) (p : Param) :
    (ofValues value).get p = value p := by
  cases p <;> rfl

end FeeSchedule

/-! ### The timelocks -/

structure FeeParameters where
  managementFee : Timelocked Amount
  performanceFee : Timelocked Amount
  protocolFee : Timelocked Amount
  feeChargeThrottle : Timelocked Timestamp
  strategyTreasury : Timelocked Account
  performanceTreasury : Timelocked Account
  protocolTreasury : Timelocked Account
  valuationReference : Timelocked Reference
deriving DecidableEq

namespace FeeParameters

/-- The values of a schedule in force, with none waiting. -/
def new (initial : FeeSchedule) : FeeParameters where
  managementFee := .new initial.managementFee
  performanceFee := .new initial.performanceFee
  protocolFee := .new initial.protocolFee
  feeChargeThrottle := .new initial.feeChargeThrottle
  strategyTreasury := .new initial.strategyTreasury
  performanceTreasury := .new initial.performanceTreasury
  protocolTreasury := .new initial.protocolTreasury
  valuationReference := .new initial.valuationReference

def get (ps : FeeParameters) : (p : Param) → Timelocked p.Value
  | .managementFee => ps.managementFee
  | .performanceFee => ps.performanceFee
  | .protocolFee => ps.protocolFee
  | .feeChargeThrottle => ps.feeChargeThrottle
  | .strategyTreasury => ps.strategyTreasury
  | .performanceTreasury => ps.performanceTreasury
  | .protocolTreasury => ps.protocolTreasury
  | .valuationReference => ps.valuationReference

/-- The timelocks with another one for a parameter. -/
def set (ps : FeeParameters) : (p : Param) → Timelocked p.Value → FeeParameters
  | .managementFee, t => { ps with managementFee := t }
  | .performanceFee, t => { ps with performanceFee := t }
  | .protocolFee, t => { ps with protocolFee := t }
  | .feeChargeThrottle, t => { ps with feeChargeThrottle := t }
  | .strategyTreasury, t => { ps with strategyTreasury := t }
  | .performanceTreasury, t => { ps with performanceTreasury := t }
  | .protocolTreasury, t => { ps with protocolTreasury := t }
  | .valuationReference, t => { ps with valuationReference := t }

@[simp] theorem get_set_self (ps : FeeParameters) (p : Param) (t : Timelocked p.Value) :
    (ps.set p t).get p = t := by
  cases p <;> rfl

theorem get_set_of_ne {ps : FeeParameters} {p q : Param} (h : q ≠ p) (t : Timelocked p.Value) :
    (ps.set p t).get q = ps.get q := by
  cases p <;> cases q <;> first | rfl | exact absurd rfl h

@[simp] theorem get_new (s : FeeSchedule) (p : Param) : (new s).get p = .new (s.get p) := by
  cases p <;> rfl

def active (ps : FeeParameters) : FeeSchedule :=
  FeeSchedule.ofValues fun p => (ps.get p).active

/-- The value in force of one parameter. -/
def activeValue (ps : FeeParameters) (p : Param) : ParamValue :=
  .ofKind p.kind (ps.get p).active

/-- The waiting value of one parameter. -/
def stagedValue? (ps : FeeParameters) (p : Param) : Option ParamValue :=
  (ps.get p).staged.map (.ofKind p.kind)

/-- The time from which on the waiting value of one parameter can be committed. -/
def readyAt (ps : FeeParameters) (p : Param) : Timestamp := (ps.get p).readyAt

end FeeParameters

/-! ### Written forms -/

instance : JsonCodec FeeSchedule where
  toJson s := .object
    [(Param.managementFee.name, toJson s.managementFee),
      (Param.performanceFee.name, toJson s.performanceFee),
      (Param.protocolFee.name, toJson s.protocolFee),
      (Param.feeChargeThrottle.name, toJson s.feeChargeThrottle),
      (Param.strategyTreasury.name, toJson s.strategyTreasury),
      (Param.performanceTreasury.name, toJson s.performanceTreasury),
      (Param.protocolTreasury.name, toJson s.protocolTreasury),
      (Param.valuationReference.name, toJson s.valuationReference)]
  ofJson? v := do
    let [management, performance, protocol, throttle, strategyTreasury, performanceTreasury,
      protocolTreasury, reference] ← v.slots? (Param.all.map Param.name) | none
    return ⟨← management.required?, ← performance.required?, ← protocol.required?,
      ← throttle.required?, ← strategyTreasury.required?, ← performanceTreasury.required?,
      ← protocolTreasury.required?, ← reference.required?⟩

instance : JsonCodec FeeParameters where
  toJson ps := .object
    [(Param.managementFee.name, toJson ps.managementFee),
      (Param.performanceFee.name, toJson ps.performanceFee),
      (Param.protocolFee.name, toJson ps.protocolFee),
      (Param.feeChargeThrottle.name, toJson ps.feeChargeThrottle),
      (Param.strategyTreasury.name, toJson ps.strategyTreasury),
      (Param.performanceTreasury.name, toJson ps.performanceTreasury),
      (Param.protocolTreasury.name, toJson ps.protocolTreasury),
      (Param.valuationReference.name, toJson ps.valuationReference)]
  ofJson? v := do
    let [management, performance, protocol, throttle, strategyTreasury, performanceTreasury,
      protocolTreasury, reference] ← v.slots? (Param.all.map Param.name) | none
    return ⟨← management.required?, ← performance.required?, ← protocol.required?,
      ← throttle.required?, ← strategyTreasury.required?, ← performanceTreasury.required?,
      ← protocolTreasury.required?, ← reference.required?⟩

instance : ByteCodec FeeParameters where
  encode ps := ByteCodec.encode ps.managementFee ++ ByteCodec.encode ps.performanceFee ++
    ByteCodec.encode ps.protocolFee ++ ByteCodec.encode ps.feeChargeThrottle ++
    ByteCodec.encode ps.strategyTreasury ++ ByteCodec.encode ps.performanceTreasury ++
    ByteCodec.encode ps.protocolTreasury ++ ByteCodec.encode ps.valuationReference
  decode := do
    let management ← ByteCodec.decode
    let performance ← ByteCodec.decode
    let protocol ← ByteCodec.decode
    let throttle ← ByteCodec.decode
    let strategyTreasury ← ByteCodec.decode
    let performanceTreasury ← ByteCodec.decode
    let protocolTreasury ← ByteCodec.decode
    let reference ← ByteCodec.decode
    return ⟨management, performance, protocol, throttle, strategyTreasury, performanceTreasury,
      protocolTreasury, reference⟩
  fits ps := ByteCodec.fits ps.strategyTreasury && ByteCodec.fits ps.performanceTreasury &&
    ByteCodec.fits ps.protocolTreasury && ByteCodec.fits ps.valuationReference

end ShareVault
