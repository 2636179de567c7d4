import ShareVault.Config
import ShareVault.Schedule

/-!
# Governance of a vault

Who may change what, and when.  The fee parameters change under their timelocks and within the
caps of the settings; roles, deposit limits, the private flag and the list of depositors change at
once.

* `VaultGovernance.stage`, `commit`, `rollback` — the parameters;
* `grantRole`, `revokeRole`, `setDepositLimits`, `setPrivate`, `setDepositorAllowed` — the rest;
* `mayDeposit`, `DepositLimits.check?` — what the policy says of a deposit;
* `validateValue` — which values a parameter takes.
-/

namespace ShareVault

inductive GovernanceError where
  | timelock (e : TimelockError)
  /-- The caller may not. -/
  | access (e : AccessError)
  /-- A fee is above its cap. -/
  | feeTooHigh (param : Param) (value max : Amount)
  /-- The value is of another kind than the parameter. -/
  | typeMismatch (param : Param)
  | emptyTreasury
deriving DecidableEq

def GovernanceError.message : GovernanceError → String
  | .timelock e => e.message
  | .access e => e.message
  | .feeTooHigh param value max => param.name ++ s!" of {value} exceeds cap {max}"
  | .typeMismatch param => "value type does not match " ++ param.name
  | .emptyTreasury => "treasury account must not be empty"

/-! ### Deposit limits -/

inductive Limit where
  | total
  /-- The cap on the balance of a depositor. -/
  | perAddress
deriving DecidableEq, Repr

def Limit.name : Limit → String
  | .total => "token_limit"
  | .perAddress => "token_limit_per_address"

/-- Caps on share issuance, in shares. -/
structure DepositLimits where
  /-- The largest supply after a deposit. -/
  tokenLimit : Amount
  /-- The largest balance of the depositor after a deposit. -/
  tokenLimitPerAddress : Amount
deriving DecidableEq

/-- Caps that no deposit can exceed. -/
def DepositLimits.unlimited : DepositLimits := ⟨.largest 128, .largest 128⟩

/-- The first limit that a deposit would exceed, with what it would come to and the cap. -/
def DepositLimits.check? (l : DepositLimits) (supplyAfter balanceAfter : Amount) :
    Option (Limit × Amount × Amount) :=
  if l.tokenLimit < supplyAfter then some (.total, supplyAfter, l.tokenLimit)
  else if l.tokenLimitPerAddress < balanceAfter then
    some (.perAddress, balanceAfter, l.tokenLimitPerAddress)
  else none

/-! ### Governance -/

/-- The parameters, roles and deposit policy of a vault. -/
structure VaultGovernance where
  params : FeeParameters
  access : AccessTable
  settings : GovernanceSettings
  limits : DepositLimits
  /-- Whether only listed accounts may deposit. -/
  privateVault : Bool
  allowlist : SortedSet Account
deriving DecidableEq

namespace VaultGovernance

/-- Accepts a rate up to a cap. -/
def checkCap (p : Param) (value max : Amount) : Except GovernanceError Unit :=
  if max < value then .error (.feeTooHigh p value max) else .ok ()

/-- Accepts an account that has a name. -/
def checkTreasury (account : Account) : Except GovernanceError Unit :=
  if account = "" then .error .emptyTreasury else .ok ()

/-- Accepts a value that a parameter may take: a fee within its cap, a treasury with a name. -/
def checkValue (settings : GovernanceSettings) : (p : Param) → p.Value → Except GovernanceError Unit
  | .managementFee, rate => checkCap .managementFee rate settings.managementCap
  | .performanceFee, rate => checkCap .performanceFee rate settings.performanceCap
  | .protocolFee, rate => checkCap .protocolFee rate settings.protocolCap
  | .feeChargeThrottle, _ => .ok ()
  | .strategyTreasury, account => checkTreasury account
  | .performanceTreasury, account => checkTreasury account
  | .protocolTreasury, account => checkTreasury account
  | .valuationReference, _ => .ok ()

/-- A value as one of this parameter, if it is of its kind and the parameter may take it. -/
def validateValue (settings : GovernanceSettings) (p : Param) (value : ParamValue) :
    Except GovernanceError p.Value :=
  match value.as? p.kind with
  | none => .error (.typeMismatch p)
  | some v => do
    checkValue settings p v
    return v

/-- Governance with one admin, these values in force, and no limits.  The values are held to the
same rules as any later ones. -/
def new (admin : Account) (initial : FeeSchedule) (settings : GovernanceSettings) :
    Except GovernanceError VaultGovernance := do
  Param.all.forM fun p => checkValue settings p (initial.get p)
  return {
    params := .new initial
    access := .withAdmin admin
    settings := settings
    limits := .unlimited
    privateVault := false
    allowlist := ∅ }

def schedule (g : VaultGovernance) : FeeSchedule := g.params.active

/-- Whether the policy lets an account deposit. -/
def mayDeposit (g : VaultGovernance) (account : Account) : Bool :=
  !g.privateVault || g.allowlist.contains account

/-- Accepts a caller that holds one of these roles. -/
def requireRole (g : VaultGovernance) (caller : Account) (accepted : List Role) :
    Except GovernanceError Unit :=
  (g.access.require caller accepted).mapError .access

/-- Accepts a caller that may act on a parameter. -/
def authorize (g : VaultGovernance) (caller : Account) (p : Param) :
    Except GovernanceError Unit :=
  g.requireRole caller p.authorizedRoles

/-- Stages a value for a parameter. -/
def stage (g : VaultGovernance) (caller : Account) (p : Param) (value : ParamValue)
    (now : Timestamp) : Except GovernanceError VaultGovernance := do
  g.authorize caller p
  let v ← validateValue g.settings p value
  return { g with params := g.params.set p ((g.params.get p).stage v now g.settings.delay) }

/-- Puts the staged value of a parameter in force. -/
def commit (g : VaultGovernance) (caller : Account) (p : Param) (now : Timestamp) :
    Except GovernanceError VaultGovernance := do
  g.authorize caller p
  let t ← ((g.params.get p).commit now).mapError .timelock
  return { g with params := g.params.set p t }

/-- Drops the staged value of a parameter. -/
def rollback (g : VaultGovernance) (caller : Account) (p : Param) :
    Except GovernanceError VaultGovernance := do
  g.authorize caller p
  return { g with params := g.params.set p (g.params.get p).rollback }

/-- Gives a role to an account. -/
def grantRole (g : VaultGovernance) (caller account : Account) (role : Role) :
    Except GovernanceError VaultGovernance := do
  let access ← (g.access.grant caller account role).mapError .access
  return { g with access := access }

/-- Takes a role from an account. -/
def revokeRole (g : VaultGovernance) (caller account : Account) (role : Role) :
    Except GovernanceError VaultGovernance := do
  let access ← (g.access.revoke caller account role).mapError .access
  return { g with access := access }

/-- Replaces the deposit limits; a strategist may do so too. -/
def setDepositLimits (g : VaultGovernance) (caller : Account) (limits : DepositLimits) :
    Except GovernanceError VaultGovernance := do
  g.requireRole caller [.admin, .strategist]
  return { g with limits := limits }

/-- Restricts deposits to the listed accounts, or lifts the restriction. -/
def setPrivate (g : VaultGovernance) (caller : Account) (privateVault : Bool) :
    Except GovernanceError VaultGovernance := do
  g.requireRole caller [.admin]
  return { g with privateVault := privateVault }

/-- Puts an account on the list of depositors, or takes it off. -/
def setDepositorAllowed (g : VaultGovernance) (caller account : Account) (allowed : Bool) :
    Except GovernanceError VaultGovernance := do
  g.requireRole caller [.admin]
  return { g with
    allowlist := if allowed then g.allowlist.insert account else g.allowlist.erase account }

end VaultGovernance

/-! ### Written forms -/

instance : JsonCodec DepositLimits where
  toJson l := .object
    [(Limit.total.name, toJson l.tokenLimit),
      (Limit.perAddress.name, toJson l.tokenLimitPerAddress)]
  ofJson? v := do
    let [total, perAddress] ← v.slots? [Limit.total.name, Limit.perAddress.name] | none
    return ⟨← total.required?, ← perAddress.required?⟩

instance : ByteCodec DepositLimits where
  encode l := ByteCodec.encode l.tokenLimit ++ ByteCodec.encode l.tokenLimitPerAddress
  decode := do
    let total ← ByteCodec.decode
    let perAddress ← ByteCodec.decode
    return ⟨total, perAddress⟩
  fits _ := true

instance : JsonCodec VaultGovernance where
  toJson g := .object
    [("params", toJson g.params), ("access", toJson g.access), ("settings", toJson g.settings),
      ("limits", toJson g.limits), ("private_vault", toJson g.privateVault),
      ("allowlist", toJson g.allowlist)]
  ofJson? v := do
    let [params, access, settings, limits, privateVault, allowlist] ← v.slots?
      ["params", "access", "settings", "limits", "private_vault", "allowlist"] | none
    return ⟨← params.required?, ← access.required?, ← settings.required?, ← limits.required?,
      ← privateVault.required?, ← allowlist.required?⟩

instance : ByteCodec VaultGovernance where
  encode g := ByteCodec.encode g.params ++ ByteCodec.encode g.access ++
    ByteCodec.encode g.settings ++ ByteCodec.encode g.limits ++
    ByteCodec.encode g.privateVault ++ ByteCodec.encode g.allowlist
  decode := do
    let params ← ByteCodec.decode
    let access ← ByteCodec.decode
    let settings ← ByteCodec.decode
    let limits ← ByteCodec.decode
    let privateVault ← ByteCodec.decode
    let allowlist ← ByteCodec.decode
    return ⟨params, access, settings, limits, privateVault, allowlist⟩
  fits g := ByteCodec.fits g.params && ByteCodec.fits g.access && ByteCodec.fits g.allowlist

end ShareVault
