import ShareVault.Deposit
import ShareVault.Vault.Host
import ShareVault.Withdraw

/-!
# Operations of a vault

An operation works on a copy of the committed state.  The copy takes effect only when everything
has succeeded, the custody included; an error leaves the committed state as it was.  Events and
metrics follow the committed state.

While an operation is in progress the vault turns away every other operation and every preview;
it goes on to answer questions from the committed state.

* `settleDeposit`, `settleWithdrawal` — what an operation decides once fees are charged;
* `Operation.mutate` — the frame of every operation;
* `performWith` — one call, with a given way to perform the calls of collaborators;
* `perform` — one call.
-/

namespace ShareVault

/-! ### Decisions after the fee charge -/

/-- The ledger after a deposit and its plan, from the ledger after the fees. -/
def settleDeposit (governance : VaultGovernance) (existentials : List Amount)
    (charged : ShareLedger) (upper : List Amount) (caller : Account) (amounts : List Amount)
    (minShares : Amount) : Except VaultError (ShareLedger × DepositPlan) := do
  let plan ← planDeposit upper amounts charged.totalSupply existentials
  if plan.shares < minShares then
    throw (.slippage .shares plan.shares minShares)
  governance.limits.check (charged.totalSupply.addSat plan.shares)
    ((charged.balanceOf caller).addSat plan.shares)
  let ledger ← (charged.mint caller plan.shares).mapError .ledger
  return (ledger, plan)

/-- The ledger after a withdrawal and the amounts to release, from the ledger after the fees. -/
def settleWithdrawal (charged : ShareLedger) (lower holdings : List Amount) (caller : Account)
    (shares : Amount) (minAmounts : List Amount) :
    Except VaultError (ShareLedger × List Amount) := do
  let amounts ← planWithdraw lower holdings shares charged.totalSupply minAmounts
  let ledger ← (charged.burn caller shares).mapError .ledger
  return (ledger, amounts)

/-- The event of a fee charge. -/
def FeeCharge.event (c : FeeCharge) : VaultEvent :=
  .feesCharged c.management c.performanceMinted c.highWaterMark

/-- The event of new limits or privacy. -/
def VaultGovernance.limitsEvent (g : VaultGovernance) : VaultEvent :=
  .depositLimitsUpdated g.limits.tokenLimit g.limits.tokenLimitPerAddress g.privateVault

/-! ### Steps of an operation -/

/-- A step that may fail; what happened outside the committed state stays. -/
abbrev Operation (σ A : Type) := EStateM VaultError (World σ A)

/-- What an operation that succeeds leaves behind. -/
structure Effect (α : Type) where
  output : α
  state : VaultState
  events : List VaultEvent

namespace Operation

variable {σ A α : Type}

/-- A computation as a step. -/
def lift : Except VaultError α → Operation σ A α
  | .ok a => pure a
  | .error e => throw e

/-- Gives control to outside code until it answers. -/
def consult (nested : Performer σ A) (script : σ → Script σ A α) : Operation σ A α := fun w =>
  let result := (script w.host).run nested w.vault w.store
  .ok result.1 result.2

/-- Turns a call away while an operation is in progress; else lets it begin. -/
def enter : Operation σ A Unit := fun w =>
  if w.vault.entered then .error .reentrant (w.mapVault .reject)
  else .ok () (w.mapVault .begin)

/-- An operation: works on the committed state, and commits what it makes of it. -/
def mutate (host : Host σ A) (body : VaultState → Timestamp → Operation σ A (Effect α)) :
    Operation σ A α := fun w =>
  match enter w with
  | .error e w' => .error e w'
  | .ok () w' =>
    let now := host.now w'.host
    match body w'.vault.state now w' with
    | .ok effect w'' =>
      .ok effect.output (w''.mapVault fun v => v.commit effect.state now effect.events)
    | .error e w'' => .error e (w''.mapVault fun v => v.abandon.reject)

/-- A call under the same guard that changes nothing. -/
def guarded (body : Operation σ A α) : Operation σ A α := fun w =>
  match enter w with
  | .error e w' => .error e w'
  | .ok () w' =>
    match body w' with
    | .ok a w'' => .ok a (w''.mapVault .abandon)
    | .error e w'' => .error e (w''.mapVault .abandon)

/-! ### Valuation and fees -/

/-- The source of prices of this name. -/
def adapterOf (reference : Reference) : Operation σ A A := do
  match (← get).vault.adapters.get? reference with
  | some adapter => return adapter
  | none => throw (.unknownAdapter reference)

/-- The holdings and their bounds, one of each per asset. -/
def valuation (nested : Performer σ A) (host : Host σ A) (adapter : A) :
    Operation σ A (List Amount × Tvl) := do
  let expected := (← get).vault.tokenCount
  let holdings ← lift ((← consult nested host.holdings).mapError .custody)
  lift (checkLength expected holdings.length)
  let tvl ← lift ((← consult nested (host.tvl adapter holdings)).mapError .valuation)
  lift (checkLength expected tvl.lower.length)
  lift (checkLength expected tvl.upper.length)
  return (holdings, tvl)

/-- The charge that is due on a ledger, and the ledger after it. -/
def charge (nested : Performer σ A) (host : Host σ A) (adapter : A) (ledger : ShareLedger)
    (schedule : FeeSchedule) (lower : List Amount) (now : Timestamp) :
    Operation σ A (FeeCharge × ShareLedger) := do
  let existentials := (← get).vault.config.existentials
  let value ←
    if asksValue ledger schedule lower existentials now then
      consult nested (host.convert adapter lower)
    else pure (.ok 0)
  match chargeFees ledger schedule lower existentials (fun _ => value) now with
  | (.ok charge, charged) => return (charge, charged)
  | (.error e, _) => throw e

/-! ### Accounting -/

def deposit (nested : Performer σ A) (host : Host σ A) (caller : Account) (amounts : List Amount)
    (minShares : Amount) (deadline : Timestamp) : Operation σ A Reply :=
  mutate host fun state now => do
    if deadline < now then
      throw (.deadlineExpired deadline now)
    lift (checkLength (← get).vault.tokenCount amounts.length)
    unless state.governance.mayDeposit caller do
      throw (.depositorNotAllowed caller)
    let schedule := state.governance.schedule
    let adapter ← adapterOf schedule.valuationReference
    let (_, tvl) ← valuation nested host adapter
    let (fees, charged) ← charge nested host adapter state.ledger schedule tvl.lower now
    let existentials := (← get).vault.config.existentials
    let (ledger, plan) ← lift
      (settleDeposit state.governance existentials charged tvl.upper caller amounts minShares)
    lift ((← consult nested (host.pull caller plan.amounts)).mapError .custody)
    return {
      output := .deposited plan.shares plan.amounts
      state := { state with ledger := ledger }
      events := [fees.event, .deposited caller plan.shares plan.amounts] }

def withdraw (nested : Performer σ A) (host : Host σ A) (caller : Account) (shares : Amount)
    (minAmounts : List Amount) (recipient : Account) : Operation σ A Reply :=
  mutate host fun state now => do
    lift (checkLength (← get).vault.tokenCount minAmounts.length)
    let schedule := state.governance.schedule
    let adapter ← adapterOf schedule.valuationReference
    let (holdings, tvl) ← valuation nested host adapter
    let (fees, charged) ← charge nested host adapter state.ledger schedule tvl.lower now
    let (ledger, amounts) ← lift
      (settleWithdrawal charged tvl.lower holdings caller shares minAmounts)
    lift ((← consult nested (host.release recipient amounts)).mapError .custody)
    return {
      output := .withdrawn amounts
      state := { state with ledger := ledger }
      events := [fees.event, .withdrawn caller recipient shares amounts] }

def transfer (host : Host σ A) (caller receiver : Account) (amount : Amount) :
    Operation σ A Reply :=
  mutate host fun state _ => do
    let ledger ← lift ((state.ledger.transfer caller receiver amount).mapError .ledger)
    return { output := .done, state := { state with ledger := ledger }, events := [] }

/-- A preview of the fees.  Its errors are not counted as rejections. -/
def preview (nested : Performer σ A) (host : Host σ A) : Operation σ A Reply :=
  guarded do
    let state := (← get).vault.state
    let schedule := state.governance.schedule
    let adapter ← adapterOf schedule.valuationReference
    let (_, tvl) ← valuation nested host adapter
    let now := host.now (← get).host
    let (fees, _) ← charge nested host adapter state.ledger schedule tvl.lower now
    return .fees fees

/-! ### Governance -/

/-- An operation on the governance alone. -/
def govern (host : Host σ A)
    (body : VaultGovernance → Timestamp → Except GovernanceError (VaultGovernance × Reply ×
      VaultEvent)) : Operation σ A Reply :=
  mutate host fun state now => do
    let (governance, output, event) ← lift ((body state.governance now).mapError .governance)
    return { output := output, state := { state with governance := governance }, events := [event] }

/-- Accepts a value that names a known source of prices, or that names none at all. -/
def checkReference : ParamValue → Operation σ A Unit
  | .reference r => do
    let _ ← adapterOf r
  | _ => pure ()

/-- Stages a value for a parameter. -/
def stage (host : Host σ A) (caller : Account) (p : Param) (value : ParamValue) :
    Operation σ A Reply :=
  mutate host fun state now => do
    checkReference value
    let governance ← lift ((state.governance.stage caller p value now).mapError .governance)
    let readyAt := governance.params.readyAt p
    return {
      output := .staged readyAt
      state := { state with governance := governance }
      events := [.parameterStaged p.name readyAt caller] }

/-- Puts the staged value of a parameter in force. -/
def commit (host : Host σ A) (caller : Account) (p : Param) : Operation σ A Reply :=
  govern host fun g now => do
    let g' ← g.commit caller p now
    return (g', .committed (g'.params.activeValue p), .parameterCommitted p.name caller)

/-- Drops the staged value of a parameter. -/
def rollback (host : Host σ A) (caller : Account) (p : Param) : Operation σ A Reply :=
  govern host fun g _ => do
    let g' ← g.rollback caller p
    return (g', .rolledBack (g.params.get p).isStaged, .parameterRolledBack p.name caller)

/-- Gives a role to an account. -/
def grantRole (host : Host σ A) (caller account : Account) (role : Role) : Operation σ A Reply :=
  govern host fun g _ => do
    return (← g.grantRole caller account role, .done, .roleGranted account role)

/-- Takes a role from an account. -/
def revokeRole (host : Host σ A) (caller account : Account) (role : Role) : Operation σ A Reply :=
  govern host fun g _ => do
    return (← g.revokeRole caller account role, .done, .roleRevoked account role)

def setDepositLimits (host : Host σ A) (caller : Account) (limits : DepositLimits) :
    Operation σ A Reply :=
  govern host fun g _ => do
    let g' ← g.setDepositLimits caller limits
    return (g', .done, g'.limitsEvent)

/-- Restricts deposits to listed accounts, or lifts the restriction. -/
def setPrivate (host : Host σ A) (caller : Account) (privateVault : Bool) : Operation σ A Reply :=
  govern host fun g _ => do
    let g' ← g.setPrivate caller privateVault
    return (g', .done, g'.limitsEvent)

/-- Puts an account on the list of depositors, or takes it off. -/
def setDepositorAllowed (host : Host σ A) (caller account : Account) (allowed : Bool) :
    Operation σ A Reply :=
  govern host fun g _ => do
    return (← g.setDepositorAllowed caller account allowed, .done,
      .depositorAllowlisted account allowed)

/-! ### Calls outside the guard -/

/-- Lets governance choose a source of prices from now on, on behalf of an admin. -/
def registerAdapter (host : Host σ A) (caller : Account) (adapter : A) : Operation σ A Reply := do
  let w ← get
  lift ((w.vault.state.governance.requireRole caller [.admin]).mapError .governance)
  set (w.mapVault fun v =>
    { v with adapters := v.adapters.insert (host.reference adapter) adapter })
  return .done

/-- Writes the committed state to the store. -/
def persist : Operation σ A Reply := do
  let w ← get
  let store ← lift (w.vault.persist w.store)
  set { w with store := store }
  return .done

/-- Reads the committed state. -/
def ask (q : Query) : Operation σ A Reply := do
  return .answer ((← get).vault.answer q)

/-- The steps of a call. -/
def ofCall (nested : Performer σ A) (host : Host σ A) : Call A → Operation σ A Reply
  | .deposit caller amounts minShares deadline =>
    deposit nested host caller amounts minShares deadline
  | .withdraw caller shares minAmounts recipient =>
    withdraw nested host caller shares minAmounts recipient
  | .transfer caller receiver amount => transfer host caller receiver amount
  | .stage caller p value => stage host caller p value
  | .commit caller p => commit host caller p
  | .rollback caller p => rollback host caller p
  | .grantRole caller account role => grantRole host caller account role
  | .revokeRole caller account role => revokeRole host caller account role
  | .setDepositLimits caller limits => setDepositLimits host caller limits
  | .setPrivate caller privateVault => setPrivate host caller privateVault
  | .setDepositorAllowed caller account allowed => setDepositorAllowed host caller account allowed
  | .registerAdapter caller adapter => registerAdapter host caller adapter
  | .previewFees => preview nested host
  | .persist => persist
  | .ask q => ask q

end Operation

/-! ### One call -/

variable {σ A : Type}

/-- Performs a call; `nested` performs the calls that collaborators make meanwhile. -/
def performWith (nested : Performer σ A) (host : Host σ A) : Performer σ A := fun c w =>
  match (Operation.ofCall nested host c).run w with
  | .ok reply w' => (.ok reply, w')
  | .error e w' => (.error e, w')

def performNone : Performer σ A := fun _ w => (.error .reentrant, w)

/-- Performs a call.  A call that is made while it is in progress is performed in the same way; as
the vault turns away every such call that would reach a collaborator, nothing is ever three calls
deep. -/
def perform (host : Host σ A) : Performer σ A :=
  performWith (performWith performNone host) host

end ShareVault
