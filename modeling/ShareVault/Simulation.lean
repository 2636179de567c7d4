import ShareVault.InMemory

/-!
# Simulation

A vault among collaborators that can be told to misbehave: to fail, to lie, and to call the vault
back while they have control.

* `Hook`, `Misbehaving.arm` — when a collaborator calls back, and with what;
* `AdapterOverride`, `CustodyOverride` — answers in place of the honest ones;
* `Misbehaving.host` — such collaborators;
* `Step`, `Simulation.step` — what can happen in a simulation, and what comes of it.

Callbacks come first: an answer is looked up only when they are through.
-/

namespace ShareVault

/-! ### Collaborators that misbehave -/

/-- The moments at which a collaborator has control. -/
inductive Hook where
  | holdings | tvl | convert | pull | release
deriving DecidableEq, Repr

/-- Answers of a source of prices in place of its own. -/
structure AdapterOverride where
  tvl : Option (Except ValuationError Tvl)
  convert : Option (Except ValuationError Amount)

/-- Answers of the custody in place of its own. -/
structure CustodyOverride where
  holdings : Option (Except CustodyError (List Amount))
  pull : Option CustodyError
  release : Option CustodyError

/-- Collaborators in memory that may misbehave. -/
structure Misbehaving where
  honest : InMemory
  /-- The overrides of sources of prices, by their place. -/
  adapterOverrides : SortedMap Nat AdapterOverride
  custodyOverride : CustodyOverride
  /-- Calls on the vault to make at a hook, the first one first. -/
  armed : List (Hook × Call UnitPriceAdapter)
  /-- How the calls made so far ended, the first one first. -/
  heard : List Outcome

namespace Misbehaving

/-- Collaborators that do not misbehave yet. -/
def ofHonest (m : InMemory) : Misbehaving := ⟨m, ∅, ⟨none, none, none⟩, [], []⟩

/-- A call with a source of prices made for it, where it brings one. -/
def install (m : Misbehaving) : Call UnitPriceAdapter → Call Handle × Misbehaving
  | .registerAdapter caller adapter =>
    let made := m.honest.install adapter
    (.registerAdapter caller made.1, { m with honest := made.2 })
  | .deposit caller amounts minShares deadline =>
    (.deposit caller amounts minShares deadline, m)
  | .withdraw caller shares minAmounts recipient =>
    (.withdraw caller shares minAmounts recipient, m)
  | .transfer caller receiver amount => (.transfer caller receiver amount, m)
  | .stage caller param value => (.stage caller param value, m)
  | .commit caller param => (.commit caller param, m)
  | .rollback caller param => (.rollback caller param, m)
  | .grantRole caller account role => (.grantRole caller account role, m)
  | .revokeRole caller account role => (.revokeRole caller account role, m)
  | .setDepositLimits caller limits => (.setDepositLimits caller limits, m)
  | .setPrivate caller privateVault => (.setPrivate caller privateVault, m)
  | .setDepositorAllowed caller account allowed => (.setDepositorAllowed caller account allowed, m)
  | .previewFees => (.previewFees, m)
  | .persist => (.persist, m)
  | .ask q => (.ask q, m)

/-- Takes note of how a call ended. -/
def hear (m : Misbehaving) (outcome : Outcome) : Misbehaving :=
  { m with heard := m.heard ++ [outcome] }

/-- Makes calls in order, then answers. -/
def callThen {α : Type} (finish : Misbehaving → α × Misbehaving) :
    List (Call UnitPriceAdapter) → Misbehaving → Script Misbehaving Handle α
  | [], m =>
    let result := finish m
    .answer result.1 result.2
  | c :: rest, m =>
    let made := m.install c
    .call made.1 made.2 fun outcome m' => callThen finish rest (m'.hear outcome)

/-- The script of a collaborator at a hook: the calls armed for it, then an answer. -/
def script {α : Type} (hook : Hook) (finish : Misbehaving → α × Misbehaving) (m : Misbehaving) :
    Script Misbehaving Handle α :=
  callThen finish ((m.armed.filter fun a => a.1 = hook).map (·.2)) m

/-- An answer of a source of prices: its override, or its own. -/
def adapterAnswer {α : Type} (m : Misbehaving) (h : Handle)
    (override : AdapterOverride → Option (Except ValuationError α))
    (question : UnitPriceAdapter → Except ValuationError α) : Except ValuationError α :=
  match (m.adapterOverrides.get? h.index).bind override with
  | some answer => answer
  | none => m.honest.askAdapter h question

/-- A move of assets: refused by an override, or made. -/
def moveAnswer (m : Misbehaving) (override : Option CustodyError)
    (change : Custody → Except CustodyError Custody) : Except CustodyError Unit × Misbehaving :=
  match override with
  | some e => (.error e, m)
  | none =>
    let result := m.honest.move change
    (result.1, { m with honest := result.2 })

def host : Host Misbehaving Handle where
  now m := m.honest.clock.now
  reference h := h.reference
  holdings := script .holdings fun m =>
    (m.custodyOverride.holdings.getD (.ok m.honest.custody.holdings), m)
  tvl h holdings := script .tvl fun m =>
    (m.adapterAnswer h (·.tvl) (·.tvl holdings), m)
  convert h amounts := script .convert fun m =>
    (m.adapterAnswer h (·.convert) (·.convert amounts), m)
  pull account amounts := script .pull fun m =>
    m.moveAnswer m.custodyOverride.pull (·.pull account amounts)
  release account amounts := script .release fun m =>
    m.moveAnswer m.custodyOverride.release (·.release account amounts)

end Misbehaving

/-! ### Simulations -/

/-- Something that can happen in a simulation. -/
inductive Step where
  | call (c : Call UnitPriceAdapter)
  /-- The custody is changed from outside. -/
  | fund (account : Account) (amounts : List Amount)
  | donate (amounts : List Amount)
  | remove (amounts : List Amount)
  /-- A wallet is read. -/
  | wallet (account : Account)
  | advance (seconds : Timestamp)
  | setClock (time : Timestamp)
  /-- A price of the latest source of a name moves. -/
  | setPrice (reference : Reference) (index : Nat) (price : Amount)
  /-- The metrics are read, under this label. -/
  | metricsText (label : String)
  /-- The vault is replaced by one from the store. -/
  | restore (adapters : List UnitPriceAdapter) (id : Option Uuid)
  | dump (id : Option Uuid)
  /-- The stored bytes of a part are replaced or removed. -/
  | tamper (id : Option Uuid) (part : Part) (bytes : Option Bytes)
  /-- Collaborators are told how to misbehave. -/
  | overrideAdapter (reference : Reference) (override : AdapterOverride)
  | overrideCustody (override : CustodyOverride)
  | arm (hook : Hook) (c : Call UnitPriceAdapter)
  | disarm

inductive StepResult where
  | done
  | call (outcome : Outcome)
  | custody (result : Except CustodyError Unit)
  | valuation (result : Except ValuationError Unit)
  | restored (result : Except VaultError Unit)
  | wallet (amounts : List Amount)
  | text (s : String)
  | bytes (parts : List (Option Bytes))

/-- The store with the bytes of a part replaced or removed. -/
def VaultStore.tamper (s : VaultStore) (id : Uuid) (part : Part) : Option Bytes → VaultStore
  | some bytes => s.setRaw part id.bytes bytes
  | none => s.eraseRaw part id.bytes

/-- The stored bytes of every part of a record. -/
def VaultStore.dump (s : VaultStore) (id : Uuid) : List (Option Bytes) :=
  [s.raw? .configs id.bytes, s.raw? .ledgers id.bytes, s.raw? .governance id.bytes]

/-- A vault among collaborators that may misbehave. -/
structure Simulation where
  world : World Misbehaving Handle
  /-- How many events of the vault's log have been reported. -/
  reported : Nat

/-- What is seen of a step. -/
structure Report where
  result : StepResult
  /-- How the calls of collaborators ended, the first one first. -/
  nested : List Outcome
  /-- What was added to the log. -/
  events : List EventRecord

namespace Simulation

/-- A new vault with its first source of prices. -/
def start (id : Uuid) (config : VaultConfig) (admin : Account) (schedule : FeeSchedule)
    (adapter : UnitPriceAdapter) (assets : Nat) (time : Timestamp) :
    Except VaultError Simulation := do
  let made := InMemory.install ⟨⟨time⟩, .new assets, []⟩ adapter
  let vault ← Vault.create id config admin schedule (made.1.reference, made.1) time
  return ⟨⟨vault, .empty, .ofHonest made.2⟩, 0⟩

variable (s : Simulation)

/-- The honest part of the collaborators. -/
def honest : InMemory := s.world.host.honest

def setHost (m : Misbehaving) : Simulation := { s with world := { s.world with host := m } }

/-- The simulation with another honest part of the collaborators. -/
def setHonest (m : InMemory) : Simulation := s.setHost { s.world.host with honest := m }

/-- The identifier that a step means: its own, or that of the vault. -/
def idOr (id : Option Uuid) : Uuid := id.getD s.world.vault.id

/-- A step with the custody that goes on from its result. -/
def withCustody (result : Except CustodyError Unit × Custody) : StepResult × Simulation :=
  (.custody result.1, s.setHonest { s.honest with custody := result.2 })

/-- Replaces the vault by one from the store. -/
def restore (adapters : List UnitPriceAdapter) (id : Option Uuid) : StepResult × Simulation :=
  let made := s.honest.installAll adapters
  let s := s.setHonest made.2
  match Vault.restore s.world.store (s.idOr id) (made.1.map fun h => (h.reference, h)) with
  | .ok vault => (.restored (.ok ()), ⟨{ s.world with vault := vault }, 0⟩)
  | .error e => (.restored (.error e), s)

/-- Performs a call on the vault. -/
def call (c : Call UnitPriceAdapter) : StepResult × Simulation :=
  let made := s.world.host.install c
  let result := perform Misbehaving.host made.1 { s.world with host := made.2 }
  (.call result.1, { s with world := result.2 })

def effect : Step → StepResult × Simulation
  | .call c => s.call c
  | .fund account amounts => s.withCustody (s.honest.custody.fund account amounts)
  | .donate amounts => s.withCustody (s.honest.custody.donate amounts)
  | .remove amounts =>
    let result := s.honest.move (·.remove amounts)
    (.custody result.1, s.setHonest result.2)
  | .wallet account => (.wallet (s.honest.custody.wallet account), s)
  | .advance seconds =>
    (.done, s.setHonest { s.honest with clock := s.honest.clock.advance seconds })
  | .setClock time => (.done, s.setHonest { s.honest with clock := s.honest.clock.set time })
  | .setPrice reference index price =>
    let result := s.honest.setPrice reference index price
    (.valuation result.1, s.setHonest result.2)
  | .metricsText label => (.text (s.world.vault.metrics.text label), s)
  | .restore adapters id => s.restore adapters id
  | .dump id => (.bytes (s.world.store.dump (s.idOr id)), s)
  | .tamper id part bytes =>
    (.done, { s with world :=
      { s.world with store := s.world.store.tamper (s.idOr id) part bytes } })
  | .overrideAdapter reference override =>
    match s.honest.latest? reference with
    | some place =>
      let m := s.world.host
      (.done, s.setHost { m with adapterOverrides := m.adapterOverrides.insert place override })
    | none => (.done, s)
  | .overrideCustody override =>
    (.done, s.setHost { s.world.host with custodyOverride := override })
  | .arm hook c =>
    let m := s.world.host
    (.done, s.setHost { m with armed := m.armed ++ [(hook, c)] })
  | .disarm => (.done, s.setHost { s.world.host with armed := [] })

/-- Lets a step happen, and reports what is seen of it. -/
def step (step : Step) : Report × Simulation :=
  let result := s.effect step
  let s' := result.2
  let log := s'.world.vault.events.records
  let report := ⟨result.1, s'.world.host.heard, log.drop s'.reported⟩
  (report, { s'.setHost { s'.world.host with heard := [] } with reported := log.length })

end Simulation

end ShareVault
