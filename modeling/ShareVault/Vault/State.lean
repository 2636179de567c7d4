import ShareVault.Fees
import ShareVault.Metrics

/-!
# The state of a vault

A vault has a committed state, a flag that says whether an operation is in progress, the sources
of prices it may choose from, and what it shows to observers.

* `VaultState` — the ledger and the governance, which change together or not at all;
* `Vault` — a vault; the type `A` stands for a handle on a source of prices;
* `Vault.create`, `restore`, `persist` — from nothing, from a stored record, and into one;
* `Vault.begin`, `abandon`, `commit`, `reject` — the flag and the observers around an operation.
-/

namespace ShareVault

/-- What an operation changes, all of it or nothing. -/
structure VaultState where
  ledger : ShareLedger
  governance : VaultGovernance
deriving DecidableEq

/-- A vault with handles of type `A` on its sources of prices. -/
structure Vault (A : Type) where
  id : Uuid
  config : VaultConfig
  /-- Whether an operation is in progress. -/
  entered : Bool
  /-- The committed state. -/
  state : VaultState
  /-- The sources of prices by name. -/
  adapters : SortedMap Reference A
  events : EventLog
  metrics : VaultMetrics

namespace Vault

variable {A : Type}

/-- The number of a vault's assets. -/
def tokenCount (v : Vault A) : Nat := v.config.tokenCount

/-! ### Coming into being -/

/-- A vault in this state, before its first operation. -/
def ofParts (id : Uuid) (config : VaultConfig) (state : VaultState)
    (adapters : List (Reference × A)) : Vault A where
  id := id
  config := config
  entered := false
  state := state
  adapters := .ofList adapters
  events := .empty
  metrics := VaultMetrics.zero.recordSupply state.ledger.totalSupply

/-- A new vault with one admin.  The schedule has to name the source of prices that comes with
it, and fees count from now on. -/
def create (id : Uuid) (config : VaultConfig) (admin : Account) (schedule : FeeSchedule)
    (adapter : Reference × A) (now : Timestamp) : Except VaultError (Vault A) := do
  config.validate.mapError .config
  if schedule.valuationReference ≠ adapter.1 then
    throw (.unknownAdapter schedule.valuationReference)
  let governance ←
    (VaultGovernance.new admin schedule config.settings).mapError .governance
  return ofParts id config ⟨.new now, governance⟩ [adapter]

/-- What is stored of a vault. -/
def record (v : Vault A) : VaultRecord := ⟨v.config, v.state.ledger, v.state.governance⟩

/-- Writes the committed state of a vault to a store. -/
def persist (v : Vault A) (store : VaultStore) : Except VaultError VaultStore :=
  (store.put v.id v.record).mapError .storage

/-- The vault of a stored record.  Its settings have to be valid still, and the source of prices
in force has to be among those that come with it. -/
def restore (store : VaultStore) (id : Uuid) (adapters : List (Reference × A)) :
    Except VaultError (Vault A) := do
  match ← (store.get id).mapError .storage with
  | none => throw (.storage (.notFound id))
  | some record =>
    record.config.validate.mapError .config
    record.governance.settings.validate.mapError .config
    let reference := record.governance.schedule.valuationReference
    if adapters.all (·.1 ≠ reference) then
      throw (.unknownAdapter reference)
    return ofParts id record.config ⟨record.ledger, record.governance⟩ adapters

/-! ### Around an operation -/

def begin (v : Vault A) : Vault A := { v with entered := true }

/-- An operation ends and changes nothing. -/
def abandon (v : Vault A) : Vault A := { v with entered := false }

/-- A call is turned away. -/
def reject (v : Vault A) : Vault A := { v with metrics := v.metrics.recordRejection }

/-- An operation ends with a new state and these events. -/
def commit (v : Vault A) (state : VaultState) (now : Timestamp) (events : List VaultEvent) :
    Vault A :=
  { v with
    entered := false
    state := state
    events := v.events.emitAll v.id now events
    metrics := (events.foldl VaultMetrics.observe v.metrics).recordSupply
      state.ledger.totalSupply }

end Vault

end ShareVault
