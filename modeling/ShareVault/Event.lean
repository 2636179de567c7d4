import ShareVault.Access
import ShareVault.Uuid

/-!
# Events

What has happened to a vault.  Every operation that takes effect leaves its events in the log, and
no other operation does.

* `VaultEvent` — what can happen;
* `EventRecord` — an event with its place in the log, its vault and its time;
* `EventLog.emit` — one more record at the end.
-/

namespace ShareVault

/-- Something that happened to a vault. -/
inductive VaultEvent where
  /-- A value was staged for a parameter. -/
  | parameterStaged (param : String) (readyAt : Timestamp) (actor : Account)
  /-- A staged value took effect. -/
  | parameterCommitted (param : String) (actor : Account)
  /-- A staged value was dropped. -/
  | parameterRolledBack (param : String) (actor : Account)
  /-- Fees were charged, or found to be nothing. -/
  | feesCharged (management performance newHighWaterMark : Amount)
  | deposited (depositor : Account) (sharesIssued : Amount) (amountsTaken : List Amount)
  | withdrawn (owner recipient : Account) (sharesBurned : Amount) (amountsReleased : List Amount)
  /-- An account was given a role. -/
  | roleGranted (account : Account) (role : Role)
  /-- A role was taken from an account. -/
  | roleRevoked (account : Account) (role : Role)
  /-- An account was put on the list of depositors, or taken off. -/
  | depositorAllowlisted (account : Account) (allowed : Bool)
  /-- The deposit limits or the privacy of the vault were set. -/
  | depositLimitsUpdated (tokenLimit tokenLimitPerAddress : Amount) (privateVault : Bool)
deriving DecidableEq

structure EventRecord where
  sequence : Word 64
  vault : Uuid
  time : Timestamp
  event : VaultEvent
deriving DecidableEq

/-- The events so far, the first one first. -/
structure EventLog where
  records : List EventRecord
deriving DecidableEq

namespace EventLog

def empty : EventLog := ⟨[]⟩

def size (log : EventLog) : Nat := log.records.length

def events (log : EventLog) : List VaultEvent := log.records.map (·.event)

/-- The latest event. -/
def last? (log : EventLog) : Option VaultEvent := log.records.getLast?.map (·.event)

/-- The place of the next event. -/
def next (log : EventLog) : Word 64 := Word.wrap 64 log.size

/-- The log with one more event. -/
def emit (log : EventLog) (vault : Uuid) (time : Timestamp) (event : VaultEvent) : EventLog :=
  ⟨log.records ++ [⟨log.next, vault, time, event⟩]⟩

/-- The log with more events of one moment. -/
def emitAll (log : EventLog) (vault : Uuid) (time : Timestamp) (events : List VaultEvent) :
    EventLog :=
  events.foldl (fun log event => log.emit vault time event) log

end EventLog

/-! ### Written forms -/

instance : JsonCodec VaultEvent where
  toJson
    | .parameterStaged param readyAt account => .tagged "ParameterStaged" (.object
        [("param", toJson param), ("ready_at", toJson readyAt), ("by", toJson account)])
    | .parameterCommitted param account => .tagged "ParameterCommitted" (.object
        [("param", toJson param), ("by", toJson account)])
    | .parameterRolledBack param account => .tagged "ParameterRolledBack" (.object
        [("param", toJson param), ("by", toJson account)])
    | .feesCharged management performance mark => .tagged "FeesCharged" (.object
        [("management", toJson management), ("performance", toJson performance),
          ("new_high_water_mark", toJson mark)])
    | .deposited depositor shares amounts => .tagged "Deposited" (.object
        [("depositor", toJson depositor), ("shares_issued", toJson shares),
          ("amounts_taken", toJson amounts)])
    | .withdrawn owner recipient shares amounts => .tagged "Withdrawn" (.object
        [("owner", toJson owner), ("recipient", toJson recipient),
          ("shares_burned", toJson shares), ("amounts_released", toJson amounts)])
    | .roleGranted account role => .tagged "RoleGranted" (.object
        [("account", toJson account), ("role", toJson role)])
    | .roleRevoked account role => .tagged "RoleRevoked" (.object
        [("account", toJson account), ("role", toJson role)])
    | .depositorAllowlisted account allowed => .tagged "DepositorAllowlisted" (.object
        [("account", toJson account), ("allowed", toJson allowed)])
    | .depositLimitsUpdated limit perAddress privateVault =>
      .tagged "DepositLimitsUpdated" (.object
        [("token_limit", toJson limit), ("token_limit_per_address", toJson perAddress),
          ("private_vault", toJson privateVault)])
  ofJson? v := do
    let (name, some content) ← v.variant? | none
    match name with
    | "ParameterStaged" =>
      let [param, readyAt, account] ← content.slots? ["param", "ready_at", "by"] | none
      return .parameterStaged (← param.required?) (← readyAt.required?) (← account.required?)
    | "ParameterCommitted" =>
      let [param, account] ← content.slots? ["param", "by"] | none
      return .parameterCommitted (← param.required?) (← account.required?)
    | "ParameterRolledBack" =>
      let [param, account] ← content.slots? ["param", "by"] | none
      return .parameterRolledBack (← param.required?) (← account.required?)
    | "FeesCharged" =>
      let [management, performance, mark] ← content.slots?
        ["management", "performance", "new_high_water_mark"] | none
      return .feesCharged (← management.required?) (← performance.required?) (← mark.required?)
    | "Deposited" =>
      let [depositor, shares, amounts] ← content.slots?
        ["depositor", "shares_issued", "amounts_taken"] | none
      return .deposited (← depositor.required?) (← shares.required?) (← amounts.required?)
    | "Withdrawn" =>
      let [owner, recipient, shares, amounts] ← content.slots?
        ["owner", "recipient", "shares_burned", "amounts_released"] | none
      return .withdrawn (← owner.required?) (← recipient.required?) (← shares.required?)
        (← amounts.required?)
    | "RoleGranted" =>
      let [account, role] ← content.slots? ["account", "role"] | none
      return .roleGranted (← account.required?) (← role.required?)
    | "RoleRevoked" =>
      let [account, role] ← content.slots? ["account", "role"] | none
      return .roleRevoked (← account.required?) (← role.required?)
    | "DepositorAllowlisted" =>
      let [account, allowed] ← content.slots? ["account", "allowed"] | none
      return .depositorAllowlisted (← account.required?) (← allowed.required?)
    | "DepositLimitsUpdated" =>
      let [limit, perAddress, privateVault] ← content.slots?
        ["token_limit", "token_limit_per_address", "private_vault"] | none
      return .depositLimitsUpdated (← limit.required?) (← perAddress.required?)
        (← privateVault.required?)
    | _ => none

instance : JsonCodec EventRecord where
  toJson r := .object
    [("sequence", toJson r.sequence), ("vault", toJson r.vault), ("at", toJson r.time),
      ("event", toJson r.event)]
  ofJson? v := do
    let [sequence, vault, time, event] ← v.slots? ["sequence", "vault", "at", "event"] | none
    return ⟨← sequence.required?, ← vault.required?, ← time.required?, ← event.required?⟩

end ShareVault
