import ShareVault.Custody
import ShareVault.Governance
import ShareVault.Store

/-!
# Errors of a vault

Everything a call on a vault can fail with.

* `VaultError` — the causes;
* `VaultError.kind` — the label of a cause;
* `VaultError.message` — its text.
-/

namespace ShareVault

/-- What a caller has set a floor for. -/
inductive Floor where
  | shares
  | asset (index : Nat)
deriving DecidableEq

def Floor.name : Floor → String
  | .shares => "shares"
  | .asset index => s!"asset #{index}"

/-- Why a call on a vault fails. -/
inductive VaultError where
  | config (e : ConfigError)
  | governance (e : GovernanceError)
  | ledger (e : LedgerError)
  | math (e : MathError)
  | valuation (e : ValuationError)
  | custody (e : CustodyError)
  | storage (e : StorageError)
  /-- The amounts are not one per token. -/
  | lengthMismatch (expected got : Nat)
  /-- The outcome is below the caller's floor. -/
  | slippage (what : Floor) (actual minimum : Amount)
  | deadlineExpired (deadline now : Timestamp)
  | reentrant
  /-- No shares would be created or destroyed. -/
  | zeroShares
  /-- A first deposit brings too little of an asset. -/
  | firstDepositTooSmall (index : Nat) (amount minimum : Amount)
  /-- The deposit would exceed a limit. -/
  | limitExceeded (limit : Limit) (wouldBe max : Amount)
  /-- The account is not on the list of depositors. -/
  | depositorNotAllowed (account : Account)
  /-- No source of prices goes by this name. -/
  | unknownAdapter (reference : Reference)
  /-- There are no shares. -/
  | emptyVault
deriving DecidableEq

namespace VaultError

def kind : VaultError → String
  | .config _ => "config"
  | .governance _ => "governance"
  | .ledger _ => "ledger"
  | .math _ => "math"
  | .valuation _ => "valuation"
  | .custody _ => "custody"
  | .storage _ => "storage"
  | .lengthMismatch .. => "length_mismatch"
  | .slippage .. => "slippage"
  | .deadlineExpired .. => "deadline"
  | .reentrant => "reentrant"
  | .zeroShares => "zero_shares"
  | .firstDepositTooSmall .. => "first_deposit"
  | .limitExceeded .. => "limit"
  | .depositorNotAllowed _ => "not_allowed"
  | .unknownAdapter _ => "unknown_adapter"
  | .emptyVault => "empty_vault"

def message : VaultError → String
  | .config e => "config: " ++ e.message
  | .governance e => "governance: " ++ e.message
  | .ledger e => "ledger: " ++ e.message
  | .math e => "math: " ++ e.message
  | .valuation e => "valuation: " ++ e.message
  | .custody e => "custody: " ++ e.message
  | .storage e => "storage: " ++ e.message
  | .lengthMismatch expected got => s!"length mismatch: expected {expected} amounts, got {got}"
  | .slippage what actual minimum =>
    "slippage exceeded: " ++ what.name ++ s!" {actual} below minimum {minimum}"
  | .deadlineExpired deadline now => s!"deadline {deadline} expired at {now}"
  | .reentrant => "reentrant call rejected"
  | .zeroShares => "operation would move zero shares"
  | .firstDepositTooSmall index amount minimum =>
    s!"first deposit of asset #{index} is {amount}, minimum is {minimum}"
  | .limitExceeded limit wouldBe max => limit.name ++ s!" exceeded: {wouldBe} > {max}"
  | .depositorNotAllowed account =>
    s!"{account} is not allowed to deposit into this private vault"
  | .unknownAdapter reference => s!"unknown valuation adapter: {reference}"
  | .emptyVault => "vault has no shares outstanding"

end VaultError

/-- Accepts a list with one entry per token. -/
def checkLength (expected got : Nat) : Except VaultError Unit :=
  if expected = got then .ok () else .error (.lengthMismatch expected got)

/-- Accepts a deposit within the limits. -/
def DepositLimits.check (l : DepositLimits) (supplyAfter balanceAfter : Amount) :
    Except VaultError Unit :=
  match l.check? supplyAfter balanceAfter with
  | none => .ok ()
  | some (limit, wouldBe, max) => .error (.limitExceeded limit wouldBe max)

end ShareVault
