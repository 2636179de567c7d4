import ShareVault.Vault.State

/-!
# Calls on a vault

What can be asked of a vault, and what it replies.

* `Call` — every call, with handles of type `A` on sources of prices;
* `Query`, `Answer` — the calls that only read, and what they read;
* `Reply`, `Outcome` — what a call gives when it succeeds, and how it ends.
-/

namespace ShareVault

/-- A question about the committed state. -/
inductive Query where
  | supply
  | balance (account : Account)
  /-- The high-water mark and the time of the last charge. -/
  | marks
  | schedule
  | param (p : Param)
  | config
deriving DecidableEq

inductive Answer where
  | amount (a : Amount)
  | marks (highWaterMark : Amount) (lastFeeCharge : Timestamp)
  | schedule (s : FeeSchedule)
  | param (active : ParamValue) (staged : Option ParamValue) (readyAt : Timestamp)
  | config (c : VaultConfig)
deriving DecidableEq

inductive Call (A : Type) where
  | deposit (caller : Account) (amounts : List Amount) (minShares : Amount)
      (deadline : Timestamp)
  /-- Burns shares of the caller and pays the recipient. -/
  | withdraw (caller : Account) (shares : Amount) (minAmounts : List Amount)
      (recipient : Account)
  | transfer (caller receiver : Account) (amount : Amount)
  /-- Stages a value for a parameter. -/
  | stage (caller : Account) (param : Param) (value : ParamValue)
  /-- Puts the staged value of a parameter in force. -/
  | commit (caller : Account) (param : Param)
  /-- Drops the staged value of a parameter. -/
  | rollback (caller : Account) (param : Param)
  | grantRole (caller account : Account) (role : Role)
  | revokeRole (caller account : Account) (role : Role)
  | setDepositLimits (caller : Account) (limits : DepositLimits)
  | setPrivate (caller : Account) (privateVault : Bool)
  | setDepositorAllowed (caller account : Account) (allowed : Bool)
  /-- Lets governance choose a source of prices. -/
  | registerAdapter (caller : Account) (adapter : A)
  /-- The fees that a deposit or withdrawal would charge now. -/
  | previewFees
  /-- Writes the committed state to the store. -/
  | persist
  /-- Reads the committed state. -/
  | ask (q : Query)
deriving DecidableEq

inductive Reply where
  | done
  /-- The shares issued and the amounts taken. -/
  | deposited (shares : Amount) (taken : List Amount)
  | withdrawn (released : List Amount)
  /-- The earliest time of a commit. -/
  | staged (readyAt : Timestamp)
  | committed (active : ParamValue)
  /-- Whether a value was staged. -/
  | rolledBack (existed : Bool)
  | fees (charge : FeeCharge)
  | answer (a : Answer)
deriving DecidableEq

abbrev Outcome := Except VaultError Reply

/-- What a question reads in a vault. -/
def Vault.answer {A : Type} (v : Vault A) : Query → Answer
  | .supply => .amount v.state.ledger.totalSupply
  | .balance account => .amount (v.state.ledger.balanceOf account)
  | .marks => .marks v.state.ledger.highWaterMark v.state.ledger.lastFeeCharge
  | .schedule => .schedule v.state.governance.schedule
  | .param p =>
    let params := v.state.governance.params
    .param (params.activeValue p) (params.stagedValue? p) (params.readyAt p)
  | .config => .config v.config

end ShareVault
