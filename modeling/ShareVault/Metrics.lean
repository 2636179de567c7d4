import ShareVault.Binary64
import ShareVault.Event

/-!
# Metrics of a vault

Four counters and a gauge.  The counters move with the events of committed operations and with
rejections, the gauge shows the supply after the latest committed operation.

* `VaultMetrics.observe`, `recordRejection`, `recordSupply` — what moves them;
* `VaultMetrics.text` — the exposition text, one family after another in the order of their names.
-/

namespace ShareVault

/-- The counters and the gauge of a vault. -/
structure VaultMetrics where
  /-- Committed deposits. -/
  deposits : Nat
  /-- Committed withdrawals. -/
  withdrawals : Nat
  /-- Calls that ended in an error. -/
  rejected : Nat
  /-- Fee shares minted; it begins again at zero when it runs over. -/
  feeShares : Word 64
  /-- The supply, or the largest number the gauge can show. -/
  supply : Word 63
deriving DecidableEq

namespace VaultMetrics

/-- Metrics of a vault that has seen nothing. -/
def zero : VaultMetrics := ⟨0, 0, 0, 0, 0⟩

def recordDeposit (m : VaultMetrics) : VaultMetrics := { m with deposits := m.deposits + 1 }

def recordWithdrawal (m : VaultMetrics) : VaultMetrics :=
  { m with withdrawals := m.withdrawals + 1 }

/-- Counts a call that ended in an error. -/
def recordRejection (m : VaultMetrics) : VaultMetrics := { m with rejected := m.rejected + 1 }

/-- Counts fee shares; one charge counts for at most the largest step the counter can make. -/
def recordFeeShares (m : VaultMetrics) (shares : Amount) : VaultMetrics :=
  { m with feeShares := m.feeShares.addWrap (Word.saturate 64 shares.toNat) }

def recordSupply (m : VaultMetrics) (supply : Amount) : VaultMetrics :=
  { m with supply := Word.saturate 63 supply.toNat }

def observe (m : VaultMetrics) : VaultEvent → VaultMetrics
  | .feesCharged management performance _ => m.recordFeeShares (management.addSat performance)
  | .deposited .. => m.recordDeposit
  | .withdrawn .. => m.recordWithdrawal
  | _ => m

/-! ### Exposition text -/

structure Family where
  /-- The name after the common first part. -/
  name : String
  help : String
  /-- Whether it is a counter or a gauge. -/
  kind : String
  sample : Nat

/-- The metrics in the order of their names. -/
def families (m : VaultMetrics) : List Family :=
  [⟨"deposits_total", "Committed deposits", "counter", m.deposits⟩,
    ⟨"fee_shares_minted_total", "Shares minted to fee treasuries", "counter",
      m.feeShares.toNat⟩,
    ⟨"rejected_operations_total", "Vault operations rejected with an error", "counter",
      m.rejected⟩,
    ⟨"total_supply", "Outstanding vault shares", "gauge", m.supply.toNat⟩,
    ⟨"withdrawals_total", "Committed withdrawals", "counter", m.withdrawals⟩]

/-- The common first part of the names. -/
def namespaceName : String := "kestrel"

/-- The three lines of a metric, for a vault of this label. -/
def Family.text (label : String) (f : Family) : String :=
  let name := namespaceName ++ "_" ++ f.name
  let sample := (Binary64.ofNat f.sample).shortest
  "# HELP " ++ name ++ " " ++ f.help ++ "\n# TYPE " ++ name ++ " " ++ f.kind ++ "\n" ++
    name ++ "\x7bvault=\"" ++ label ++ "\"\x7d " ++ toString sample ++ "\n"

/-- The exposition text, for a vault of this label. -/
def text (m : VaultMetrics) (label : String) : String :=
  String.join (m.families.map (Family.text label))

end VaultMetrics

end ShareVault
