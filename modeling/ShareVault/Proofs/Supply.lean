import ShareVault.Proofs.Charge
import ShareVault.Proofs.Custody
import ShareVault.Proofs.Record

/-!
# The supply over whole runs

Every call that succeeds keeps the ledger sound, a call that fails leaves it alone, and what is
written to a store is read back as it was.  So the balances add up to the supply in every world that
a run leads to, whatever outside code answers and however often it calls back.

* `Commits.sound` — one call;
* `World.Sound`, `Reachable.sound` — every run;
* `persist_restore_ledger` — a ledger that is written and read back;
* `supply_conserved` — the result.
-/

namespace ShareVault

variable {σ A : Type} {host : Host σ A} {w : World σ A}

/-! ### One call -/

/-- A call that succeeds keeps the ledger sound. -/
theorem Commits.sound {config : VaultConfig} {now : Timestamp} {s : VaultState} {c : Call A}
    {effect : Effect Reply} (hs : s.ledger.Sound) (h : Commits config now s c effect) :
    effect.state.ledger.Sound := by
  cases h with
  | deposit inTime allowed sized charges settles =>
    obtain ⟨_, _, _, hmint⟩ := Operation.settleDeposit_ok settles
    exact ((chargeFees_ok charges).sound hs).mint hmint
  | withdraw sized charges settles =>
    obtain ⟨_, hburn⟩ := Operation.settleWithdrawal_ok settles
    exact ((chargeFees_ok charges).sound hs).burn hburn
  | transfer moves => exact hs.transfer moves
  | stage stages => exact hs
  | commit commits => exact hs
  | rollback drops => exact hs
  | grantRole grants => exact hs
  | revokeRole revokes => exact hs
  | setDepositLimits sets => exact hs
  | setPrivate sets => exact hs
  | setDepositorAllowed sets => exact hs

/-! ### Every run -/

/-- The ledger of the vault is sound, and every stored ledger is. -/
structure World.Sound (w : World σ A) : Prop where
  ledger : w.vault.state.ledger.Sound
  store : w.store.Holds fun record => record.ledger.Sound

theorem Reachable.sound (h : Reachable host w) : w.Sound := by
  have hholds : w.Holds fun record => record.ledger.Sound := by
    apply h.holds
    · intro config now s c effect hcommits hs
      exact hcommits.sound hs
    · intro id config admin schedule adapter now v hcreated
      obtain ⟨_, _, _, _, rfl⟩ := create_ok hcreated
      exact ShareLedger.sound_new _
  exact ⟨hholds.vault, hholds.store⟩

/-- A vault that is restored from the record that a vault has written has the ledger of that
vault. -/
theorem persist_restore_ledger {v v' : Vault A} {store store' : VaultStore}
    {adapters : List (Reference × A)} (hpersist : v.persist store = .ok store')
    (hrestore : Vault.restore store' v.id adapters = .ok v') :
    v'.state.ledger = v.state.ledger := by
  unfold Vault.persist at hpersist
  rw [Attempt.mapError_eq_ok] at hpersist
  obtain ⟨record, hrecord, rfl⟩ := restore_ok hrestore
  rw [VaultStore.get_put_self hpersist] at hrecord
  cases hrecord
  rfl

/-- In every world that a run leads to, the balances add up to the supply and none of them is zero.
The same holds of every vault that is restored from the record that the vault would write there, to
whatever store. -/
theorem supply_conserved (hw : Reachable host w) :
    w.vault.state.ledger.Sound ∧
      ∀ (store store' : VaultStore) (adapters : List (Reference × A)) (v : Vault A),
        w.vault.persist store = .ok store' → Vault.restore store' w.vault.id adapters = .ok v →
          v.state.ledger.Sound := by
  refine ⟨hw.sound.ledger, fun store store' adapters v hpersist hrestore => ?_⟩
  rw [persist_restore_ledger hpersist hrestore]
  exact hw.sound.ledger

/-- After a year Alice withdraws half of her shares, for which a tenth of all shares is charged. -/
def SmallVault.charged : World InMemory Handle :=
  play InMemory.host nextYear [.call (.withdraw "alice" (.saturate 128 500) [0] "alice")]

/-- The vault that is restored from what the vault writes then. -/
def SmallVault.restored : Except VaultError (Vault Handle) := do
  let store ← charged.vault.persist .empty
  Vault.restore store charged.vault.id [("par", ⟨"par", 0⟩)]

theorem supply_conserved_charged :
    SmallVault.charged.vault.state.ledger.totalSupply.toNat = 600 ∧
      SmallVault.charged.vault.state.ledger.Sound ∧
      ∃ v, SmallVault.restored = .ok v ∧ v.state.ledger.Sound := by
  have hconserved := supply_conserved (SmallVault.reachable
    [.call (.deposit "alice" [.saturate 128 1000] 0 0),
      .outside (SmallVault.surroundings 1 1000 0),
      .call (.withdraw "alice" (.saturate 128 500) [0] "alice")])
  refine ⟨rfl, hconserved.1, ?_⟩
  have hok : SmallVault.restored.isOk = true := by decide +kernel
  cases h : SmallVault.restored with
  | error e =>
    rw [h] at hok
    cases hok
  | ok v =>
    obtain ⟨store, hpersist, hrestore⟩ := Attempt.bind_eq_ok.mp h
    exact ⟨v, rfl, hconserved.2 _ store _ v hpersist hrestore⟩

end ShareVault
