import ShareVault.Proofs.FeeCaps
import ShareVault.Proofs.Rounding
import ShareVault.Proofs.Sources
import ShareVault.Proofs.Supply

/-!
# Exact arithmetic

Whatever outside code answers, no call divides by zero, and every difference is taken of a number
that is large enough.  Each divisor and each difference is guarded in another place: the thresholds
by the setup, the parts of a fee by their sum, the supply by the balances that make it up.

* `NestedCall.WhileBusy.outcome_ne_math` — calls of outside code compute no amounts;
* `Turn.calls_ne_divisionByZero` — no call of a turn divides by zero;
* `performanceFeeShares_gain`, `UnitPriceAdapter.new_cut`, `debited_of_transfer` — differences in
  fees, haircuts and transfers;
* `ExactArithmetic`, `exact_arithmetic` — the result.
-/

namespace ShareVault

/-! ### Divisors -/

section Divisors

variable {σ A : Type} {host : Host σ A} {w : World σ A} {e : NestedCall σ A}

/-- A call of outside code computes no amounts. -/
theorem NestedCall.WhileBusy.outcome_ne_math (h : e.WhileBusy host) (m : MathError) :
    e.outcome ≠ .error (.math m) := by
  cases h with
  | @unwritten w e₀ fails =>
    rintro ⟨⟩
    obtain ⟨_, _, hstorage⟩ := Attempt.mapError_eq_error.mp fails
    cases hstorage
  | _ => nofun

/-- No call of a turn divides by zero, as every threshold is positive. -/
theorem Turn.calls_ne_divisionByZero (hw : Reachable host w) (t : Turn σ A)
    (he : e ∈ t.calls host w) : e.outcome ≠ .error (.math .divisionByZero) := by
  rcases Turn.mem_calls hw.idle he with ⟨hbusy, _⟩ | ⟨c, rfl⟩
  · exact hbusy.outcome_ne_math _
  · intro hfails
    have hzero := (perform_error_idle hw.idle hfails).divisor rfl
    exact VaultConfig.existentials_pos hw.valid.vault.config hzero

end Divisors

/-! ### Differences -/

/-- A growth of the value per share is charged on the exact gain. -/
theorem performanceFeeShares_gain {price mark : Amount} (hgrowth : mark < price) (hmark : mark ≠ 0)
    (supply rate : Amount) :
    ∃ gain : Amount, gain.toNat + mark.toNat = price.toNat ∧
      performanceFeeShares supply price mark rate =
        (mulDiv supply gain mark >>= fun growth => mulDiv growth rate feeDenominator) := by
  refine ⟨price.sub mark (Nat.le_of_lt hgrowth), ?_, dif_pos ⟨hgrowth, hmark⟩⟩
  rw [Word.toNat_sub]
  exact Nat.sub_add_cancel (Nat.le_of_lt hgrowth)

/-- What a haircut leaves is exactly the rest of it, up to a haircut of everything. -/
theorem UnitPriceAdapter.new_cut (reference : Reference) (prices : List Amount) (spread : Nat)
    (holding : Amount) :
    ∃ kept : Amount, kept.toNat + min spread basisPoints.toNat = basisPoints.toNat ∧
      (new reference prices spread).cut holding = mulDiv holding kept basisPoints := by
  refine ⟨_, ?_, rfl⟩
  rw [Word.toNat_sub, toNat_spread_new]
  omega

/-- A transfer to another account takes the exact amount from the owner, and leaves the supply
alone. -/
theorem debited_of_transfer {l l' : ShareLedger} {owner receiver : Account} {amount : Amount}
    (hother : owner ≠ receiver) (h : l.transfer owner receiver amount = .ok l') :
    (l'.balanceOf owner).toNat + amount.toNat = (l.balanceOf owner).toNat ∧
      l'.totalSupply = l.totalSupply := by
  refine ⟨?_, ShareLedger.supply_of_transfer h⟩
  obtain ⟨_, ⟨hsame, rfl⟩ | ⟨_, debited, credited, hdebited, _, rfl⟩⟩ := ShareLedger.transfer_ok h
  · rw [hsame.resolve_left hother]
    rfl
  · rw [ShareLedger.balanceOf_setBalance, if_neg hother, ShareLedger.balanceOf_setBalance,
      if_pos rfl]
    exact hdebited

/-! ### The result -/

/-- What arithmetic comes to in a world.  Differences are stated as sums of numbers. -/
structure ExactArithmetic {σ A : Type} (host : Host σ A) (w : World σ A) : Prop where
  /-- No call divides by zero, and no call that outside code makes meanwhile does. -/
  divisors : ∀ (t : Turn σ A), ∀ e ∈ t.calls host w,
    e.outcome ≠ .error (.math .divisionByZero)
  /-- The strategy's part of what is owed for time and the rest of it make up the whole. -/
  parts : ∀ (schedule : FeeSchedule) (elapsed : Timestamp) (supply strategy protocol : Amount),
    splitManagement schedule elapsed supply = .ok (strategy, protocol) →
    ∃ rate management, checkedAdd schedule.managementFee schedule.protocolFee = .ok rate ∧
      managementFeeShares rate elapsed supply = .ok management ∧
      strategy.toNat + protocol.toNat = management.toNat
  /-- A performance fee is charged on the exact gain over the mark, and on nothing else. -/
  gain : ∀ supply price mark rate : Amount,
    (¬ (mark < price ∧ mark ≠ 0) ∧ performanceFeeShares supply price mark rate = .ok 0) ∨
      ∃ gain : Amount, gain.toNat + mark.toNat = price.toNat ∧
        performanceFeeShares supply price mark rate =
          (mulDiv supply gain mark >>= fun growth => mulDiv growth rate feeDenominator)
  /-- A burn, after whatever charge on the committed ledger, takes the exact amount from the balance
  and from the supply. -/
  burn : ∀ (schedule : FeeSchedule) (lower existentials : List Amount)
    (appraise : List Amount → Except ValuationError Amount) (now : Timestamp) (fees : FeeCharge)
    (charged ledger : ShareLedger) (owner : Account) (amount : Amount),
    chargeFees w.vault.state.ledger schedule lower existentials appraise now =
      (.ok fees, charged) →
    charged.burn owner amount = .ok ledger →
    (ledger.balanceOf owner).toNat + amount.toNat = (charged.balanceOf owner).toNat ∧
      ledger.totalSupply.toNat + amount.toNat = charged.totalSupply.toNat
  /-- A transfer takes the exact amount from the owner, and leaves the supply alone. -/
  transfer : ∀ (owner receiver : Account) (amount : Amount) (ledger : ShareLedger),
    owner ≠ receiver → w.vault.state.ledger.transfer owner receiver amount = .ok ledger →
    (ledger.balanceOf owner).toNat + amount.toNat =
        (w.vault.state.ledger.balanceOf owner).toNat ∧
      ledger.totalSupply = w.vault.state.ledger.totalSupply
  /-- A debit takes the exact amount of each asset. -/
  debit : ∀ (holder : String) (balances amounts rest : List Amount),
    amounts.length ≤ balances.length → Custody.debit holder balances amounts = .ok rest →
    ∀ i, amountAt rest i + amountAt amounts i = amountAt balances i
  /-- A haircut, however large it is asked to be, leaves the exact rest. -/
  haircut : ∀ (reference : Reference) (prices : List Amount) (spread : Nat) (holding : Amount),
    ∃ kept : Amount, kept.toNat + min spread basisPoints.toNat = basisPoints.toNat ∧
      (UnitPriceAdapter.new reference prices spread).cut holding = mulDiv holding kept basisPoints

/-- In every world that a run leads to, whatever outside code has answered and answers, no call
divides by zero and no difference is cut short. -/
theorem exact_arithmetic {σ A : Type} {host : Host σ A} {w : World σ A} (hw : Reachable host w) :
    ExactArithmetic host w where
  divisors t _ he := t.calls_ne_divisionByZero hw he
  parts _ _ _ _ _ h := splitManagement_parts h
  gain supply price mark rate := by
    by_cases h : mark < price ∧ mark ≠ 0
    · exact .inr (performanceFeeShares_gain h.1 h.2 supply rate)
    · exact .inl ⟨h, dif_neg h⟩
  burn _ _ _ _ _ _ charged ledger owner amount hcharges hburn := by
    have hsound := (chargeFees_ok hcharges).sound hw.sound.ledger
    refine ⟨?_, ShareLedger.supply_of_burn hsound hburn⟩
    have hbalance := ShareLedger.balanceOf_of_burn hburn owner
    rwa [if_pos rfl] at hbalance
  transfer _ _ _ _ hother h := debited_of_transfer hother h
  debit _ _ _ _ hlength h := (Custody.debit_ok hlength h).2
  haircut := UnitPriceAdapter.new_cut

namespace SmallVault

/-- A year after Alice has deposited everything the vault has lost it all, and Alice has fifty units
again. -/
def emptied : World InMemory Handle :=
  play InMemory.host start
    [.call (.deposit "alice" [.saturate 128 1000] 0 0), .outside (surroundings 1 0 50)]

end SmallVault

open SmallVault in
/-- Her shares are still there and the bounds of what the vault holds are zero, but nothing is
divided by them. -/
theorem exact_arithmetic_emptied :
    emptied.vault.state.ledger.totalSupply.toNat = 1000 ∧
      (perform InMemory.host (.deposit "alice" [.saturate 128 50] 0 (.largest 64)) emptied).1 =
        .ok (.deposited (.saturate 128 50) [.saturate 128 50]) ∧
      ExactArithmetic InMemory.host emptied :=
  ⟨by decide +kernel, by decide +kernel, exact_arithmetic (reachable _)⟩

end ShareVault
