import ShareVault.Proofs.Supply

/-!
# The fee time of a deposit

Fees are charged before a deposit, and a charge that is not skipped moves the fee time up to now.
A charge is skipped, too, on a vault without shares: when it comes too soon, or when every asset is
dust, as in a vault that has never held anything.  Then the first shares are charged for the time
before they were issued.

* `lastFeeCharge_of_deposit` — the fee time that a deposit leaves;
* `fee_time_of_deposit` — exactly when the fee time has come up to a deposit.
-/

namespace ShareVault

variable {σ A : Type} {host : Host σ A} {w w' : World σ A}

/-- A deposit leaves the fee time of the charge that comes before it. -/
theorem lastFeeCharge_of_deposit {caller : Account} {amounts : List Amount} {minShares : Amount}
    {deadline : Timestamp}
    (run : Operation.DepositRun host.nested host caller amounts minShares deadline w) :
    (Accrual.Skips w.vault.state.ledger w.vault.state.governance.schedule run.tvl.lower
        w.vault.config.existentials (host.now w.host) →
      run.ledger.lastFeeCharge = w.vault.state.ledger.lastFeeCharge) ∧
    (¬ Accrual.Skips w.vault.state.ledger w.vault.state.governance.schedule run.tvl.lower
        w.vault.config.existentials (host.now w.host) →
      run.ledger.lastFeeCharge = max (host.now w.host) w.vault.state.ledger.lastFeeCharge) := by
  obtain ⟨value, hcharges, _⟩ := Operation.charge_ok run.charges
  rw [Operation.valuation_config (nested_attends host) run.appraises] at hcharges
  have hcharged := chargeFees_ok hcharges
  obtain ⟨_, _, _, hmint⟩ := Operation.settleDeposit_ok run.settles
  rw [ShareLedger.lastFeeCharge_of_mint hmint]
  refine ⟨fun hskips => ?_, fun hskips => ?_⟩
  · rw [hcharged.eq_of_skips hskips]
  · exact hcharged.lastFeeCharge_eq hskips

/-- A deposit that succeeds leaves a fee time that has come up to it exactly if the fee time had
done so before, or the deposit is outside the throttle window and some asset is more than dust by
its lower bound. -/
theorem fee_time_of_deposit {caller : Account} {amounts : List Amount} {minShares : Amount}
    {deadline : Timestamp} {reply : Reply}
    (h : perform host (.deposit caller amounts minShares deadline) w = (.ok reply, w')) :
    ∃ adapter holdings tvl priced,
      w.vault.adapters.get? w.vault.state.governance.schedule.valuationReference = some adapter ∧
      Operation.valuation host.nested host adapter (w.mapVault .begin) =
        .ok (holdings, tvl) priced ∧
      (host.now w.host ≤ w'.vault.state.ledger.lastFeeCharge ↔
        host.now w.host ≤ w.vault.state.ledger.lastFeeCharge ∨
          (w.vault.state.governance.schedule.feeChargeThrottle ≤
              (host.now w.host).monus w.vault.state.ledger.lastFeeCharge ∧
            allDust tvl.lower w.vault.config.existentials = false)) := by
  obtain ⟨_, run, _, rfl⟩ := Operation.deposit_ok (perform_eq_ok.mp h)
  refine ⟨run.adapter, run.holdings, run.tvl, run.priced, run.known, run.appraises, ?_⟩
  obtain ⟨hskipped, hcharged⟩ := lastFeeCharge_of_deposit run
  show host.now w.host ≤ run.ledger.lastFeeCharge ↔ _
  by_cases hskips : Accrual.Skips w.vault.state.ledger w.vault.state.governance.schedule
      run.tvl.lower w.vault.config.existentials (host.now w.host)
  · rw [hskipped hskips]
    refine ⟨.inl, fun h => h.resolve_right ?_⟩
    rintro ⟨hlate, hworth⟩
    rcases hskips with hsoon | hdust
    · exact Nat.not_lt.mpr hlate hsoon
    · rw [hdust] at hworth
      cases hworth
  · rw [hcharged hskips, Word.le_def, Word.toNat_max]
    refine ⟨fun _ => .inr ⟨?_, ?_⟩, fun _ => Nat.le_max_left _ _⟩
    · exact Nat.not_lt.mp fun hsoon => hskips (.inl hsoon)
    · exact Bool.eq_false_iff.mpr fun hdust => hskips (.inr hdust)

/-- The small vault, a year after it was made, and without a deposit so far. -/
def SmallVault.unused : World InMemory Handle :=
  play InMemory.host start [.outside (surroundings 1 0 1000)]

/-- The first deposit, a year after the vault was made. -/
def SmallVault.firstDeposit : Outcome × World InMemory Handle :=
  perform InMemory.host (.deposit "alice" [.saturate 128 1000] 0 (.largest 64)) unused

theorem fee_time_of_first_deposit :
    SmallVault.firstDeposit.1 = .ok (.deposited (.saturate 128 1000) [.saturate 128 1000]) ∧
      ∃ adapter holdings tvl priced,
        Operation.valuation InMemory.host.nested InMemory.host adapter
          (SmallVault.unused.mapVault .begin) = .ok (holdings, tvl) priced ∧
        (InMemory.host.now SmallVault.unused.host ≤
            SmallVault.firstDeposit.2.vault.state.ledger.lastFeeCharge ↔
          InMemory.host.now SmallVault.unused.host ≤
              SmallVault.unused.vault.state.ledger.lastFeeCharge ∨
            (SmallVault.schedule.feeChargeThrottle ≤
                (InMemory.host.now SmallVault.unused.host).monus
                  SmallVault.unused.vault.state.ledger.lastFeeCharge ∧
              allDust tvl.lower SmallVault.config.existentials = false)) := by
  have hdeposits : SmallVault.firstDeposit.1 =
      .ok (.deposited (.saturate 128 1000) [.saturate 128 1000]) := rfl
  obtain ⟨adapter, holdings, tvl, priced, _, happraises, hiff⟩ :=
    fee_time_of_deposit (Prod.ext hdeposits rfl)
  exact ⟨hdeposits, adapter, holdings, tvl, priced, happraises, hiff⟩

/-- The vault holds nothing before its first deposit, so the charge is skipped and the fee time
stays where it was.  The next charge is made for the whole year before the deposit. -/
theorem first_deposit_charged_for_time_before :
    Reachable InMemory.host SmallVault.unused ∧
      SmallVault.unused.vault.state.ledger.totalSupply = 0 ∧
      SmallVault.firstDeposit.1 = .ok (.deposited (.saturate 128 1000) [.saturate 128 1000]) ∧
      ¬ InMemory.host.now SmallVault.unused.host ≤
        SmallVault.firstDeposit.2.vault.state.ledger.lastFeeCharge ∧
      (perform InMemory.host .previewFees SmallVault.firstDeposit.2).1 =
        .ok (.fees ⟨.saturate 128 100, 0, 0, 0, 0, none⟩) :=
  ⟨SmallVault.reachable _, rfl, rfl, by decide +kernel, rfl⟩

end ShareVault
