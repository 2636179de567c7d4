import ShareVault.Proofs.Booking

/-!
# Shares owed for time

Time is charged for at the rates of the strategy and of the protocol together.  What a supply owes
for some seconds is one floored quotient.  The strategy gets its part of that, floored, and the
protocol gets the rest, so the two together get the whole of it.

* `FeeSchedule.timeRate`, `feesFor` — the rate that time is charged at, and the shares owed for it;
* `feesFor_le`, `feesFor_supply_le`, `feesFor_add_le`, `feesFor_mul_le` — more time, more shares,
  two spans, and the flooring;
* `splitManagement_ok` — both parts together are what is owed;
* `Charges.minted_of_skipped`, `Charges.time_fees` — what every charge mints for time, exactly.
-/

namespace ShareVault

/-! ### Numbers -/

/-- The rate a year that time is charged at, the strategy's and the protocol's together. -/
def FeeSchedule.timeRate (s : FeeSchedule) : Nat := s.managementFee.toNat + s.protocolFee.toNat

/-- The rate in force that time is charged at. -/
def World.timeRate {σ A : Type} (w : World σ A) : Nat :=
  w.vault.state.governance.schedule.timeRate

/-- The shares that a supply owes for some seconds, each taken times its rate. -/
def feesFor (supply rateSeconds : Nat) : Nat := supply * rateSeconds / yearScale

theorem feesFor_zero (supply : Nat) : feesFor supply 0 = 0 := by
  rw [feesFor, Nat.mul_zero, Nat.zero_div]

theorem feesFor_le {supply rateSeconds rateSeconds' : Nat} (h : rateSeconds ≤ rateSeconds') :
    feesFor supply rateSeconds ≤ feesFor supply rateSeconds' := by
  unfold feesFor
  exact Nat.div_le_div_right (Nat.mul_le_mul_left _ h)

/-- More shares owe no less. -/
theorem feesFor_supply_le {supply supply' : Nat} (h : supply ≤ supply') (rateSeconds : Nat) :
    feesFor supply rateSeconds ≤ feesFor supply' rateSeconds := by
  unfold feesFor
  exact Nat.div_le_div_right (Nat.mul_le_mul_right _ h)

/-- What is owed for two spans together is owed for them one by one, but for less than a share. -/
theorem feesFor_add_le (supply first second : Nat) :
    feesFor supply (first + second) ≤ feesFor supply first + feesFor supply second + 1 := by
  have hpos : 0 < yearScale := by decide
  simp only [feesFor, Nat.mul_add]
  exact (floor_add_bounds hpos _ _).2

theorem feesFor_mul_le (supply rateSeconds : Nat) :
    feesFor supply rateSeconds * yearScale ≤ supply * rateSeconds :=
  Nat.div_mul_le_self _ _

/-! ### The two rates -/

theorem managementFeeShares_ok {rate : Amount} {elapsed : Timestamp} {supply management : Amount}
    (h : managementFeeShares rate elapsed supply = .ok management) :
    management.toNat = feesFor supply.toNat (rate.toNat * elapsed.toNat) := by
  unfold managementFeeShares at h
  simp only [Attempt.bind_eq_ok, checked_eq_ok, mulDiv_eq_ok] at h
  obtain ⟨rateTime, hrateTime, scale, hscale, _, hwhole⟩ := h
  rw [hwhole, hrateTime, hscale, Nat.mul_comm _ supply.toNat]
  rfl

/-- Nothing is owed at a rate of zero, nor for no time. -/
theorem managementFeeShares_nothing {rate : Amount} {elapsed : Timestamp}
    (h : rate.toNat * elapsed.toNat = 0) (supply : Amount) :
    managementFeeShares rate elapsed supply = .ok 0 := by
  unfold managementFeeShares
  simp only [Attempt.bind_eq_ok, checked_eq_ok, mulDiv_eq_ok]
  refine ⟨0, h.symm, .saturate 128 yearScale, ?_, ?_, ?_⟩
  · decide
  · decide
  · rw [Word.toNat_zero, Nat.zero_mul, Nat.zero_div]

/-- The two parts of what is owed for time make up the whole. -/
theorem splitManagement_parts {schedule : FeeSchedule} {elapsed : Timestamp}
    {supply strategy protocol : Amount}
    (h : splitManagement schedule elapsed supply = .ok (strategy, protocol)) :
    ∃ rate management, checkedAdd schedule.managementFee schedule.protocolFee = .ok rate ∧
      managementFeeShares rate elapsed supply = .ok management ∧
      strategy.toNat + protocol.toNat = management.toNat := by
  unfold splitManagement at h
  obtain ⟨rate, hrate, h⟩ := Attempt.bind_eq_ok.mp h
  split at h
  next hzero =>
    cases h
    rw [hzero] at hrate
    exact ⟨0, 0, hrate, managementFeeShares_nothing (Nat.zero_mul _) _, rfl⟩
  next hpos =>
    simp only [Attempt.bind_eq_ok, Attempt.pure_eq_ok] at h
    obtain ⟨management, hmanagement, part, hpart, hsplit⟩ := h
    cases hsplit
    refine ⟨rate, management, hrate, hmanagement, ?_⟩
    -- the strategy's rate is no more than both rates together
    have hrate_le : schedule.managementFee.toNat ≤ rate.toNat := by
      rw [checked_eq_ok.mp hrate]
      exact Nat.le_add_right _ _
    have hle : strategy.toNat ≤ management.toNat := by
      obtain ⟨_, hq⟩ := mulDiv_eq_ok.mp hpart
      rw [hq]
      exact part_le hrate_le _
    rw [Word.toNat_monus]
    omega

theorem splitManagement_ok {schedule : FeeSchedule} {elapsed : Timestamp}
    {supply strategy protocol : Amount}
    (h : splitManagement schedule elapsed supply = .ok (strategy, protocol)) :
    strategy.toNat + protocol.toNat =
      feesFor supply.toNat (schedule.timeRate * elapsed.toNat) := by
  obtain ⟨rate, management, hrate, hmanagement, hparts⟩ := splitManagement_parts h
  have hrate : rate.toNat = schedule.timeRate := checked_eq_ok.mp hrate
  rw [hparts, managementFeeShares_ok hmanagement, hrate]

/-! ### One charge -/

section Ledgers

variable {ledger charged : ShareLedger} {schedule : FeeSchedule}
  {lower existentials : List Amount} {appraise : List Amount → Except ValuationError Amount}
  {now : Timestamp} {fees : FeeCharge}

theorem Accrual.of_idle (h : Accrual.of ledger schedule lower existentials now = .ok .idle) :
    ledger.totalSupply = 0 := by
  rw [Accrual.of_not_skips (Accrual.not_skips h nofun)] at h
  split at h
  next hempty => exact hempty
  next =>
    obtain ⟨_, _, hdue⟩ := Attempt.bind_eq_ok.mp h
    cases hdue

theorem Accrual.of_due {strategy protocol : Amount}
    (h : Accrual.of ledger schedule lower existentials now = .ok (.due strategy protocol)) :
    splitManagement schedule (now.monus ledger.lastFeeCharge) ledger.totalSupply =
      .ok (strategy, protocol) := by
  rw [Accrual.of_not_skips (Accrual.not_skips h nofun)] at h
  split at h
  next => cases h
  next =>
    obtain ⟨_, hsplit, hdue⟩ := Attempt.bind_eq_ok.mp h
    cases hdue
    exact hsplit

/-- A charge that is skipped is for no shares. -/
theorem Charges.minted_of_skipped
    (h : Charges ledger schedule lower existentials appraise now fees charged)
    (hskipped : fees.skipped ≠ none) : fees.minted = 0 := by
  cases h with
  | skip accrual => rfl
  | idle accrual => exact (hskipped rfl).elim
  | due accrual assesses first second third => exact (hskipped assesses.owed_eq.2.2).elim

/-- A charge that is not skipped is for all the seconds since the last one, at the rates of its
schedule. -/
theorem Charges.time_fees
    (h : Charges ledger schedule lower existentials appraise now fees charged)
    (hskipped : fees.skipped = none) :
    fees.strategyMinted.toNat + fees.protocolMinted.toNat =
      feesFor ledger.totalSupply.toNat
        (schedule.timeRate * (now.toNat - ledger.lastFeeCharge.toNat)) := by
  cases h with
  | skip accrual => cases hskipped
  | idle accrual =>
    have hempty := Accrual.of_idle accrual
    simp only [hempty, Word.toNat_zero, feesFor, Nat.zero_mul, Nat.zero_div]
    rfl
  | due accrual assesses first second third =>
    obtain ⟨hstrategy, hprotocol, _⟩ := assesses.owed_eq
    rw [hstrategy, hprotocol]
    have hsplit := splitManagement_ok (Accrual.of_due accrual)
    rw [Word.toNat_monus] at hsplit
    exact hsplit

end Ledgers

end ShareVault
