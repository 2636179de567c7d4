import ShareVault.Proofs.OwedForTime

/-!
# What a charge comes to

The shares of a charge are floored quotients of the supply before it, of the rates, of the seconds
since the last charge and of the value per share.  None of them is computed on what the charge has
minted already, so the three treasuries get what the formulas say, whichever of them coincide.

* `splitManagement_strategy` — the strategy's part of what is owed for time;
* `growthShares`, `performanceFeeShares_ok` — what is owed for a growth of the value per share;
* `FeeCharge.Exact`, `Charges.exact` — the shares, the price and the mark of a charge;
* `FeeCharge.Books.total_eq` — the total of a charge never reaches the largest amount;
* `charge_has_exact_effect` — the result;
* `charge_has_exact_effect_shared_treasury` — a charge whose treasuries are a holder and one account
  for two.
-/

namespace ShareVault

/-! ### The formulas -/

/-- The strategy gets its share of the rate, floored. -/
theorem splitManagement_strategy {schedule : FeeSchedule} {elapsed : Timestamp}
    {supply strategy protocol : Amount}
    (h : splitManagement schedule elapsed supply = .ok (strategy, protocol)) :
    strategy.toNat = feesFor supply.toNat (schedule.timeRate * elapsed.toNat) *
      schedule.managementFee.toNat / schedule.timeRate := by
  unfold splitManagement at h
  obtain ⟨rate, hrate, h⟩ := Attempt.bind_eq_ok.mp h
  have hrate : rate.toNat = schedule.timeRate := checked_eq_ok.mp hrate
  split at h
  next hzero =>
    cases h
    have hnone : schedule.timeRate = 0 := by rw [← hrate, hzero, Word.toNat_zero]
    rw [hnone, Nat.div_zero, Word.toNat_zero]
  next hpos =>
    simp only [Attempt.bind_eq_ok, Attempt.pure_eq_ok] at h
    obtain ⟨management, hmanagement, part, hpart, hsplit⟩ := h
    cases hsplit
    obtain ⟨_, hfloor⟩ := mulDiv_eq_ok.mp hpart
    rw [hfloor, managementFeeShares_ok hmanagement, hrate]

/-- The shares owed for a growth of the value per share above the mark, at a rate: floored twice,
and none without a mark or a growth. -/
def growthShares (supply price mark rate : Nat) : Nat :=
  if 0 < mark ∧ mark < price then
    supply * (price - mark) / mark * rate / feeDenominator.toNat
  else 0

theorem performanceFeeShares_ok {supply price mark rate minted : Amount}
    (h : performanceFeeShares supply price mark rate = .ok minted) :
    minted.toNat = growthShares supply.toNat price.toNat mark.toNat rate.toNat := by
  unfold performanceFeeShares at h
  split at h
  next hgrowth =>
    have hmark : 0 < mark.toNat := by
      refine Nat.pos_of_ne_zero fun hzero => hgrowth.2 ?_
      exact Word.ext hzero
    simp only [Attempt.bind_eq_ok, mulDiv_eq_ok] at h
    obtain ⟨growth, ⟨_, hquotient⟩, _, hminted⟩ := h
    rw [hminted, hquotient, Word.toNat_sub, growthShares, if_pos ⟨hmark, hgrowth.1⟩]
  next hnone =>
    cases h
    have hnone : ¬ (0 < mark.toNat ∧ mark.toNat < price.toNat) := by
      rintro ⟨hmark, hlt⟩
      refine hnone ⟨hlt, ?_⟩
      rintro rfl
      exact absurd hmark (by simp)
    rw [growthShares, if_neg hnone, Word.toNat_zero]

/-! ### The shares of a charge -/

/-- The shares, the price and the mark of a charge on a ledger, in exact numbers.  All of them are
computed on the supply before the charge. -/
structure FeeCharge.Exact (c : FeeCharge) (ledger : ShareLedger) (schedule : FeeSchedule)
    (value : Except ValuationError Amount) (now : Timestamp) : Prop where
  /-- What is owed for the time since the last charge goes to the strategy by its part of the
  rate. -/
  strategy : c.strategyMinted.toNat =
    feesFor ledger.totalSupply.toNat
        (schedule.timeRate * (now.toNat - ledger.lastFeeCharge.toNat)) *
      schedule.managementFee.toNat / schedule.timeRate
  /-- The protocol has the rest of it. -/
  protocol : c.protocolMinted.toNat =
    feesFor ledger.totalSupply.toNat
        (schedule.timeRate * (now.toNat - ledger.lastFeeCharge.toNat)) -
      c.strategyMinted.toNat
  untimed : schedule.timeRate = 0 → c.strategyMinted = 0 ∧ c.protocolMinted = 0
  /-- With a performance fee the holdings are priced, and the mark is raised to the price. -/
  priced : 0 < schedule.performanceFee → ∃ worth, value = .ok worth ∧
    c.pricePerShare.toNat = worth.toNat * priceScale.toNat / ledger.totalSupply.toNat ∧
    c.performanceMinted.toNat = growthShares ledger.totalSupply.toNat c.pricePerShare.toNat
      ledger.highWaterMark.toNat schedule.performanceFee.toNat ∧
    c.highWaterMark.toNat = max ledger.highWaterMark.toNat c.pricePerShare.toNat
  /-- Without one the mark is left alone. -/
  unpriced : schedule.performanceFee = 0 → c.performanceMinted = 0 ∧ c.pricePerShare = 0 ∧
    c.highWaterMark = ledger.highWaterMark

section Ledgers

variable {ledger charged raised : ShareLedger} {schedule : FeeSchedule}
  {lower existentials : List Amount} {appraise : List Amount → Except ValuationError Amount}
  {now : Timestamp} {owed fees : FeeCharge}

namespace Assesses

theorem fees_at_price (h : Assesses ledger schedule lower appraise owed fees raised)
    (hrate : 0 < schedule.performanceFee) :
    ∃ worth, appraise lower = .ok worth ∧
      fees.pricePerShare.toNat = worth.toNat * priceScale.toNat / ledger.totalSupply.toNat ∧
      fees.performanceMinted.toNat = growthShares ledger.totalSupply.toNat
        fees.pricePerShare.toNat ledger.highWaterMark.toNat schedule.performanceFee.toNat ∧
      fees.highWaterMark.toNat = max ledger.highWaterMark.toNat fees.pricePerShare.toNat := by
  cases h with
  | free rate => exact (rate hrate).elim
  | @priced worth price minted rate appraised perShare growth =>
    obtain ⟨_, hprice⟩ := mulDiv_eq_ok.mp perShare
    exact ⟨worth, appraised, hprice, performanceFeeShares_ok growth, Word.toNat_max _ _⟩

theorem fees_of_free (h : Assesses ledger schedule lower appraise owed fees raised)
    (hrate : schedule.performanceFee = 0) : fees = owed := by
  cases h with
  | free rate => rfl
  | priced rate appraised perShare growth =>
    rw [hrate] at rate
    exact absurd rate (by decide)

end Assesses

/-- A charge that is not skipped comes to what the formulas say. -/
theorem Charges.exact
    (h : Charges ledger schedule lower existentials appraise now fees charged)
    (hskipped : fees.skipped = none) (hsupply : ledger.totalSupply ≠ 0) :
    fees.Exact ledger schedule (appraise lower) now := by
  cases h with
  | skip accrual => cases hskipped
  | idle accrual => exact (hsupply (Accrual.of_idle accrual)).elim
  | @due strategy protocol fees raised l₁ l₂ l₃ accrual assesses first second third =>
    obtain ⟨hstrategy, hprotocol, _⟩ := assesses.owed_eq
    have hsplit := Accrual.of_due accrual
    have hwhole := splitManagement_ok hsplit
    have hpart := splitManagement_strategy hsplit
    rw [Word.toNat_monus] at hwhole hpart
    refine ⟨?_, ?_, fun hfree => ?_, assesses.fees_at_price, fun hrate => ?_⟩
    · rw [hstrategy]
      exact hpart
    · rw [hstrategy, hprotocol, ← hwhole]
      rw [Nat.add_sub_cancel_left]
    · have hnothing : strategy.toNat + protocol.toNat = 0 := by
        rw [hwhole, hfree, Nat.zero_mul, feesFor, Nat.mul_zero, Nat.zero_div]
      rw [hstrategy, hprotocol]
      exact ⟨Word.ext (by simp only [Word.toNat_zero]; omega),
        Word.ext (by simp only [Word.toNat_zero]; omega)⟩
    · rw [assesses.fees_of_free hrate]
      exact ⟨rfl, rfl, rfl⟩

/-- The supply after a charge is an amount, so the charge's own sums do not saturate. -/
theorem FeeCharge.Books.total_eq (h : fees.Books schedule now ledger charged) :
    fees.management.toNat = fees.strategyMinted.toNat + fees.protocolMinted.toNat ∧
      fees.total.toNat = fees.minted := by
  have hsupply := h.supply
  have hlt := charged.totalSupply.lt
  have hmanagement : fees.management.toNat =
      fees.strategyMinted.toNat + fees.protocolMinted.toNat := by
    show (fees.strategyMinted.addSat fees.protocolMinted).toNat = _
    rw [Word.toNat_addSat]
    unfold FeeCharge.minted at hsupply
    omega
  refine ⟨hmanagement, ?_⟩
  show (fees.management.addSat fees.performanceMinted).toNat = _
  rw [Word.toNat_addSat, hmanagement]
  unfold FeeCharge.minted at hsupply ⊢
  omega

/-- A charge on a ledger with shares, if it succeeds, leaves the ledger as it was when it is
skipped.  Else it comes to what the formulas say, computed on the supply before it: every account
gets the shares of those treasuries that it is, no other balance changes, the supply grows by the
total of the charge, and fees are charged up to now. -/
theorem charge_has_exact_effect
    (hcharge : chargeFees ledger schedule lower existentials appraise now = (.ok fees, charged))
    (hsupply : ledger.totalSupply ≠ 0) :
    (fees.skipped ≠ none → charged = ledger) ∧
      (fees.skipped = none →
        fees.Exact ledger schedule (appraise lower) now ∧
        (∀ a, (charged.balanceOf a).toNat =
          (ledger.balanceOf a).toNat + fees.mintedFor schedule a) ∧
        charged.totalSupply.toNat = ledger.totalSupply.toNat + fees.total.toNat ∧
        fees.management.toNat = fees.strategyMinted.toNat + fees.protocolMinted.toNat ∧
        fees.total.toNat = fees.minted ∧
        charged.highWaterMark = fees.highWaterMark ∧
        charged.lastFeeCharge = max now ledger.lastFeeCharge) := by
  have hcharges := chargeFees_ok hcharge
  have hbooks := hcharges.books
  constructor
  · intro hskipped
    have hskips : Accrual.Skips ledger schedule lower existentials now := by
      refine Classical.byContradiction fun hnever => ?_
      exact hskipped (hcharges.skipped_eq_none.mpr hnever)
    exact hcharges.eq_of_skips hskips
  · intro hskipped
    obtain ⟨hmanagement, htotal⟩ := hbooks.total_eq
    refine ⟨hcharges.exact hskipped hsupply, hbooks.balance, ?_, hmanagement, htotal, hbooks.mark,
      ?_⟩
    · rw [htotal, hbooks.supply]
    · rw [hbooks.time, if_pos hskipped]

end Ledgers

/-! ### Two treasuries that are one account, and one that is a holder -/

namespace SmallVault

/-- The strategy and the protocol share a treasury, and Alice gets half of every growth. -/
def sharedTreasuries : FeeSchedule :=
  { schedule with
    protocolFee := .saturate 128 50000000
    performanceFee := .saturate 128 500000000
    protocolTreasury := "strategy"
    performanceTreasury := "alice" }

/-- Alice has a thousand shares, and was charged at a unit per share. -/
def atPar : ShareLedger where
  totalSupply := .saturate 128 1000
  balances := .ofList [("alice", .saturate 128 1000)]
  highWaterMark := priceScale
  lastFeeCharge := 0

/-- The charge of a year, in which a thousand units have become so many. -/
def yearlyCharge (worth : Nat) : Except VaultError FeeCharge × ShareLedger :=
  chargeFees atPar sharedTreasuries [.saturate 128 worth] [.saturate 128 10]
    (fun _ => .ok (.saturate 128 worth)) (.saturate 64 secondsPerYear)

end SmallVault

open SmallVault in
/-- The common treasury gets a hundred and fifty shares for the year.  The price has doubled on the
shares before these, and Alice gets half of the growth. -/
theorem charge_has_exact_effect_shared_treasury :
    ∃ fees charged, yearlyCharge 2000 = (.ok fees, charged) ∧ atPar.totalSupply ≠ 0 ∧
      fees.skipped = none ∧
      fees.Exact atPar sharedTreasuries (.ok (.saturate 128 2000)) (.saturate 64 secondsPerYear) ∧
      (charged.balanceOf "strategy").toNat = 150 ∧
      (charged.balanceOf "alice").toNat = 1500 ∧
      charged.totalSupply.toNat = 1000 + fees.total.toNat ∧
      fees.total.toNat = 650 := by
  have hsupply : atPar.totalSupply ≠ 0 := by decide
  have heffect := charge_has_exact_effect (rfl : yearlyCharge 2000 = (.ok _, _)) hsupply
  obtain ⟨hexact, _, hgrown, _⟩ := heffect.2 (by decide +kernel)
  exact ⟨_, _, rfl, hsupply, by decide +kernel, hexact, by decide +kernel, by decide +kernel, hgrown,
    by decide +kernel⟩

end ShareVault
