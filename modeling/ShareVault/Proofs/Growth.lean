import ShareVault.Proofs.ChargeEffect

/-!
# What the performance fee is paid out of

The performance fee is a part of the growth above the high-water mark, floored three times: in the
price, in the shares that the growth is worth, and in the part of these that is owed.  The shares
that are minted for it lower the price again, but never below the mark that was paid for before.

* `valuePerShare` — the price of a share at a value of the holdings;
* `growthShares_mul_le`, `add_growthShares_mul_le` — the shares owed are worth no more than the
  growth;
* `le_valuePerShare_of_growth` — the price on all shares after the fee;
* `FeeCharge.Books.unchanged` — a charge without shares moves no shares;
* `performance_fee_out_of_growth` — the result;
* `performance_fee_out_of_growth_of_all` — a fee of all the growth.
-/

namespace ShareVault

/-! ### The price after the fee -/

/-- The value per share when the holdings have this value, in units of `priceScale` and floored. -/
def valuePerShare (value : Amount) (supply : Nat) : Nat :=
  value.toNat * priceScale.toNat / supply

section Prices

variable {value : Amount} {supply price mark rate : Nat}

/-- At a rate of no more than all of it, the shares owed are worth no more than the growth. -/
theorem growthShares_mul_le (hrate : rate ≤ feeDenominator.toNat) :
    growthShares supply price mark rate * mark ≤ supply * (price - mark) := by
  unfold growthShares
  split
  next hgrowth =>
    have hpart : supply * (price - mark) / mark * rate / feeDenominator.toNat ≤
        supply * (price - mark) / mark := part_le hrate _
    exact Nat.le_trans (Nat.mul_le_mul_right _ hpart) (Nat.div_mul_le_self _ _)
  next =>
    rw [Nat.zero_mul]
    exact Nat.zero_le _

/-- All shares after the fee, at the mark, are worth no more than those before it at the price. -/
theorem add_growthShares_mul_le (hrate : rate ≤ feeDenominator.toNat) (hgrowth : mark ≤ price) :
    (supply + growthShares supply price mark rate) * mark ≤ supply * price := by
  calc (supply + growthShares supply price mark rate) * mark
      = supply * mark + growthShares supply price mark rate * mark := Nat.add_mul _ _ _
    _ ≤ supply * mark + supply * (price - mark) := Nat.add_le_add_left (growthShares_mul_le hrate) _
    _ = supply * price := by rw [← Nat.mul_add, Nat.add_sub_cancel' hgrowth]

/-- A price above the mark is no lower than the mark on all shares after the fee. -/
theorem le_valuePerShare_of_growth (hsupply : 0 < supply) (hrate : rate ≤ feeDenominator.toNat)
    (hgrowth : mark ≤ valuePerShare value supply) :
    mark ≤ valuePerShare value
      (supply + growthShares supply (valuePerShare value supply) mark rate) := by
  refine (Nat.le_div_iff_mul_le (Nat.add_pos_left hsupply _)).mpr ?_
  rw [Nat.mul_comm]
  refine Nat.le_trans (add_growthShares_mul_le hrate hgrowth) ?_
  rw [Nat.mul_comm supply]
  exact Nat.div_mul_le_self _ _

end Prices

/-! ### Charges -/

section Ledgers

variable {ledger charged : ShareLedger} {schedule : FeeSchedule}
  {lower existentials : List Amount} {appraise : List Amount → Except ValuationError Amount}
  {now : Timestamp} {fees : FeeCharge}

/-- A charge without shares leaves the supply and every balance as they are. -/
theorem FeeCharge.Books.unchanged (h : fees.Books schedule now ledger charged)
    (hnothing : fees.minted = 0) :
    charged.totalSupply = ledger.totalSupply ∧ ∀ a, charged.balanceOf a = ledger.balanceOf a := by
  refine ⟨Word.ext ?_, fun a => Word.ext ?_⟩
  · rw [h.supply, hnothing, Nat.add_zero]
  · have hnone : fees.mintedFor schedule a = 0 := by
      obtain ⟨hstrategy, hprotocol, hperformance⟩ := FeeCharge.minted_eq_zero.mp hnothing
      simp only [FeeCharge.mintedFor, hstrategy, hprotocol, hperformance, Word.toNat_zero, ite_self]
    rw [h.balance a, hnone, Nat.add_zero]

/-- With a performance fee alone, at most all of the growth, a charge that is not skipped has seen a
value of the holdings.  If the price at this value is no higher than the mark, nothing is minted; if
it is higher, it is no lower than the mark at the supply after the charge either. -/
theorem performance_fee_out_of_growth
    (hcharge : chargeFees ledger schedule lower existentials appraise now = (.ok fees, charged))
    (hskipped : fees.skipped = none) (hsupply : ledger.totalSupply ≠ 0)
    (hmanagement : schedule.managementFee = 0) (hprotocol : schedule.protocolFee = 0)
    (hrate : schedule.performanceFee ≤ feeDenominator) :
    (schedule.performanceFee = 0 → fees.minted = 0) ∧
      (0 < schedule.performanceFee → ∃ value, appraise lower = .ok value ∧
        (valuePerShare value ledger.totalSupply.toNat ≤ ledger.highWaterMark.toNat →
          fees.minted = 0 ∧ charged.totalSupply = ledger.totalSupply ∧
            ∀ a, charged.balanceOf a = ledger.balanceOf a) ∧
        (ledger.highWaterMark.toNat < valuePerShare value ledger.totalSupply.toNat →
          ledger.highWaterMark.toNat ≤ valuePerShare value charged.totalSupply.toNat)) := by
  have hcharges := chargeFees_ok hcharge
  have hexact := hcharges.exact hskipped hsupply
  have huntimed : fees.strategyMinted = 0 ∧ fees.protocolMinted = 0 := by
    apply hexact.untimed
    simp only [FeeSchedule.timeRate, hmanagement, hprotocol, Word.toNat_zero, Nat.add_zero]
  -- so the performance fee is all there is
  have hminted : fees.minted = fees.performanceMinted.toNat := by
    simp only [FeeCharge.minted, huntimed, Word.toNat_zero, Nat.zero_add]
  refine ⟨fun hfree => ?_, fun hfee => ?_⟩
  · rw [hminted, (hexact.unpriced hfree).1, Word.toNat_zero]
  obtain ⟨value, hvalue, hprice, hgrowth, _⟩ := hexact.priced hfee
  have hprice : fees.pricePerShare.toNat = valuePerShare value ledger.totalSupply.toNat := hprice
  rw [← hminted, hprice] at hgrowth
  refine ⟨value, hvalue, fun hlow => ?_, fun hhigh => ?_⟩
  · have hnothing : fees.minted = 0 := by
      rw [hgrowth, growthShares, if_neg]
      exact fun hgrown => Nat.not_lt.mpr hlow hgrown.2
    exact ⟨hnothing, hcharges.books.unchanged hnothing⟩
  · rw [hcharges.books.supply, hgrowth]
    refine le_valuePerShare_of_growth (Nat.pos_of_ne_zero ?_) hrate (Nat.le_of_lt hhigh)
    exact fun hzero => hsupply (Word.ext hzero)

end Ledgers

namespace SmallVault

/-- All of every growth goes to a treasury. -/
def growthOnly : FeeSchedule :=
  { schedule with
    managementFee := 0
    performanceFee := feeDenominator }

/-- The charge on a thousand shares at par, when the holdings are worth so much. -/
def growthCharge (worth : Nat) : Except VaultError FeeCharge × ShareLedger :=
  chargeFees atPar growthOnly [.saturate 128 worth] [.saturate 128 10]
    (fun _ => .ok (.saturate 128 worth)) (.saturate 64 secondsPerYear)

end SmallVault

open SmallVault in
/-- Of a growth by almost a unit per share the treasury gets all, and the price is back at the
mark. -/
theorem performance_fee_out_of_growth_of_all :
    ∃ fees charged, growthCharge 1999 = (.ok fees, charged) ∧ fees.skipped = none ∧
      atPar.totalSupply ≠ 0 ∧ growthOnly.managementFee = 0 ∧ growthOnly.protocolFee = 0 ∧
      growthOnly.performanceFee ≤ feeDenominator ∧ fees.minted = 999 ∧
      atPar.highWaterMark.toNat < valuePerShare (.saturate 128 1999) atPar.totalSupply.toNat ∧
      atPar.highWaterMark.toNat ≤ valuePerShare (.saturate 128 1999) charged.totalSupply.toNat ∧
      valuePerShare (.saturate 128 1999) charged.totalSupply.toNat = priceScale.toNat := by
  have hsupply : atPar.totalSupply ≠ 0 := by decide
  have hrate : growthOnly.performanceFee ≤ feeDenominator := Nat.le_refl _
  have hgrown : atPar.highWaterMark.toNat <
      valuePerShare (.saturate 128 1999) atPar.totalSupply.toNat := by
    decide
  obtain ⟨_, hpriced⟩ := performance_fee_out_of_growth (rfl : growthCharge 1999 = (.ok _, _))
    (by decide +kernel) hsupply rfl rfl hrate
  obtain ⟨value, hvalue, _, hkept⟩ := hpriced (by decide)
  cases hvalue
  exact ⟨_, _, rfl, by decide +kernel, hsupply, rfl, rfl, hrate, by decide +kernel, hgrown,
    hkept hgrown, by decide +kernel⟩

end ShareVault
