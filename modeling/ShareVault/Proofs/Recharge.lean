import ShareVault.Proofs.ChargeEffect

/-!
# Charging again

A charge brings a ledger up to date: fees are charged up to now, and the mark is no lower than the
price.  So a second charge at the same time comes to nothing, although it sees more shares, a higher
mark and a later fee time than the first.

Charges at several times in turn are floored one by one, and each is on the shares of those before
it.  Against one charge for the whole time, every charge but the first loses less than a share to
the flooring, and the supply grows no faster than by compounding at the rate.

* `ShareLedger.UpToDate` — no fees are left to charge;
* `Charges.upToDate`, `ShareLedger.UpToDate.charges` — a charge leaves a ledger so, and leaves such
  a ledger alone;
* `charging_again_changes_nothing` — the first result;
* `chargeInTurn`, `mintedInAll`, `growthOver` — charges at several times, their shares, and what
  they may grow a supply to;
* `FeeSchedule.TimeOnly`, `Charges.forTime` — one charge for time alone;
* `add_feesFor_mul_le` — the growth of one charge;
* `minted_at_once_le`, `supply_le_growthOver` — those of several charges, by induction;
* `charging_in_turn_is_bounded` — the second result.
-/

namespace ShareVault

section Again

variable {ledger charged : ShareLedger} {schedule : FeeSchedule}
  {lower existentials : List Amount} {appraise : List Amount → Except ValuationError Amount}
  {now : Timestamp} {fees : FeeCharge}

/-! ### Nothing to charge -/

/-- The quotient by a larger divisor is no larger, and there is one. -/
theorem mulDiv_of_divisor_le {a b d d' q : Amount} (h : mulDiv a b d = .ok q) (hle : d ≤ d') :
    ∃ q', mulDiv a b d' = .ok q' ∧ q' ≤ q := by
  obtain ⟨hd, hq⟩ := mulDiv_eq_ok.mp h
  have hle := Word.le_def.mp hle
  have hpos : 0 < d.toNat := by
    refine Nat.pos_of_ne_zero ?_
    intro hzero
    exact hd (Word.ext hzero)
  have hd' : d' ≠ 0 := by
    intro hzero
    rw [hzero, Word.toNat_zero] at hle
    omega
  apply exists_mulDiv hd'
  rw [hq]
  exact Nat.div_le_div_left hle hpos

theorem performanceFeeShares_of_le {supply price mark rate : Amount} (h : price ≤ mark) :
    performanceFeeShares supply price mark rate = .ok 0 := by
  have hnone : ¬ (mark < price ∧ mark ≠ 0) := by
    intro hgrowth
    exact Nat.not_lt.mpr h hgrowth.1
  simp only [performanceFeeShares, dif_neg hnone]

/-- Nothing is owed for no time, if the rates have a sum. -/
theorem splitManagement_no_time {rate : Amount}
    (hrate : checkedAdd schedule.managementFee schedule.protocolFee = .ok rate)
    (supply : Amount) : splitManagement schedule 0 supply = .ok (0, 0) := by
  simp only [splitManagement, hrate]
  by_cases hzero : rate = 0
  · exact if_pos hzero
  · have hpart : mulDiv 0 schedule.managementFee rate = .ok 0 := by
      refine mulDiv_eq_ok.mpr ⟨hzero, ?_⟩
      simp only [Word.toNat_zero, Nat.zero_mul, Nat.zero_div]
    have hwhole : managementFeeShares rate 0 supply = .ok 0 :=
      managementFeeShares_nothing (Nat.mul_zero _) supply
    refine (if_neg hzero).trans ?_
    simp only [hwhole, Attempt.bind_eq_ok]
    exact ⟨0, rfl, 0, hpart, rfl⟩

namespace ShareLedger

theorem raiseMark_of_le {price : Amount} (h : price ≤ ledger.highWaterMark) :
    ledger.raiseMark price = ledger := by
  have hmark : max ledger.highWaterMark price = ledger.highWaterMark := by
    apply Word.ext
    rw [Word.toNat_max]
    exact Nat.max_eq_left h
  simp only [raiseMark, hmark]

theorem recordCharge_of_le (h : now ≤ ledger.lastFeeCharge) :
    ledger.recordCharge (max now ledger.lastFeeCharge) = ledger := by
  have htime : max now ledger.lastFeeCharge = ledger.lastFeeCharge := by
    apply Word.ext
    rw [Word.toNat_max]
    exact Nat.max_eq_right h
  simp only [recordCharge, htime]

/-- No fees are left to charge: they are charged up to now, and the price is no higher than the
mark.  Without shares there is no price. -/
structure UpToDate (ledger : ShareLedger) (schedule : FeeSchedule) (lower : List Amount)
    (appraise : List Amount → Except ValuationError Amount) (now : Timestamp) : Prop where
  time : now ≤ ledger.lastFeeCharge
  rates : ledger.totalSupply ≠ 0 →
    ∃ rate, checkedAdd schedule.managementFee schedule.protocolFee = .ok rate
  price : ledger.totalSupply ≠ 0 → 0 < schedule.performanceFee →
    ∃ value price, appraise lower = .ok value ∧
      mulDiv value priceScale ledger.totalSupply = .ok price ∧ price ≤ ledger.highWaterMark

end ShareLedger

/-- A charge that is not skipped leaves nothing to charge. -/
theorem Charges.upToDate
    (h : Charges ledger schedule lower existentials appraise now fees charged)
    (hskipped : fees.skipped = none) :
    charged.UpToDate schedule lower appraise now := by
  have hbooks := h.books
  have htime : now ≤ charged.lastFeeCharge := by
    rw [hbooks.time, if_pos hskipped, Word.le_def, Word.toNat_max]
    exact Nat.le_max_left _ _
  have hsupply : ledger.totalSupply ≤ charged.totalSupply := h.supply_le
  cases h with
  | skip accrual => cases hskipped
  | idle accrual =>
    have hempty := Accrual.of_idle accrual
    exact ⟨htime, fun hshares => (hshares hempty).elim, fun hshares => (hshares hempty).elim⟩
  | due accrual assesses first second third =>
    refine ⟨htime, ?_, ?_⟩
    · intro _
      obtain ⟨rate, _, hrate, _⟩ := splitManagement_parts (Accrual.of_due accrual)
      exact ⟨rate, hrate⟩
    · intro _ hfee
      cases assesses with
      | free rate => exact (rate hfee).elim
      | priced rate appraised perShare growth =>
        -- there are more shares now, so the price is no higher than the one that was charged at
        obtain ⟨price, hprice, hlower⟩ := mulDiv_of_divisor_le perShare hsupply
        refine ⟨_, price, appraised, hprice, ?_⟩
        rw [hbooks.mark]
        refine Nat.le_trans hlower ?_
        show _ ≤ (max ledger.highWaterMark _).toNat
        rw [Word.toNat_max]
        exact Nat.le_max_right _ _

namespace ShareLedger.UpToDate

/-- Nothing is owed for time. -/
theorem due (h : ledger.UpToDate schedule lower appraise now) (hshares : ledger.totalSupply ≠ 0)
    (hskips : ¬ Accrual.Skips ledger schedule lower existentials now) :
    Accrual.of ledger schedule lower existentials now = .ok (.due 0 0) := by
  obtain ⟨rate, hrate⟩ := h.rates hshares
  have helapsed : now.monus ledger.lastFeeCharge = 0 := by
    apply Word.ext
    rw [Word.toNat_monus, Word.toNat_zero]
    exact Nat.sub_eq_zero_of_le h.time
  rw [Accrual.of_not_skips hskips, if_neg hshares, helapsed, splitManagement_no_time hrate]
  rfl

/-- The performance fee finds no growth. -/
theorem assesses (h : ledger.UpToDate schedule lower appraise now)
    (hshares : ledger.totalSupply ≠ 0) :
    ∃ again, Assesses ledger schedule lower appraise (.nothing ledger.highWaterMark none) again
      ledger ∧ again.minted = 0 := by
  by_cases hfee : 0 < schedule.performanceFee
  · obtain ⟨value, price, hvalue, hprice, hle⟩ := h.price hshares hfee
    have hpriced : Assesses ledger schedule lower appraise (.nothing ledger.highWaterMark none)
        _ _ := .priced hfee hvalue hprice (performanceFeeShares_of_le hle)
    rw [raiseMark_of_le hle] at hpriced
    exact ⟨_, hpriced, rfl⟩
  · exact ⟨_, .free hfee, rfl⟩

/-- A charge on a ledger that is up to date leaves it alone. -/
theorem charges (h : ledger.UpToDate schedule lower appraise now) :
    ∃ again, Charges ledger schedule lower existentials appraise now again ledger ∧
      again.minted = 0 := by
  have hrecord := recordCharge_of_le h.time
  by_cases hskips : Accrual.Skips ledger schedule lower existentials now
  · obtain ⟨reason, hskip⟩ := Accrual.of_skips hskips
    exact ⟨_, .skip hskip, rfl⟩
  by_cases hempty : ledger.totalSupply = 0
  · refine ⟨.nothing ledger.highWaterMark none, ?_, rfl⟩
    have hidle : Charges ledger schedule lower existentials appraise now _ _ :=
      .idle ((Accrual.of_not_skips hskips).trans (if_pos hempty))
    rw [hrecord] at hidle
    exact hidle
  obtain ⟨again, hassesses, hminted⟩ := h.assesses hempty
  obtain ⟨hstrategy, hprotocol, hperformance⟩ := FeeCharge.minted_eq_zero.mp hminted
  have hmint (treasury : Account) {amount : Amount} (hzero : amount = 0) :
      ledger.mint treasury amount = .ok ledger := by
    rw [hzero]
    exact ledger.mint_zero treasury
  have hcharges := Charges.due (h.due hempty hskips) hassesses (hmint _ hstrategy)
    (hmint _ hprotocol) (hmint _ hperformance)
  rw [hrecord] at hcharges
  exact ⟨again, hcharges, hminted⟩

end ShareLedger.UpToDate

/-- A charge that succeeds can be made again at the same time.  It mints nothing for any treasury
then, and leaves the ledger just as it is. -/
theorem charging_again_changes_nothing
    (h : chargeFees ledger schedule lower existentials appraise now = (.ok fees, charged)) :
    ∃ again, chargeFees charged schedule lower existentials appraise now = (.ok again, charged) ∧
      again.strategyMinted = 0 ∧ again.protocolMinted = 0 ∧ again.performanceMinted = 0 := by
  have hcharges := chargeFees_ok h
  have hagain : ∃ again, Charges charged schedule lower existentials appraise now again charged ∧
      again.minted = 0 := by
    cases hskipped : fees.skipped with
    | none => exact (hcharges.upToDate hskipped).charges
    | some reason =>
      cases hcharges with
      | skip accrual => exact ⟨_, .skip accrual, rfl⟩
      | idle accrual => cases hskipped
      | due accrual assesses first second third =>
        rw [assesses.owed_eq.2.2] at hskipped
        cases hskipped
  obtain ⟨again, hcharges, hminted⟩ := hagain
  exact ⟨again, hcharges.chargeFees_eq, FeeCharge.minted_eq_zero.mp hminted⟩

end Again

open SmallVault in
/-- Of the year that has doubled the price, Alice and the common treasury get their shares once. -/
theorem charging_again_after_a_year :
    ∃ fees charged again, yearlyCharge 2000 = (.ok fees, charged) ∧ fees.total.toNat = 650 ∧
      chargeFees charged sharedTreasuries [.saturate 128 2000] [.saturate 128 10]
        (fun _ => .ok (.saturate 128 2000)) (.saturate 64 secondsPerYear) = (.ok again, charged) ∧
      again.strategyMinted = 0 ∧ again.protocolMinted = 0 ∧ again.performanceMinted = 0 := by
  obtain ⟨again, hagain⟩ := charging_again_changes_nothing (rfl : yearlyCharge 2000 = (.ok _, _))
  exact ⟨_, _, again, rfl, by decide +kernel, hagain⟩

section InTurn

variable {ledger charged : ShareLedger} {schedule : FeeSchedule}
  {lower existentials : List Amount} {appraise : List Amount → Except ValuationError Amount}
  {now : Timestamp} {fees : FeeCharge}

/-! ### One charge for time -/

/-- The flooring never favours the treasuries. -/
theorem add_feesFor_mul_le (supply rateSeconds : Nat) :
    (supply + feesFor supply rateSeconds) * yearScale ≤ supply * (yearScale + rateSeconds) := by
  rw [Nat.add_mul, Nat.mul_add]
  exact Nat.add_le_add_left (feesFor_mul_le supply rateSeconds) _

/-- A schedule and holdings for which every charge is for time alone, and none is skipped: there is
no performance fee, no charge comes too soon, and the holdings are more than dust. -/
structure FeeSchedule.TimeOnly (s : FeeSchedule) (lower existentials : List Amount) : Prop where
  performance : s.performanceFee = 0
  throttle : s.feeChargeThrottle = 0
  material : allDust lower existentials = false

/-- What a charge for time alone does to a ledger. -/
structure FeeCharge.ForTime (c : FeeCharge) (schedule : FeeSchedule) (now : Timestamp)
    (ledger charged : ShareLedger) : Prop where
  minted : c.minted = feesFor ledger.totalSupply.toNat
    (schedule.timeRate * (now.toNat - ledger.lastFeeCharge.toNat))
  supply : charged.totalSupply.toNat = ledger.totalSupply.toNat + c.minted
  time : ledger.lastFeeCharge ≤ now → charged.lastFeeCharge = now

theorem Charges.performanceMinted_eq
    (h : Charges ledger schedule lower existentials appraise now fees charged)
    (hrate : schedule.performanceFee = 0) : fees.performanceMinted = 0 := by
  cases h with
  | skip accrual => rfl
  | idle accrual => rfl
  | due accrual assesses first second third =>
    rw [assesses.fees_of_free hrate]
    rfl

/-- Such a charge is for all the seconds since the last one. -/
theorem Charges.forTime
    (h : Charges ledger schedule lower existentials appraise now fees charged)
    (htime : schedule.TimeOnly lower existentials) :
    fees.ForTime schedule now ledger charged := by
  have hskips : ¬ Accrual.Skips ledger schedule lower existentials now := by
    intro hskips
    cases hskips with
    | inl hsoon =>
      rw [htime.throttle] at hsoon
      exact Nat.not_lt_zero _ hsoon
    | inr hdust =>
      rw [htime.material] at hdust
      cases hdust
  have hskipped := h.skipped_eq_none.mpr hskips
  refine ⟨?_, h.books.supply, ?_⟩
  · have hfees := h.time_fees hskipped
    simp only [FeeCharge.minted, h.performanceMinted_eq htime.performance, Word.toNat_zero]
    omega
  · intro hlater
    apply Word.ext
    rw [h.lastFeeCharge_eq hskips, Word.toNat_max]
    exact Nat.max_eq_left hlater

/-! ### Charges in turn -/

/-- Charges at several times, each on the ledger that the one before it leaves, with the ledger that
the last one leaves.  The first that fails ends it. -/
def chargeInTurn (schedule : FeeSchedule) (lower existentials : List Amount)
    (appraise : List Amount → Except ValuationError Amount) :
    ShareLedger → List Timestamp → Except VaultError (List FeeCharge × ShareLedger)
  | ledger, [] => .ok ([], ledger)
  | ledger, now :: later => do
    let (outcome, charged) := chargeFees ledger schedule lower existentials appraise now
    let fees ← outcome
    let (rest, final) ← chargeInTurn schedule lower existentials appraise charged later
    return (fees :: rest, final)

/-- The shares of several charges. -/
def mintedInAll : List FeeCharge → Nat
  | [] => 0
  | c :: rest => c.minted + mintedInAll rest

/-- What compounding at a rate makes of a share in the spans between some times, as a numerator over
one year scale for each span. -/
def growthOver (rate : Nat) : Nat → List Timestamp → Nat
  | _, [] => 1
  | since, now :: later =>
    (yearScale + rate * (now.toNat - since)) * growthOver rate now.toNat later

variable {times : List Timestamp} {charges : List FeeCharge} {final : ShareLedger}

theorem chargeInTurn_cons_ok {later : List Timestamp}
    (h : chargeInTurn schedule lower existentials appraise ledger (now :: later) =
      .ok (charges, final)) :
    ∃ fees charged rest, Charges ledger schedule lower existentials appraise now fees charged ∧
      chargeInTurn schedule lower existentials appraise charged later = .ok (rest, final) ∧
      charges = fees :: rest := by
  simp only [chargeInTurn, Attempt.bind_eq_ok, Attempt.pure_eq_ok] at h
  obtain ⟨fees, hfees, ⟨rest, final'⟩, hrest, heq⟩ := h
  obtain ⟨rfl, rfl⟩ := Prod.mk.inj heq
  exact ⟨fees, _, rest, chargeFees_ok (Prod.ext hfees rfl), hrest, rfl⟩

/-- The supply grows by the shares of all charges. -/
theorem supply_of_chargeInTurn
    (h : chargeInTurn schedule lower existentials appraise ledger times = .ok (charges, final)) :
    final.totalSupply.toNat = ledger.totalSupply.toNat + mintedInAll charges := by
  induction times generalizing ledger charges with
  | nil =>
    cases h
    rfl
  | cons now later ih =>
    obtain ⟨fees, charged, rest, hcharges, hrest, rfl⟩ := chargeInTurn_cons_ok h
    have hfirst := hcharges.books.supply
    have hlater := ih hrest
    simp only [mintedInAll]
    omega

/-- One charge for the whole time mints no more than the charges in turn, but for less than a share
for each of these after the first. -/
theorem minted_at_once_le {last : Timestamp} (htime : schedule.TimeOnly lower existentials)
    (hlast : times.getLast? = some last)
    (hforward : (ledger.lastFeeCharge :: times).Pairwise (· ≤ ·))
    (h : chargeInTurn schedule lower existentials appraise ledger times = .ok (charges, final)) :
    feesFor ledger.totalSupply.toNat
        (schedule.timeRate * (last.toNat - ledger.lastFeeCharge.toNat)) ≤
      mintedInAll charges + (times.length - 1) := by
  -- by induction on the times: the first charge leaves a ledger with no fewer shares
  induction times generalizing ledger charges with
  | nil => cases hlast
  | cons now later ih =>
    obtain ⟨fees, charged, rest, hcharges, hrest, rfl⟩ := chargeInTurn_cons_ok h
    obtain ⟨hfirst, hrest_forward⟩ := List.pairwise_cons.mp hforward
    have hfees := hcharges.forTime htime
    have hnow : ledger.lastFeeCharge ≤ now := hfirst now List.mem_cons_self
    cases later with
    | nil =>
      obtain rfl : now = last := Option.some.inj hlast
      simp only [mintedInAll, hfees.minted]
      omega
    | cons next others =>
      rw [List.getLast?_cons_cons] at hlast
      have hlater := ih hlast (by rw [hfees.time hnow]; exact hrest_forward) hrest
      rw [hfees.time hnow] at hlater
      have hlast_mem : last ∈ next :: others := List.mem_of_getLast? hlast
      have hspan : last.toNat - ledger.lastFeeCharge.toNat =
          now.toNat - ledger.lastFeeCharge.toNat + (last.toNat - now.toNat) := by
        have hmiddle := Word.le_def.mp ((List.pairwise_cons.mp hrest_forward).1 last hlast_mem)
        have hnow := Word.le_def.mp hnow
        omega
      have hmore : ledger.totalSupply.toNat ≤ charged.totalSupply.toNat := hcharges.supply_le
      have hsplit := feesFor_add_le ledger.totalSupply.toNat
        (schedule.timeRate * (now.toNat - ledger.lastFeeCharge.toNat))
        (schedule.timeRate * (last.toNat - now.toNat))
      have hrest_le := feesFor_supply_le hmore (schedule.timeRate * (last.toNat - now.toNat))
      rw [hspan, Nat.mul_add]
      simp only [mintedInAll, hfees.minted, List.length_cons] at hlater ⊢
      omega

/-- The supply grows no faster than by compounding at the rate. -/
theorem supply_le_growthOver (htime : schedule.TimeOnly lower existentials)
    (hforward : (ledger.lastFeeCharge :: times).Pairwise (· ≤ ·))
    (h : chargeInTurn schedule lower existentials appraise ledger times = .ok (charges, final)) :
    final.totalSupply.toNat * yearScale ^ times.length ≤
      ledger.totalSupply.toNat *
        growthOver schedule.timeRate ledger.lastFeeCharge.toNat times := by
  induction times generalizing ledger charges with
  | nil =>
    cases h
    exact Nat.le_refl _
  | cons now later ih =>
    obtain ⟨fees, charged, rest, hcharges, hrest, rfl⟩ := chargeInTurn_cons_ok h
    obtain ⟨hfirst, hrest_forward⟩ := List.pairwise_cons.mp hforward
    have hfees := hcharges.forTime htime
    have hnow := hfees.time (hfirst now List.mem_cons_self)
    have hlater := ih (by rw [hnow]; exact hrest_forward) hrest
    rw [hnow] at hlater
    have hstep : charged.totalSupply.toNat * yearScale ≤ ledger.totalSupply.toNat *
        (yearScale + schedule.timeRate * (now.toNat - ledger.lastFeeCharge.toNat)) := by
      rw [hfees.supply, hfees.minted]
      exact add_feesFor_mul_le _ _
    calc final.totalSupply.toNat * yearScale ^ (later.length + 1)
        = final.totalSupply.toNat * yearScale ^ later.length * yearScale := by
          rw [Nat.pow_succ, Nat.mul_assoc]
      _ ≤ charged.totalSupply.toNat * growthOver schedule.timeRate now.toNat later *
            yearScale := Nat.mul_le_mul_right _ hlater
      _ = charged.totalSupply.toNat * yearScale *
            growthOver schedule.timeRate now.toNat later := Nat.mul_right_comm _ _ _
      _ ≤ ledger.totalSupply.toNat *
            (yearScale + schedule.timeRate * (now.toNat - ledger.lastFeeCharge.toNat)) *
            growthOver schedule.timeRate now.toNat later := Nat.mul_le_mul_right _ hstep
      _ = ledger.totalSupply.toNat *
            growthOver schedule.timeRate ledger.lastFeeCharge.toNat (now :: later) :=
          Nat.mul_assoc _ _ _

/-- Without a performance fee and without a pause between charges, charges at several times in turn
mint no less than one charge at the last of them, but for a share for each but one; and they make
the supply grow no faster than by compounding at the rate. -/
theorem charging_in_turn_is_bounded {last : Timestamp} {once : FeeCharge}
    {chargedOnce : ShareLedger} (htime : schedule.TimeOnly lower existentials)
    (hlast : times.getLast? = some last)
    (hforward : (ledger.lastFeeCharge :: times).Pairwise (· ≤ ·))
    (hturns : chargeInTurn schedule lower existentials appraise ledger times =
      .ok (charges, final))
    (honce : chargeFees ledger schedule lower existentials appraise last =
      (.ok once, chargedOnce)) :
    once.minted ≤ mintedInAll charges + (times.length - 1) ∧
      final.totalSupply.toNat = ledger.totalSupply.toNat + mintedInAll charges ∧
      final.totalSupply.toNat * yearScale ^ times.length ≤
        ledger.totalSupply.toNat *
          growthOver schedule.timeRate ledger.lastFeeCharge.toNat times := by
  refine ⟨?_, supply_of_chargeInTurn hturns, supply_le_growthOver htime hforward hturns⟩
  have hminted := ((chargeFees_ok honce).forTime htime).minted
  rw [hminted]
  exact minted_at_once_le htime hlast hforward hturns

end InTurn

namespace SmallVault

/-- Nineteen shares, charged up to the start of the clock. -/
def nineteen : ShareLedger where
  totalSupply := .saturate 128 19
  balances := .ofList [("alice", .saturate 128 19)]
  highWaterMark := 0
  lastFeeCharge := 0

/-- So many half years after the start of the clock. -/
def halfYears (n : Nat) : Timestamp := .saturate 64 (n * (secondsPerYear / 2))

/-- Charges at some times for a tenth a year, on nineteen shares and what becomes of them. -/
def tenthInTurn (times : List Timestamp) : Except VaultError (List FeeCharge × ShareLedger) :=
  chargeInTurn schedule [.saturate 128 1000] [.saturate 128 10] (fun _ => .ok 0) nineteen times

/-- One such charge. -/
def tenthAtOnce (now : Timestamp) : Except VaultError FeeCharge × ShareLedger :=
  chargeFees nineteen schedule [.saturate 128 1000] [.saturate 128 10] (fun _ => .ok 0) now

end SmallVault

open SmallVault in
/-- A year charged at once is worth a share, and half by half is worth none. -/
theorem charging_in_turn_is_bounded_half_years :
    ∃ charges final once chargedOnce,
      schedule.TimeOnly [.saturate 128 1000] [.saturate 128 10] ∧
      [halfYears 1, halfYears 2].getLast? = some (halfYears 2) ∧
      (nineteen.lastFeeCharge :: [halfYears 1, halfYears 2]).Pairwise (· ≤ ·) ∧
      tenthInTurn [halfYears 1, halfYears 2] = .ok (charges, final) ∧
      tenthAtOnce (halfYears 2) = (.ok once, chargedOnce) ∧
      once.minted = 1 ∧ mintedInAll charges = 0 ∧
      once.minted ≤ mintedInAll charges + 1 ∧
      final.totalSupply.toNat * yearScale ^ (2 : Nat) ≤
        19 * growthOver schedule.timeRate 0 [halfYears 1, halfYears 2] := by
  have htime : schedule.TimeOnly [.saturate 128 1000] [.saturate 128 10] :=
    ⟨rfl, rfl, by decide⟩
  have hforward : (nineteen.lastFeeCharge :: [halfYears 1, halfYears 2]).Pairwise (· ≤ ·) := by
    decide
  have hturns : tenthInTurn [halfYears 1, halfYears 2] = .ok (_, _) := rfl
  have honce : tenthAtOnce (halfYears 2) = (.ok _, _) := rfl
  obtain ⟨hbound, _, hgrowth⟩ := charging_in_turn_is_bounded htime rfl hforward hturns honce
  exact ⟨_, _, _, _, htime, rfl, hforward, hturns, honce, by decide +kernel, by decide +kernel,
    hbound, hgrowth⟩

end ShareVault
