import ShareVault.Proofs.Conservation

/-!
# What a charge does to a ledger

A charge that succeeds has left the ledger alone, has moved the fee time, or has minted shares for
the three treasuries; it takes nothing from anybody.

* `Assesses` — what the performance fee adds to a charge;
* `Charges` — what a charge that succeeds makes of a ledger, in its three cases;
* `chargeFees_ok`, `Charges.chargeFees_eq` — the charges that succeed are just these;
* `chargeFees_congr` — what a charge does not depend on;
* `Charges.sound`, `supply_le`, `balanceOf_le`, `balanceOf_eq` — what follows for the supply and the
  balances;
* `Accrual.Skips`, `Accrual.of_skips`, `of_not_skips` — when a charge looks at nothing, and how far
  it gets otherwise;
* `Charges.eq_of_skips`, `Charges.lastFeeCharge_eq` — when a charge moves the fee time, and to what
  time.
-/

namespace ShareVault

variable {ledger charged : ShareLedger} {schedule : FeeSchedule}
  {lower existentials : List Amount} {appraise : List Amount → Except ValuationError Amount}
  {now : Timestamp} {fees : FeeCharge}

/-! ### The performance fee -/

/-- What the performance fee makes of a charge and of the ledger: nothing at a rate of zero, else a
price per share, the shares owed on its growth, and a mark that is as high at least. -/
inductive Assesses (ledger : ShareLedger) (schedule : FeeSchedule) (lower : List Amount)
    (appraise : List Amount → Except ValuationError Amount) (owed : FeeCharge) :
    FeeCharge → ShareLedger → Prop where
  | free (rate : ¬ 0 < schedule.performanceFee) :
      Assesses ledger schedule lower appraise owed owed ledger
  | priced {value price minted} (rate : 0 < schedule.performanceFee)
      (appraised : appraise lower = .ok value)
      (perShare : mulDiv value priceScale ledger.totalSupply = .ok price)
      (growth : performanceFeeShares ledger.totalSupply price ledger.highWaterMark
        schedule.performanceFee = .ok minted) :
      Assesses ledger schedule lower appraise owed
        { owed with
          performanceMinted := minted
          pricePerShare := price
          highWaterMark := (ledger.raiseMark price).highWaterMark }
        (ledger.raiseMark price)

theorem performance_ok {value : Amount} {owed : FeeCharge} {raised : ShareLedger}
    (h : LedgerStep.performance schedule value owed ledger = .ok fees raised) :
    ∃ price minted, mulDiv value priceScale ledger.totalSupply = .ok price ∧
      performanceFeeShares ledger.totalSupply price ledger.highWaterMark
        schedule.performanceFee = .ok minted ∧
      raised = ledger.raiseMark price ∧
      fees = { owed with
        performanceMinted := minted
        pricePerShare := price
        highWaterMark := (ledger.raiseMark price).highWaterMark } := by
  unfold LedgerStep.performance at h
  simp only [Effectful.bind_eq_ok, Effectful.get_eq_ok, LedgerStep.lift_eq_ok,
    Effectful.set_eq_ok, Effectful.pure_eq_ok, Attempt.mapError_eq_ok] at h
  obtain ⟨_, _, ⟨rfl, rfl⟩, price, _, ⟨hprice, rfl⟩, minted, _, ⟨hminted, rfl⟩, _, _, rfl, rfl,
    rfl⟩ := h
  exact ⟨price, minted, hprice, hminted, rfl, rfl⟩

theorem mint_step_eq_ok {treasury : Account} {amount : Amount} {l l' : ShareLedger} {u : Unit} :
    LedgerStep.mint treasury amount l = .ok u l' ↔ l.mint treasury amount = .ok l' := by
  simp only [LedgerStep.mint, Effectful.bind_eq_ok, Effectful.get_eq_ok, LedgerStep.lift_eq_ok,
    Effectful.set_eq_ok, Attempt.mapError_eq_ok]
  constructor
  · intro h
    obtain ⟨_, _, ⟨rfl, rfl⟩, _, _, ⟨hmint, rfl⟩, rfl⟩ := h
    exact hmint
  · intro hmint
    exact ⟨l, l, ⟨rfl, rfl⟩, l', l, ⟨hmint, rfl⟩, rfl⟩

/-! ### Charges that succeed -/

/-- What a charge that succeeds makes of a ledger. -/
inductive Charges (ledger : ShareLedger) (schedule : FeeSchedule)
    (lower existentials : List Amount) (appraise : List Amount → Except ValuationError Amount)
    (now : Timestamp) : FeeCharge → ShareLedger → Prop where
  | skip {reason}
      (accrual : Accrual.of ledger schedule lower existentials now = .ok (.skip reason)) :
      Charges ledger schedule lower existentials appraise now
        (.nothing ledger.highWaterMark (some reason)) ledger
  | idle (accrual : Accrual.of ledger schedule lower existentials now = .ok .idle) :
      Charges ledger schedule lower existentials appraise now
        (.nothing ledger.highWaterMark none) (ledger.recordCharge (max now ledger.lastFeeCharge))
  | due {strategy protocol fees raised l₁ l₂ l₃}
      (accrual : Accrual.of ledger schedule lower existentials now = .ok (.due strategy protocol))
      (assesses : Assesses ledger schedule lower appraise
        { FeeCharge.nothing ledger.highWaterMark none with
          strategyMinted := strategy
          protocolMinted := protocol } fees raised)
      (first : raised.mint schedule.strategyTreasury fees.strategyMinted = .ok l₁)
      (second : l₁.mint schedule.protocolTreasury fees.protocolMinted = .ok l₂)
      (third : l₂.mint schedule.performanceTreasury fees.performanceMinted = .ok l₃) :
      Charges ledger schedule lower existentials appraise now fees
        (l₃.recordCharge (max now ledger.lastFeeCharge))

theorem chargeFees_eq_ok :
    chargeFees ledger schedule lower existentials appraise now = (.ok fees, charged) ↔
      LedgerStep.charge schedule lower existentials appraise now ledger = .ok fees charged := by
  unfold chargeFees
  split
  next fees' charged' h =>
    have h : LedgerStep.charge schedule lower existentials appraise now ledger =
      .ok fees' charged' := h
    rw [h]
    simp
  next e charged' h =>
    have h : LedgerStep.charge schedule lower existentials appraise now ledger =
      .error e charged' := h
    rw [h]
    simp

theorem chargeFees_ok
    (h : chargeFees ledger schedule lower existentials appraise now = (.ok fees, charged)) :
    Charges ledger schedule lower existentials appraise now fees charged := by
  rw [chargeFees_eq_ok] at h
  unfold LedgerStep.charge at h
  simp only [Effectful.bind_eq_ok, Effectful.get_eq_ok, LedgerStep.lift_eq_ok,
    Attempt.mapError_eq_ok] at h
  obtain ⟨_, _, ⟨rfl, rfl⟩, accrual, _, ⟨haccrual, rfl⟩, h⟩ := h
  cases accrual with
  | skip reason =>
    obtain ⟨rfl, rfl⟩ := Effectful.pure_eq_ok.mp h
    exact .skip haccrual
  | idle =>
    simp only [Effectful.bind_eq_ok, Effectful.set_eq_ok, Effectful.pure_eq_ok] at h
    obtain ⟨_, _, rfl, rfl, rfl⟩ := h
    exact .idle haccrual
  | due strategy protocol =>
    simp only [Effectful.bind_eq_ok, Effectful.ite_eq_ok, LedgerStep.lift_eq_ok,
      Attempt.mapError_eq_ok, Effectful.modify_eq_ok, Effectful.pure_eq_ok] at h
    rcases h with ⟨hrate, value, _, ⟨hvalue, rfl⟩, fees', raised, hperformance, _, l₁, hfirst, _,
      l₂, hsecond, _, l₃, hthird, _, _, rfl, rfl, rfl⟩ | ⟨hrate, _, _, ⟨rfl, rfl⟩, _, l₁, hfirst, _,
      l₂, hsecond, _, l₃, hthird, _, _, rfl, rfl, rfl⟩
    · obtain ⟨price, minted, hprice, hminted, rfl, rfl⟩ := performance_ok hperformance
      exact .due haccrual (.priced hrate hvalue hprice hminted) (mint_step_eq_ok.mp hfirst)
        (mint_step_eq_ok.mp hsecond) (mint_step_eq_ok.mp hthird)
    · exact .due haccrual (.free hrate) (mint_step_eq_ok.mp hfirst) (mint_step_eq_ok.mp hsecond)
        (mint_step_eq_ok.mp hthird)

/-- Each of the three is a charge that succeeds. -/
theorem Charges.chargeFees_eq
    (h : Charges ledger schedule lower existentials appraise now fees charged) :
    chargeFees ledger schedule lower existentials appraise now = (.ok fees, charged) := by
  simp only [chargeFees_eq_ok, LedgerStep.charge, Effectful.bind_eq_ok, Effectful.get_eq_ok,
    LedgerStep.lift_eq_ok, Attempt.mapError_eq_ok]
  cases h with
  | skip accrual => exact ⟨ledger, ledger, ⟨rfl, rfl⟩, _, ledger, ⟨accrual, rfl⟩, rfl⟩
  | idle accrual => exact ⟨ledger, ledger, ⟨rfl, rfl⟩, _, ledger, ⟨accrual, rfl⟩, rfl⟩
  | due accrual assesses first second third =>
    refine ⟨ledger, ledger, ⟨rfl, rfl⟩, _, ledger, ⟨accrual, rfl⟩, ?_⟩
    simp only [LedgerStep.performance, Effectful.bind_eq_ok, Effectful.ite_eq_ok,
      Effectful.get_eq_ok, LedgerStep.lift_eq_ok, Attempt.mapError_eq_ok, Effectful.set_eq_ok,
      mint_step_eq_ok, Effectful.modify_eq_ok, Effectful.pure_eq_ok]
    cases assesses with
    | free rate =>
      exact .inr ⟨rate, _, ledger, ⟨rfl, rfl⟩, (), _, first, (), _, second, (), _, third, (), _,
        rfl, rfl, rfl⟩
    | priced rate appraised perShare growth =>
      exact .inl ⟨rate, _, ledger, ⟨appraised, rfl⟩, _, _,
        ⟨ledger, ledger, ⟨rfl, rfl⟩, _, ledger, ⟨perShare, rfl⟩, _, ledger, ⟨growth, rfl⟩, (), _,
          rfl, rfl, rfl⟩,
        (), _, first, (), _, second, (), _, third, (), _, rfl, rfl, rfl⟩

/-- A charge depends on the value of the holdings only if it asks for it. -/
theorem chargeFees_congr {appraise' : List Amount → Except ValuationError Amount}
    (h : asksValue ledger schedule lower existentials now = true →
      appraise lower = appraise' lower) :
    chargeFees ledger schedule lower existentials appraise now =
      chargeFees ledger schedule lower existentials appraise' now := by
  have hsame : (LedgerStep.charge schedule lower existentials appraise now).run ledger =
      (LedgerStep.charge schedule lower existentials appraise' now).run ledger := by
    refine Effectful.bind_congr fun _ _ hget => ?_
    obtain ⟨rfl, rfl⟩ := Effectful.get_eq_ok.mp hget
    refine Effectful.bind_congr fun accrual found haccrual => ?_
    obtain ⟨haccrual, rfl⟩ := LedgerStep.lift_eq_ok.mp haccrual
    cases accrual with
    | skip reason => rfl
    | idle => rfl
    | due strategy protocol =>
      by_cases hrate : 0 < schedule.performanceFee
      · have hasks : asksValue found schedule lower existentials now = true := by
          unfold asksValue
          rw [Attempt.mapError_eq_ok.mp haccrual]
          exact decide_eq_true hrate
        simp only [if_pos hrate, h hasks]
      · simp only [if_neg hrate]
  unfold chargeFees
  rw [hsame]

/-! ### What follows -/

namespace Assesses

variable {owed : FeeCharge} {raised : ShareLedger}

/-- The performance fee raises the mark at most. -/
theorem raised_eq (h : Assesses ledger schedule lower appraise owed fees raised) :
    raised = ledger ∨ ∃ price, raised = ledger.raiseMark price := by
  cases h with
  | free rate => exact .inl rfl
  | priced rate appraised perShare growth => exact .inr ⟨_, rfl⟩

theorem sound (hl : ledger.Sound)
    (h : Assesses ledger schedule lower appraise owed fees raised) : raised.Sound := by
  rcases h.raised_eq with rfl | ⟨price, rfl⟩
  · exact hl
  · exact hl.raiseMark price

theorem totalSupply_eq (h : Assesses ledger schedule lower appraise owed fees raised) :
    raised.totalSupply = ledger.totalSupply := by
  rcases h.raised_eq with rfl | ⟨price, rfl⟩
  · rfl
  · rfl

theorem balanceOf_eq (h : Assesses ledger schedule lower appraise owed fees raised)
    (a : Account) : raised.balanceOf a = ledger.balanceOf a := by
  rcases h.raised_eq with rfl | ⟨price, rfl⟩
  · rfl
  · rfl

end Assesses

/-- An account that no fees are minted for. -/
structure FeeSchedule.Outsider (s : FeeSchedule) (a : Account) : Prop where
  strategy : a ≠ s.strategyTreasury
  performance : a ≠ s.performanceTreasury
  protocol : a ≠ s.protocolTreasury

namespace Charges

/-- A charge keeps a ledger sound, whichever treasuries coincide. -/
theorem sound (hl : ledger.Sound)
    (h : Charges ledger schedule lower existentials appraise now fees charged) :
    charged.Sound := by
  cases h with
  | skip accrual => exact hl
  | idle accrual => exact hl.recordCharge _
  | due accrual assesses first second third =>
    exact ((((assesses.sound hl).mint first).mint second).mint third).recordCharge _

theorem supply_le (h : Charges ledger schedule lower existentials appraise now fees charged) :
    ledger.totalSupply.toNat ≤ charged.totalSupply.toNat := by
  cases h with
  | skip accrual => exact Nat.le_refl _
  | idle accrual => exact Nat.le_refl _
  | @due _ _ _ _ l₁ l₂ l₃ accrual assesses first second third =>
    have hfirst := ShareLedger.supply_of_mint first
    have hsecond := ShareLedger.supply_of_mint second
    have hthird := ShareLedger.supply_of_mint third
    rw [assesses.totalSupply_eq] at hfirst
    show _ ≤ l₃.totalSupply.toNat
    omega

/-- Fees are minted, never taken. -/
theorem balanceOf_le (h : Charges ledger schedule lower existentials appraise now fees charged)
    (a : Account) : (ledger.balanceOf a).toNat ≤ (charged.balanceOf a).toNat := by
  cases h with
  | skip accrual => exact Nat.le_refl _
  | idle accrual => exact Nat.le_refl _
  | @due _ _ _ _ l₁ l₂ l₃ accrual assesses first second third =>
    have hfirst := ShareLedger.balanceOf_of_mint first a
    have hsecond := ShareLedger.balanceOf_of_mint second a
    have hthird := ShareLedger.balanceOf_of_mint third a
    rw [assesses.balanceOf_eq] at hfirst
    show _ ≤ (l₃.balanceOf a).toNat
    omega

/-- A charge does not change what anybody but a treasury holds. -/
theorem balanceOf_eq (h : Charges ledger schedule lower existentials appraise now fees charged)
    {a : Account} (ha : schedule.Outsider a) :
    (charged.balanceOf a).toNat = (ledger.balanceOf a).toNat := by
  cases h with
  | skip accrual => rfl
  | idle accrual => rfl
  | @due _ _ _ _ l₁ l₂ l₃ accrual assesses first second third =>
    have hfirst := ShareLedger.balanceOf_of_mint first a
    have hsecond := ShareLedger.balanceOf_of_mint second a
    have hthird := ShareLedger.balanceOf_of_mint third a
    rw [assesses.balanceOf_eq, if_neg ha.strategy] at hfirst
    rw [if_neg ha.protocol] at hsecond
    rw [if_neg ha.performance] at hthird
    show (l₃.balanceOf a).toNat = _
    omega

end Charges

/-! ### The fee time -/

/-- Whether a charge looks at nothing: it comes too soon after the last one, or every asset is
dust. -/
def Accrual.Skips (ledger : ShareLedger) (schedule : FeeSchedule) (lower existentials : List Amount)
    (now : Timestamp) : Prop :=
  now.monus ledger.lastFeeCharge < schedule.feeChargeThrottle ∨
    allDust lower existentials = true

theorem Accrual.of_skip {reason : SkipReason}
    (h : Accrual.of ledger schedule lower existentials now = .ok (.skip reason)) :
    Accrual.Skips ledger schedule lower existentials now := by
  unfold Accrual.of at h
  simp only at h
  split at h
  next hsoon => exact .inl hsoon
  next =>
    split at h
    next hdust => exact .inr hdust
    next =>
      split at h
      · cases h
      · obtain ⟨split, _, hdue⟩ := Attempt.bind_eq_ok.mp h
        cases hdue

theorem Accrual.of_skips (h : Accrual.Skips ledger schedule lower existentials now) :
    ∃ reason, Accrual.of ledger schedule lower existentials now = .ok (.skip reason) := by
  unfold Accrual.of
  by_cases hsoon : now.monus ledger.lastFeeCharge < schedule.feeChargeThrottle
  · exact ⟨.throttled, if_pos hsoon⟩
  · have hdust : allDust lower existentials = true := h.resolve_left hsoon
    exact ⟨.allDust, (if_neg hsoon).trans (if_pos hdust)⟩

theorem Accrual.of_not_skips (h : ¬ Accrual.Skips ledger schedule lower existentials now) :
    Accrual.of ledger schedule lower existentials now =
      if ledger.totalSupply = 0 then .ok .idle
      else do
        let (strategy, protocol) ←
          splitManagement schedule (now.monus ledger.lastFeeCharge) ledger.totalSupply
        return .due strategy protocol := by
  have hsoon := fun hsoon => h (.inl hsoon)
  have hdust := fun hdust => h (.inr hdust)
  simp only [Accrual.of, if_neg hsoon, if_neg hdust]

theorem Accrual.not_skips {a : Accrual}
    (h : Accrual.of ledger schedule lower existentials now = .ok a)
    (ha : ∀ reason, a ≠ .skip reason) :
    ¬ Accrual.Skips ledger schedule lower existentials now := by
  intro hskips
  obtain ⟨reason, hskip⟩ := Accrual.of_skips hskips
  rw [hskip] at h
  exact ha reason (Except.ok.inj h).symm

namespace Charges

/-- A charge that is skipped leaves the ledger alone, its fee time included. -/
theorem eq_of_skips (h : Charges ledger schedule lower existentials appraise now fees charged)
    (hskips : Accrual.Skips ledger schedule lower existentials now) : charged = ledger := by
  cases h with
  | skip accrual => rfl
  | idle accrual => exact (Accrual.not_skips accrual nofun hskips).elim
  | due accrual assesses first second third =>
    exact (Accrual.not_skips accrual nofun hskips).elim

/-- Any other charge moves the fee time up to now, and never back. -/
theorem lastFeeCharge_eq
    (h : Charges ledger schedule lower existentials appraise now fees charged)
    (hskips : ¬ Accrual.Skips ledger schedule lower existentials now) :
    charged.lastFeeCharge = max now ledger.lastFeeCharge := by
  cases h with
  | skip accrual => exact (hskips (Accrual.of_skip accrual)).elim
  | idle accrual => rfl
  | due accrual assesses first second third => rfl

end Charges

end ShareVault
