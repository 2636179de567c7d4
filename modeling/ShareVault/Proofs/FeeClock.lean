import ShareVault.Proofs.OwedForTime

/-!
# The fee clock

The fee time of a vault is the latest time that was charged for.  It stands still when a charge is
skipped and when the clock goes back, so that no second is charged twice: however the clock runs,
the times that charges are made for add up to the way that the fee time has come.  The high-water
mark, too, never goes down.

* `Turn.Accrues`, `Turn.elapsed` — a turn with a charge that is not skipped, and the time it is for;
* `Turn.marks_eq`, `Turn.marks_of_charge` — what a turn makes of the mark and the fee time;
* `Turn.time_fees` — what a turn mints for the time it charges for;
* `Turn.lastFeeCharge_eq`, `lastFeeCharge_play` — the fee time over a turn and over a run;
* `marks_le_play` — neither goes down;
* `FeeClock`, `fee_clock` — the result.
-/

namespace ShareVault

variable {σ A : Type} {host : Host σ A} {w start : World σ A} {t : Turn σ A} {fees : FeeCharge}
  {charged : ShareLedger} {turns : List (Turn σ A)}

/-! ### One turn -/

/-- The turn makes a charge that is not skipped. -/
def Turn.Accrues (host : Host σ A) (w : World σ A) (t : Turn σ A) : Prop :=
  ∃ fees charged, t.charge? host w = some (fees, charged) ∧ fees.skipped = none

/-- The seconds that a turn charges for. -/
def Turn.elapsed (host : Host σ A) (w : World σ A) (t : Turn σ A) : Nat :=
  match t.charge? host w with
  | some (fees, _) =>
    if fees.skipped = none then
      ((host.now w.host).monus w.vault.state.ledger.lastFeeCharge).toNat
    else 0
  | none => 0

namespace Turn

/-- A turn with a charge is a deposit or a withdrawal that succeeds. -/
theorem charge?_eq_some (h : t.charge? host w = some (fees, charged)) :
    ∃ c reply, t = .call c ∧ c.pays = true ∧ (perform host c w).1 = .ok reply ∧
      c.charge? host w = some (fees, charged) := by
  cases t with
  | call c =>
    obtain ⟨hpays, ⟨reply, hok⟩, _⟩ := Call.charge?_eq_some h
    exact ⟨c, reply, rfl, hpays, hok, h⟩
  | outside s => cases h
  | restore id adapters => cases h

/-- Its charge is due on the committed ledger. -/
theorem charges (h : t.charge? host w = some (fees, charged)) :
    ∃ lower value, Charges w.vault.state.ledger w.vault.state.governance.schedule lower
      w.vault.config.existentials (fun _ => value) (host.now w.host) fees charged := by
  obtain ⟨c, _, _, _, _, hcharge⟩ := charge?_eq_some h
  exact (Call.charge?_eq_some hcharge).2.2

/-- It leaves the mark and the fee time as the charge does. -/
theorem marks_of_charge (h : t.charge? host w = some (fees, charged)) :
    (t.play host w).vault.state.ledger.marks = charged.marks := by
  obtain ⟨c, _, rfl, _, _, hcharge⟩ := charge?_eq_some h
  obtain ⟨_, _, htrades⟩ := (Call.makes hcharge).commits
  exact htrades.marks_eq

/-- Any other turn, if it restores no vault, leaves them alone. -/
theorem marks_eq (hkept : t.restores = false) (h : t.charge? host w = none) :
    (t.play host w).vault.state.ledger.marks = w.vault.state.ledger.marks := by
  cases t with
  | call c => exact perform_marks h
  | outside s => rfl
  | restore id adapters => cases hkept

/-- The fee time moves on by the seconds that are charged for. -/
theorem lastFeeCharge_eq (host : Host σ A) (w : World σ A) (hkept : t.restores = false) :
    (t.play host w).vault.state.ledger.lastFeeCharge.toNat =
      w.vault.state.ledger.lastFeeCharge.toNat + t.elapsed host w := by
  rcases hcharge : t.charge? host w with _ | ⟨fees, charged⟩
  · have htime : (t.play host w).vault.state.ledger.lastFeeCharge =
        w.vault.state.ledger.lastFeeCharge := congrArg Prod.snd (marks_eq hkept hcharge)
    simp only [elapsed, hcharge, htime, Nat.add_zero]
  · have htime : (t.play host w).vault.state.ledger.lastFeeCharge = charged.lastFeeCharge :=
      congrArg Prod.snd (marks_of_charge hcharge)
    obtain ⟨lower, value, hcharges⟩ := charges hcharge
    simp only [elapsed, hcharge]
    rw [htime, hcharges.books.time]
    split
    · rw [Word.toNat_max, Word.toNat_monus]
      omega
    · rfl

/-- A charge mints for time just what is owed for the seconds that it is for, and nothing if it is
skipped. -/
theorem time_fees (h : t.charge? host w = some (fees, charged)) :
    fees.strategyMinted.toNat + fees.protocolMinted.toNat =
      feesFor w.vault.state.ledger.totalSupply.toNat (w.timeRate * t.elapsed host w) := by
  obtain ⟨lower, value, hcharges⟩ := charges h
  simp only [elapsed, h]
  split
  next hskipped =>
    rw [Word.toNat_monus]
    exact hcharges.time_fees hskipped
  next hskipped =>
    have hnone := hcharges.minted_of_skipped hskipped
    unfold FeeCharge.minted at hnone
    rw [Nat.mul_zero, feesFor_zero]
    omega

/-- The mark does not go down. -/
theorem highWaterMark_le (host : Host σ A) (w : World σ A) (hkept : t.restores = false) :
    w.vault.state.ledger.highWaterMark ≤ (t.play host w).vault.state.ledger.highWaterMark := by
  rcases hcharge : t.charge? host w with _ | ⟨fees, charged⟩
  · have hmark : (t.play host w).vault.state.ledger.highWaterMark =
        w.vault.state.ledger.highWaterMark := congrArg Prod.fst (marks_eq hkept hcharge)
    rw [hmark]
    exact Nat.le_refl _
  · have hmark : (t.play host w).vault.state.ledger.highWaterMark = charged.highWaterMark :=
      congrArg Prod.fst (marks_of_charge hcharge)
    obtain ⟨lower, value, hcharges⟩ := charges hcharge
    rw [hmark, hcharges.books.mark]
    exact hcharges.mark_le

namespace Accrues

/-- A charge that is not skipped comes no sooner after the fee time than the throttle allows. -/
theorem late (h : t.Accrues host w) :
    w.vault.state.governance.schedule.feeChargeThrottle.toNat ≤
      (host.now w.host).toNat - w.vault.state.ledger.lastFeeCharge.toNat := by
  obtain ⟨fees, charged, hcharge, hskipped⟩ := h
  obtain ⟨lower, value, hcharges⟩ := charges hcharge
  have hskips := hcharges.skipped_eq_none.mp hskipped
  rw [← Word.toNat_monus]
  exact Nat.not_lt.mp fun hsoon => hskips (.inl hsoon)

/-- After it the fee time has come up to the clock. -/
theorem up_to_now (h : t.Accrues host w) :
    (host.now w.host).toNat ≤ (t.play host w).vault.state.ledger.lastFeeCharge.toNat := by
  obtain ⟨fees, charged, hcharge, hskipped⟩ := h
  have htime : (t.play host w).vault.state.ledger.lastFeeCharge = charged.lastFeeCharge :=
    congrArg Prod.snd (marks_of_charge hcharge)
  obtain ⟨lower, value, hcharges⟩ := charges hcharge
  rw [htime, hcharges.books.time, if_pos hskipped, Word.toNat_max]
  exact Nat.le_max_left _ _

end Accrues

end Turn

/-! ### Runs -/

/-- Over a run the fee time moves on by all the seconds that are charged for. -/
theorem lastFeeCharge_play (host : Host σ A) (w : World σ A)
    (hkept : ∀ t ∈ turns, t.restores = false) :
    (play host w turns).vault.state.ledger.lastFeeCharge.toNat =
      w.vault.state.ledger.lastFeeCharge.toNat + total host (Turn.elapsed host) w turns := by
  induction turns generalizing w with
  | nil => rfl
  | cons t rest ih =>
    rw [List.forall_mem_cons] at hkept
    have hfirst := Turn.lastFeeCharge_eq host w hkept.1
    have hrest := ih (t.play host w) hkept.2
    rw [total_cons]
    show (play host (t.play host w) rest).vault.state.ledger.lastFeeCharge.toNat = _
    omega

theorem marks_le_play (host : Host σ A) (w : World σ A)
    (hkept : ∀ t ∈ turns, t.restores = false) :
    w.vault.state.ledger.highWaterMark ≤ (play host w turns).vault.state.ledger.highWaterMark ∧
      w.vault.state.ledger.lastFeeCharge ≤
        (play host w turns).vault.state.ledger.lastFeeCharge := by
  refine ⟨?_, ?_⟩
  · induction turns generalizing w with
    | nil => exact Nat.le_refl _
    | cons t rest ih =>
      rw [List.forall_mem_cons] at hkept
      exact Nat.le_trans (Turn.highWaterMark_le host w hkept.1) (ih _ hkept.2)
  · have hlater := lastFeeCharge_play host w hkept
    exact Word.le_def.mpr (by omega)

/-! ### The result -/

/-- What holds of the high-water mark and the fee time over a run. -/
structure FeeClock (host : Host σ A) (start : World σ A) (turns : List (Turn σ A)) : Prop where
  /-- From any moment to any later one, neither goes down. -/
  rises : ∀ before between after, turns = before ++ between ++ after →
    (play host start before).vault.state.ledger.highWaterMark ≤
        (play host start (before ++ between)).vault.state.ledger.highWaterMark ∧
      (play host start before).vault.state.ledger.lastFeeCharge ≤
        (play host start (before ++ between)).vault.state.ledger.lastFeeCharge
  /-- Only a deposit or a withdrawal that succeeds changes either of them. -/
  changes : ∀ w t, (w, t) ∈ history host start turns →
    (t.play host w).vault.state.ledger.highWaterMark ≠ w.vault.state.ledger.highWaterMark ∨
      (t.play host w).vault.state.ledger.lastFeeCharge ≠ w.vault.state.ledger.lastFeeCharge →
    ∃ c reply, t = .call c ∧ c.pays = true ∧ (perform host c w).1 = .ok reply
  /-- Every deposit and every withdrawal that succeeds makes a charge, and the charge mints for time
  just what is owed for the seconds that it is for. -/
  charges : ∀ w c reply, (w, .call c) ∈ history host start turns → c.pays = true →
    (perform host c w).1 = .ok reply →
    ∃ fees charged, c.charge? host w = some (fees, charged) ∧ c.Makes host w fees charged ∧
      fees.strategyMinted.toNat + fees.protocolMinted.toNat =
        feesFor w.vault.state.ledger.totalSupply.toNat
          (w.timeRate * (Turn.call c).elapsed host w)
  /-- The seconds that are charged for add up to the way that the fee time has come. -/
  adds : start.vault.state.ledger.lastFeeCharge.toNat + total host (Turn.elapsed host) start turns =
    (play host start turns).vault.state.ledger.lastFeeCharge.toNat
  /-- Two charges that are not skipped are as far apart as the throttle of the later one says, if
  there is one. -/
  apart : ∀ before t between t' after w w', turns = before ++ t :: (between ++ t' :: after) →
    play host start before = w → play host w (t :: between) = w' →
    t.Accrues host w → t'.Accrues host w' →
    0 < w'.vault.state.governance.schedule.feeChargeThrottle →
    (host.now w.host).toNat + w'.vault.state.governance.schedule.feeChargeThrottle.toNat ≤
      (host.now w'.host).toNat

/-- However prices, schedule and clock change over a run without a restore, neither the high-water
mark nor the fee time goes down, only deposits and withdrawals change them, each of these charges
for its own seconds, every second is charged for once at most, and charges keep the distance that
the throttle asks for. -/
theorem fee_clock (hkept : ∀ t ∈ turns, t.restores = false) : FeeClock host start turns where
  rises before between after hturns := by
    subst hturns
    rw [List.forall_mem_append, List.forall_mem_append] at hkept
    rw [play_append]
    exact marks_le_play host _ hkept.1.2
  changes w t hmem hchanges := by
    obtain ⟨earlier, later, hturns, _⟩ := exists_of_mem_history hmem
    have ht : t.restores = false := hkept t (by simp [hturns])
    rcases hcharge : t.charge? host w with _ | ⟨fees, charged⟩
    · have hmarks := Turn.marks_eq ht hcharge
      have hmark := congrArg Prod.fst hmarks
      have htime := congrArg Prod.snd hmarks
      exact (hchanges.elim (· hmark) (· htime)).elim
    · obtain ⟨c, reply, hcall, hpays, hok, _⟩ := Turn.charge?_eq_some hcharge
      exact ⟨c, reply, hcall, hpays, hok⟩
  charges w c reply _ hpays hok := by
    obtain ⟨fees, charged, hcharge, _⟩ := Call.charge?_of_ok hpays (Prod.ext hok rfl)
    exact ⟨fees, charged, hcharge, Call.makes hcharge, Turn.time_fees (t := .call c) hcharge⟩
  adds := (lastFeeCharge_play host start hkept).symm
  apart before t between t' after w w' hturns hw hw' haccrues haccrues' hpos := by
    subst hturns
    have hbetween : ∀ t ∈ between, t.restores = false := fun t ht => hkept t (by simp [ht])
    have hfirst := haccrues.up_to_now
    have hmeanwhile := Word.le_def.mp (marks_le_play host (t.play host w) hbetween).2
    rw [show play host (t.play host w) between = w' from hw'] at hmeanwhile
    have hlate := haccrues'.late
    have hpos := Word.lt_def.mp hpos
    rw [Word.toNat_zero] at hpos
    omega

namespace SmallVault

/-- The small vault with at most one charge a day, and Alice has a thousand units. -/
def throttledStart : World InMemory Handle where
  vault := .ofParts ⟨0⟩ config
    ⟨.new 0, .new { schedule with feeChargeThrottle := .saturate 64 86400 }, .withAdmin "admin",
      .default, .unlimited, false, ∅⟩
    [("par", ⟨"par", 0⟩)]
  store := .empty
  host := surroundings 0 0 1000

/-- Alice deposits, and withdraws after a year, when the clock has gone back to the start, and after
two years. -/
def clockGoesBack : List (Turn InMemory Handle) :=
  [.call (.deposit "alice" [.saturate 128 1000] 0 0),
    .outside (surroundings 1 1000 0), hundredLess,
    .outside (surroundings 0 910 0), hundredLess,
    .outside (surroundings 2 820 0), hundredLess]

/-- The vault after so many of these turns. -/
def clockGoesBackAfter (n : Nat) : World InMemory Handle :=
  play InMemory.host throttledStart (clockGoesBack.take n)

end SmallVault

open SmallVault in
/-- Two of the four charges are not skipped.  They are made for a year each, and more than a day
apart.  The first is a tenth of a thousand shares. -/
theorem fee_clock_goes_back :
    FeeClock InMemory.host throttledStart clockGoesBack ∧
      (∃ fees charged, hundredOut.Makes InMemory.host (clockGoesBackAfter 2) fees charged ∧
        fees.strategyMinted.toNat + fees.protocolMinted.toNat =
          feesFor 1000 (100000000 * secondsPerYear)) ∧
      throttledStart.vault.state.ledger.lastFeeCharge.toNat + 2 * secondsPerYear =
        (clockGoesBackAfter 7).vault.state.ledger.lastFeeCharge.toNat ∧
      hundredLess.Accrues InMemory.host (clockGoesBackAfter 2) ∧
      ¬ hundredLess.Accrues InMemory.host (clockGoesBackAfter 4) ∧
      hundredLess.Accrues InMemory.host (clockGoesBackAfter 6) ∧
      (InMemory.host.now (clockGoesBackAfter 2).host).toNat + 86400 ≤
        (InMemory.host.now (clockGoesBackAfter 6).host).toNat := by
  have hclock : FeeClock InMemory.host throttledStart clockGoesBack := fee_clock (by decide)
  have htotal : total InMemory.host (Turn.elapsed InMemory.host) throttledStart clockGoesBack =
      2 * secondsPerYear := by decide +kernel
  have hfirst : hundredLess.Accrues InMemory.host (clockGoesBackAfter 2) :=
    ⟨_, _, rfl, by decide +kernel⟩
  have hthird : hundredLess.Accrues InMemory.host (clockGoesBackAfter 6) :=
    ⟨_, _, rfl, by decide +kernel⟩
  refine ⟨hclock, ?_, ?_, hfirst, ?_, hthird, ?_⟩
  · have hwithdraws : (perform InMemory.host hundredOut (clockGoesBackAfter 2)).1 =
        .ok (.withdrawn [.saturate 128 90]) := rfl
    have hmem : (clockGoesBackAfter 2, .call hundredOut) ∈
        history InMemory.host throttledStart clockGoesBack :=
      List.mem_cons_of_mem _ (List.mem_cons_of_mem _ List.mem_cons_self)
    obtain ⟨fees, charged, _, hmakes, hminted⟩ := hclock.charges _ _ _ hmem rfl hwithdraws
    refine ⟨fees, charged, hmakes, hminted.trans ?_⟩
    decide +kernel
  · rw [← htotal]
    exact hclock.adds
  · -- the clock has gone back, so there are no seconds to charge for
    intro hsecond
    have hlate := hsecond.late
    have hsoon : (InMemory.host.now (clockGoesBackAfter 4).host).toNat = 0 := by decide +kernel
    have hthrottle :
        (clockGoesBackAfter 4).vault.state.governance.schedule.feeChargeThrottle.toNat = 86400 := by
      decide +kernel
    omega
  · exact hclock.apart (clockGoesBack.take 2) hundredLess ((clockGoesBack.drop 3).take 3)
      hundredLess [] (clockGoesBackAfter 2) (clockGoesBackAfter 6) rfl rfl rfl hfirst hthird
      (by decide +kernel)

end ShareVault
