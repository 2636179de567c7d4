import ShareVault.Proofs.FeeClock
import ShareVault.Proofs.Timelock

/-!
# What is charged for time

Governance changes a rate without a charge.  The next charge is for the whole time since the last
one, at the rates that are in force by then, whatever rates were in force before.  So what a vault
owes for its time rate by rate is what it is charged only as long as the rates do not change; it is
charged no more as long as they do not go up.

* `Forward`, `Turn.secondsSince`, `rateSeconds` — a clock that does not go back, and the seconds of
  a run, each at the rate that was in force;
* `total_secondsSince`, `Turn.timeRate_eq` — the seconds of all turns, and their rates;
* `time_fees_at_current_rate` — the result;
* `raised_rate_charged_for_time_before` — a raise is charged for the time before it, too.
-/

namespace ShareVault

section Runs

variable {σ A : Type} {host : Host σ A} {w start : World σ A} {t : Turn σ A} {fees : FeeCharge}
  {charged : ShareLedger} {turns : List (Turn σ A)} {since : Nat}

/-! ### The seconds of a run -/

/-- In no turn the clock goes back. -/
def Forward (host : Host σ A) (start : World σ A) (turns : List (Turn σ A)) : Prop :=
  ∀ x ∈ history host start turns,
    (host.now x.1.host).toNat ≤ (host.now (x.2.play host x.1).host).toNat

/-- The seconds after some time that go by in a turn. -/
def Turn.secondsSince (host : Host σ A) (since : Nat) (w : World σ A) (t : Turn σ A) : Nat :=
  max (host.now (t.play host w).host).toNat since - max (host.now w.host).toNat since

/-- The seconds after some time that go by in a run, each taken times the rate that was in force.
No turn both changes a rate and takes time, so this cuts the time at every change of a rate. -/
def rateSeconds (host : Host σ A) (since : Nat) (start : World σ A) (turns : List (Turn σ A)) :
    Nat :=
  total host (fun w t => w.timeRate * t.secondsSince host since w) start turns

theorem Forward.head {rest : List (Turn σ A)} (h : Forward host w (t :: rest)) :
    (host.now w.host).toNat ≤ (host.now (t.play host w).host).toNat :=
  h (w, t) List.mem_cons_self

theorem Forward.tail {rest : List (Turn σ A)} (h : Forward host w (t :: rest)) :
    Forward host (t.play host w) rest :=
  fun x hx => h x (List.mem_cons_of_mem _ hx)

theorem Forward.now_le (h : Forward host w turns) :
    (host.now w.host).toNat ≤ (host.now (play host w turns).host).toNat := by
  induction turns generalizing w with
  | nil => exact Nat.le_refl _
  | cons t rest ih => exact Nat.le_trans h.head (ih h.tail)

/-- The seconds of all turns are those from the start to the end. -/
theorem total_secondsSince (since : Nat) (h : Forward host w turns) :
    total host (Turn.secondsSince host since) w turns =
      max (host.now (play host w turns).host).toNat since -
        max (host.now w.host).toNat since := by
  induction turns generalizing w with
  | nil => exact (Nat.sub_self _).symm
  | cons t rest ih =>
    have hhead := h.head
    have hrest := h.tail.now_le
    rw [total_cons, ih h.tail]
    show Turn.secondsSince host since w t + _ =
      max (host.now (play host (t.play host w) rest).host).toNat since - _
    unfold Turn.secondsSince
    omega

/-- At a rate that no second was below, the seconds come to no more. -/
theorem rate_mul_le_rateSeconds {rate : Nat}
    (h : ∀ x ∈ history host start turns, 0 < x.2.secondsSince host since x.1 →
      rate ≤ x.1.timeRate) :
    rate * total host (Turn.secondsSince host since) start turns ≤
      rateSeconds host since start turns := by
  unfold rateSeconds
  induction turns generalizing start with
  | nil => exact Nat.le_refl _
  | cons t rest ih =>
    have hrest := ih fun x hx => h x (List.mem_cons_of_mem _ hx)
    have hfirst : rate * t.secondsSince host since start ≤
        start.timeRate * t.secondsSince host since start := by
      rcases Nat.eq_zero_or_pos (t.secondsSince host since start) with hzero | hpos
      · rw [hzero]
        exact Nat.le_refl _
      · exact Nat.mul_le_mul_right _ (h (start, t) List.mem_cons_self hpos)
    rw [total_cons, total_cons, Nat.mul_add]
    exact Nat.add_le_add hfirst hrest

/-- A commit takes no time. -/
theorem Turn.PutsInForce.host_eq {p : Param} (h : t.PutsInForce host w p) :
    (t.play host w).host = w.host := by
  obtain ⟨caller, reply, rfl, hok⟩ := h
  rcases hperform : perform host (.commit caller p) w with ⟨outcome, w'⟩
  rw [hperform] at hok
  obtain rfl : outcome = .ok reply := hok
  have hcommits := perform_eq_ok.mp hperform
  rw [Operation.ofCall, Operation.commit] at hcommits
  obtain ⟨_, governance, _, _, rfl⟩ := Operation.govern_ok hcommits
  show (perform host (.commit caller p) w).2.host = w.host
  rw [hperform]
  rfl

/-- In the seconds of a turn there is one rate in force. -/
theorem Turn.timeRate_eq (hkept : t.restores = false) (htime : 0 < t.secondsSince host since w) :
    (t.play host w).timeRate = w.timeRate := by
  have hactive (p : Param) : (t.play host w).vault.state.governance.schedule.get p =
      w.vault.state.governance.schedule.get p := by
    rw [schedule_get, schedule_get]
    refine Turn.active_eq hkept fun hputs => ?_
    unfold secondsSince at htime
    rw [hputs.host_eq, Nat.sub_self] at htime
    exact Nat.lt_irrefl _ htime
  have hmanagement := hactive .managementFee
  have hprotocol := hactive .protocolFee
  exact congrArg₂ (fun management protocol : Amount => management.toNat + protocol.toNat)
    hmanagement hprotocol

/-! ### The result -/

/-- What the charge of a turn after a run is for: the seconds since some time, which the turns of the
run cut into pieces of one rate each. -/
structure ChargedForTime (host : Host σ A) (start : World σ A) (turns : List (Turn σ A))
    (w : World σ A) (t : Turn σ A) (fees : FeeCharge) (ledger : ShareLedger) : Prop where
  /-- The charge is made by a deposit or a withdrawal, which commits it before its own shares. -/
  makes : ∃ c, t = .call c ∧ c.Makes host w fees ledger
  /-- The pieces are the whole time since the last charge. -/
  pieces : total host (Turn.secondsSince host w.vault.state.ledger.lastFeeCharge.toNat) start
      turns =
    (host.now w.host).toNat - w.vault.state.ledger.lastFeeCharge.toNat
  /-- In each piece one rate was in force. -/
  steady : ∀ x ∈ history host start turns,
    0 < x.2.secondsSince host w.vault.state.ledger.lastFeeCharge.toNat x.1 →
    (x.2.play host x.1).timeRate = x.1.timeRate
  /-- The whole time is charged for at the rate that is in force now. -/
  charged : fees.strategyMinted.toNat + fees.protocolMinted.toNat =
    feesFor w.vault.state.ledger.totalSupply.toNat
      (w.timeRate * ((host.now w.host).toNat - w.vault.state.ledger.lastFeeCharge.toNat))
  /-- If no piece had a lower rate, that is no more than the pieces come to at their own rates. -/
  bounded : (∀ x ∈ history host start turns,
      0 < x.2.secondsSince host w.vault.state.ledger.lastFeeCharge.toNat x.1 →
      w.timeRate ≤ x.1.timeRate) →
    fees.strategyMinted.toNat + fees.protocolMinted.toNat ≤
      feesFor w.vault.state.ledger.totalSupply.toNat
        (rateSeconds host w.vault.state.ledger.lastFeeCharge.toNat start turns)

/-- After a run of a new vault whose clock does not go back, a charge that is not skipped is for all
the seconds since the last one, at the rates in force when it is made. -/
theorem time_fees_at_current_rate {id : Uuid} {config : VaultConfig} {admin : Account}
    {schedule : FeeSchedule} {adapter : A} {s : σ} {v : Vault A}
    (created : Vault.create id config admin schedule (host.reference adapter, adapter)
      (host.now s) = .ok v)
    (hkept : ∀ t ∈ turns, t.restores = false) (hforward : Forward host ⟨v, .empty, s⟩ turns)
    (hcharge : t.charge? host (play host ⟨v, .empty, s⟩ turns) = some (fees, charged))
    (hskipped : fees.skipped = none) :
    ChargedForTime host ⟨v, .empty, s⟩ turns (play host ⟨v, .empty, s⟩ turns) t fees charged := by
  -- the fee time of a new vault is the time of its creation, and does not go back
  have hstart : v.state.ledger.lastFeeCharge = host.now s := by
    obtain ⟨_, _, _, _, rfl⟩ := create_ok created
    rfl
  have hlater := Word.le_def.mp (marks_le_play host ⟨v, .empty, s⟩ hkept).2
  have hseconds := total_secondsSince
    (play host ⟨v, .empty, s⟩ turns).vault.state.ledger.lastFeeCharge.toNat hforward
  generalize play host ⟨v, .empty, s⟩ turns = w at hcharge hlater hseconds ⊢
  rw [show (⟨v, .empty, s⟩ : World σ A).vault.state.ledger.lastFeeCharge = host.now s from hstart]
    at hlater
  have hpieces : total host (Turn.secondsSince host w.vault.state.ledger.lastFeeCharge.toNat)
      ⟨v, .empty, s⟩ turns =
        (host.now w.host).toNat - w.vault.state.ledger.lastFeeCharge.toNat := by
    rw [hseconds]
    show _ - max (host.now s).toNat _ = _
    omega
  obtain ⟨lower, value, hcharges⟩ := Turn.charges hcharge
  have hfees := hcharges.time_fees hskipped
  have hmakes : ∃ c, t = .call c ∧ c.Makes host w fees charged := by
    obtain ⟨c, _, hcall, _, _, hcharge⟩ := Turn.charge?_eq_some hcharge
    exact ⟨c, hcall, Call.makes hcharge⟩
  refine ⟨hmakes, hpieces, fun x hx htime => ?_, hfees, fun hrates => ?_⟩
  · obtain ⟨earlier, later, hturns, _⟩ := exists_of_mem_history hx
    exact Turn.timeRate_eq (hkept x.2 (by simp [hturns])) htime
  · have hbound := rate_mul_le_rateSeconds hrates
    rw [hpieces] at hbound
    rw [hfees]
    exact feesFor_le hbound

end Runs

namespace SmallVault

/-- Alice deposits, and after a year a rate that is charged for time changes. -/
def rateChange (p : Param) (rate : Nat) : List (Turn InMemory Handle) :=
  [.call (.deposit "alice" [.saturate 128 1000] 0 0),
    .call (.stage "admin" p (.rate (.saturate 128 rate))),
    .outside (surroundings 1 1000 0),
    .call (.commit "admin" p)]

/-- The vault with a management fee of a twentieth, after a year with a fee of a tenth. -/
def lowered : World InMemory Handle :=
  play InMemory.host start (rateChange .managementFee 50000000)

/-- The vault with a protocol fee of a twentieth, after a year without one. -/
def raised : World InMemory Handle :=
  play InMemory.host start (rateChange .protocolFee 50000000)

end SmallVault

open SmallVault in
/-- Alice has a thousand shares.  She is charged a twentieth of them for a year that had a rate of a
tenth. -/
theorem time_fees_at_lowered_rate :
    ∃ fees charged, hundredLess.charge? InMemory.host lowered = some (fees, charged) ∧
      ChargedForTime InMemory.host start (rateChange .managementFee 50000000) lowered hundredLess
        fees charged ∧
      fees.strategyMinted.toNat + fees.protocolMinted.toNat =
        feesFor 1000 (50000000 * secondsPerYear) ∧
      fees.strategyMinted.toNat + fees.protocolMinted.toNat ≤
        feesFor 1000 (100000000 * secondsPerYear) := by
  have hforward : Forward InMemory.host start (rateChange .managementFee 50000000) := by
    unfold Forward
    decide +kernel
  have hcharged : ChargedForTime InMemory.host start (rateChange .managementFee 50000000) lowered
      hundredLess _ _ :=
    time_fees_at_current_rate SmallVault.created (by decide) hforward rfl (by decide +kernel)
  refine ⟨_, _, rfl, hcharged, hcharged.charged, ?_⟩
  refine hcharged.bounded ?_
  decide +kernel

open SmallVault in
/-- Alice has a thousand shares.  She is charged three twentieths of them for a year that had a rate
of a tenth. -/
theorem raised_rate_charged_for_time_before :
    Reachable InMemory.host raised ∧ (∀ t ∈ rateChange .protocolFee 50000000, t.restores = false) ∧
      Forward InMemory.host start (rateChange .protocolFee 50000000) ∧
      ∃ fees charged, hundredLess.charge? InMemory.host raised = some (fees, charged) ∧
        fees.skipped = none ∧
        fees.strategyMinted.toNat + fees.protocolMinted.toNat = 150 ∧
        feesFor raised.vault.state.ledger.totalSupply.toNat
          (rateSeconds InMemory.host raised.vault.state.ledger.lastFeeCharge.toNat start
            (rateChange .protocolFee 50000000)) = 100 := by
  refine ⟨SmallVault.reachable _, by decide, ?_, _, _, rfl, ?_, ?_, ?_⟩
  · unfold Forward
    decide +kernel
  · decide +kernel
  · decide +kernel
  · decide +kernel

end ShareVault
