import ShareVault.Proofs.Governance
import ShareVault.Proofs.OwedForTime
import ShareVault.Proofs.Record

/-!
# Fee caps

Fees are held to their caps when a vault is created and when a value is staged, and nowhere else.
That is enough: a value takes effect only after it was staged, no call changes the caps, and a
record that is stored is read back as it was.  So the rates in force and the rates that wait are
within the caps in every world that a run leads to, and a charge for time is within the hard maxima.

* `CappedFee.max`, `CappedFee.timelock`, `FeeParameters.treasuries` — what is capped, and by what;
* `VaultGovernance.Checked` — every value, in force or waiting, passes the check of its parameter;
* `VaultRecord.Valid`, `valid_keptByCalls`, `Reachable.valid` — the invariant over every run;
* `Charges.management_mul_le` — what a charge for time comes to at most;
* `FeeCapsHold`, `fee_caps_hold` — the result.
-/

namespace ShareVault

/-! ### Caps and treasuries -/

/-- The highest cap that the settings may have. -/
def CappedFee.max : CappedFee → Amount
  | .management => maxManagementFee
  | .performance => maxPerformanceFee
  | .protocol => maxProtocolFee

def CappedFee.timelock (ps : FeeParameters) : CappedFee → Timelocked Amount
  | .management => ps.managementFee
  | .performance => ps.performanceFee
  | .protocol => ps.protocolFee

/-- The timelocks of the three treasuries. -/
def FeeParameters.treasuries (ps : FeeParameters) : List (Timelocked Account) :=
  [ps.strategyTreasury, ps.performanceTreasury, ps.protocolTreasury]

theorem GovernanceSettings.checkCap_ok {s : GovernanceSettings} {fee : CappedFee} {max : Amount}
    {u : Unit} (h : s.checkCap fee max = .ok u) : s.cap fee ≤ max := by
  unfold checkCap at h
  split at h
  next => cases h
  next hle => exact Nat.not_lt.mp hle

/-- Valid settings have no cap above its hard maximum. -/
theorem GovernanceSettings.cap_le_max {s : GovernanceSettings} (h : s.validate = .ok ())
    (fee : CappedFee) : s.cap fee ≤ fee.max := by
  unfold validate at h
  split at h
  next => cases h
  next =>
    simp only [Attempt.bind_eq_ok] at h
    obtain ⟨_, hmanagement, _, hperformance, hprotocol⟩ := h
    cases fee with
    | management => exact checkCap_ok hmanagement
    | performance => exact checkCap_ok hperformance
    | protocol => exact checkCap_ok hprotocol

theorem VaultConfig.checkExistentials_ok {entries : List (String × Amount)}
    (h : checkExistentials entries = .ok ()) : ∀ entry ∈ entries, entry.2 ≠ 0 := by
  induction entries with
  | nil => exact fun _ hmem => absurd hmem List.not_mem_nil
  | cons entry rest ih =>
    unfold checkExistentials at h
    split at h
    next => cases h
    next hpos => exact List.forall_mem_cons.mpr ⟨hpos, ih h⟩

/-- What a valid setup has gone through. -/
theorem VaultConfig.validate_ok {c : VaultConfig} (h : c.validate = .ok ()) :
    c.tokens.length = c.existentials.length ∧
      checkExistentials (c.tokens.zip c.existentials) = .ok () ∧
      c.settings.validate = .ok () := by
  unfold validate at h
  by_cases htokens : c.tokens = []
  · rw [if_pos htokens] at h
    cases h
  · rw [if_neg htokens] at h
    by_cases hlength : c.tokens.length = c.existentials.length
    · rw [if_neg (fun hne => hne hlength)] at h
      simp only [Attempt.bind_eq_ok] at h
      obtain ⟨_, _, _, hexistentials, hsettings⟩ := h
      exact ⟨hlength, hexistentials, hsettings⟩
    · rw [if_pos hlength] at h
      cases h

theorem VaultConfig.validate_settings {c : VaultConfig} (h : c.validate = .ok ()) :
    c.settings.validate = .ok () := (validate_ok h).2.2

/-- A valid setup has positive thresholds. -/
theorem VaultConfig.existentials_pos {c : VaultConfig} (h : c.validate = .ok ()) :
    0 ∉ c.existentials := by
  obtain ⟨hlength, hchecked, _⟩ := validate_ok h
  intro hzero
  obtain ⟨i, hi, hzero⟩ := List.getElem_of_mem hzero
  have htoken : i < c.tokens.length := by omega
  have hentry : (c.tokens[i], c.existentials[i]) ∈ c.tokens.zip c.existentials := by
    rw [List.mem_iff_getElem?]
    refine ⟨i, ?_⟩
    rw [List.getElem?_zip_eq_some]
    exact ⟨List.getElem?_eq_getElem htoken, List.getElem?_eq_getElem hi⟩
  exact checkExistentials_ok hchecked _ hentry hzero

namespace VaultGovernance

variable {g : VaultGovernance} {p : Param}

theorem checkCap_ok {value max : Amount} {u : Unit} (h : checkCap p value max = .ok u) :
    value ≤ max := by
  unfold checkCap at h
  split at h
  next => cases h
  next hle => exact Nat.not_lt.mp hle

theorem checkTreasury_ok {account : Account} {u : Unit} (h : checkTreasury account = .ok u) :
    account ≠ "" := by
  unfold checkTreasury at h
  split at h
  next => cases h
  next hname => exact hname

/-! ### Values that were checked -/

/-- The value in force and the value that waits, if one does, pass the check of their parameter. -/
structure Checked (g : VaultGovernance) : Prop where
  active : ∀ p, checkValue g.settings p (g.params.get p).active = .ok ()
  staged : ∀ p v, (g.params.get p).staged = some v → checkValue g.settings p v = .ok ()

/-- Another timelock for one parameter, with values that pass, keeps all values checked. -/
theorem Checked.set (hg : g.Checked) {t : Timelocked p.Value}
    (hactive : checkValue g.settings p t.active = .ok ())
    (hstaged : ∀ v, t.staged = some v → checkValue g.settings p v = .ok ()) :
    ({ g with params := g.params.set p t } : VaultGovernance).Checked := by
  constructor
  · intro q
    by_cases hq : q = p
    · subst hq
      rw [FeeParameters.get_set_self]
      exact hactive
    · rw [FeeParameters.get_set_of_ne hq]
      exact hg.active q
  · intro q v hv
    by_cases hq : q = p
    · subst hq
      rw [FeeParameters.get_set_self] at hv
      exact hstaged v hv
    · rw [FeeParameters.get_set_of_ne hq] at hv
      exact hg.staged q v hv

end VaultGovernance

/-- A call that succeeds keeps the values checked: what is staged passes the check, what is put in
force is what was staged, and the settings stay as they are. -/
theorem Commits.checked {A : Type} {config : VaultConfig} {now : Timestamp} {s : VaultState}
    {c : Call A} {effect : Effect Reply} (h : Commits config now s c effect)
    (hg : s.governance.Checked) : effect.state.governance.Checked := by
  have hpolicy := h.policy_eq
  cases h with
  | @stage caller p value governance stages =>
    obtain ⟨_, v, _, hchecked, rfl⟩ := VaultGovernance.stage_ok stages
    apply hg.set
    · exact hg.active p
    · rintro v' ⟨⟩
      exact hchecked
  | @commit caller p governance commits =>
    obtain ⟨_, v, hwaits, _, rfl⟩ := VaultGovernance.commit_ok commits
    apply hg.set
    · exact hg.staged p v hwaits
    · rintro v' ⟨⟩
  | @rollback caller p governance drops =>
    obtain ⟨_, rfl⟩ := VaultGovernance.rollback_ok drops
    apply hg.set
    · exact hg.active p
    · rintro v' ⟨⟩
  | _ =>
    obtain ⟨hparams, hsettings⟩ := hpolicy rfl
    constructor
    · rw [hparams, hsettings]
      exact hg.active
    · rw [hparams, hsettings]
      exact hg.staged

/-! ### The invariant -/

/-- A record that a vault can be restored from, with checked values. -/
structure VaultRecord.Valid (record : VaultRecord) : Prop where
  config : record.config.validate = .ok ()
  settings : record.governance.settings = record.config.settings
  checked : record.governance.Checked

theorem valid_keptByCalls (A : Type) : KeptByCalls A VaultRecord.Valid := by
  intro config now s c effect hcommits hvalid
  refine ⟨hvalid.config, ?_, hcommits.checked hvalid.checked⟩
  exact hcommits.settings_eq.trans hvalid.settings

theorem valid_create {A : Type} {id : Uuid} {config : VaultConfig} {admin : Account}
    {schedule : FeeSchedule} {adapter : Reference × A} {now : Timestamp} {v : Vault A}
    (h : Vault.create id config admin schedule adapter now = .ok v) : v.record.Valid := by
  obtain ⟨governance, hnew, hvalid, _, rfl⟩ := create_ok h
  obtain ⟨hchecks, rfl⟩ := VaultGovernance.new_eq_ok.mp hnew
  refine ⟨hvalid, rfl, ?_, ?_⟩
  · intro p
    show VaultGovernance.checkValue config.settings p
      ((FeeParameters.new schedule).get p).active = _
    rw [FeeParameters.get_new]
    exact hchecks p
  · intro p v hv
    have hnone : ((FeeParameters.new schedule).get p).staged = some v := hv
    rw [FeeParameters.get_new] at hnone
    cases hnone

variable {σ A : Type} {host : Host σ A} {w : World σ A}

/-- Every vault that a run leads to has a valid record, and so has every vault in the store. -/
theorem Reachable.valid (h : Reachable host w) : w.Holds VaultRecord.Valid :=
  h.holds (valid_keptByCalls A) fun _ _ _ _ _ _ _ created => valid_create created

namespace VaultRecord.Valid

variable {record : VaultRecord}

theorem cap_le_max (h : record.Valid) (fee : CappedFee) :
    record.governance.settings.cap fee ≤ fee.max := by
  rw [h.settings]
  exact GovernanceSettings.cap_le_max (VaultConfig.validate_settings h.config) fee

theorem active_le_cap (h : record.Valid) (fee : CappedFee) :
    (fee.timelock record.governance.params).active ≤ record.governance.settings.cap fee := by
  cases fee with
  | management => exact VaultGovernance.checkCap_ok (h.checked.active .managementFee)
  | performance => exact VaultGovernance.checkCap_ok (h.checked.active .performanceFee)
  | protocol => exact VaultGovernance.checkCap_ok (h.checked.active .protocolFee)

theorem staged_le_cap (h : record.Valid) (fee : CappedFee) {rate : Amount}
    (hwaits : (fee.timelock record.governance.params).staged = some rate) :
    rate ≤ record.governance.settings.cap fee := by
  cases fee with
  | management => exact VaultGovernance.checkCap_ok (h.checked.staged .managementFee rate hwaits)
  | performance => exact VaultGovernance.checkCap_ok (h.checked.staged .performanceFee rate hwaits)
  | protocol => exact VaultGovernance.checkCap_ok (h.checked.staged .protocolFee rate hwaits)

theorem treasuries (h : record.Valid) {t : Timelocked Account}
    (ht : t ∈ record.governance.params.treasuries) :
    t.active ≠ "" ∧ ∀ account, t.staged = some account → account ≠ "" := by
  have hactive := h.checked.active
  have hstaged := h.checked.staged
  simp only [FeeParameters.treasuries, List.mem_cons, List.not_mem_nil, or_false] at ht
  rcases ht with rfl | rfl | rfl
  · refine ⟨VaultGovernance.checkTreasury_ok (hactive .strategyTreasury), ?_⟩
    intro account hwaits
    exact VaultGovernance.checkTreasury_ok (hstaged .strategyTreasury account hwaits)
  · refine ⟨VaultGovernance.checkTreasury_ok (hactive .performanceTreasury), ?_⟩
    intro account hwaits
    exact VaultGovernance.checkTreasury_ok (hstaged .performanceTreasury account hwaits)
  · refine ⟨VaultGovernance.checkTreasury_ok (hactive .protocolTreasury), ?_⟩
    intro account hwaits
    exact VaultGovernance.checkTreasury_ok (hstaged .protocolTreasury account hwaits)

/-- The rates that time is charged at are within the hard maxima together. -/
theorem timeRate_le (h : record.Valid) :
    record.governance.schedule.timeRate ≤ maxManagementFee.toNat + maxProtocolFee.toNat := by
  have hmanagement := Nat.le_trans (h.active_le_cap .management) (h.cap_le_max .management)
  have hprotocol := Nat.le_trans (h.active_le_cap .protocol) (h.cap_le_max .protocol)
  exact Nat.add_le_add hmanagement hprotocol

end VaultRecord.Valid

/-! ### Charges for time -/

section Ledgers

variable {ledger charged : ShareLedger} {schedule : FeeSchedule}
  {lower existentials : List Amount} {appraise : List Amount → Except ValuationError Amount}
  {now : Timestamp} {fees : FeeCharge}

/-- A charge for time is no more than the rates, the seconds and the shares come to. -/
theorem Charges.management_mul_le
    (h : Charges ledger schedule lower existentials appraise now fees charged) :
    fees.management.toNat * yearScale ≤
      schedule.timeRate * (now.monus ledger.lastFeeCharge).toNat * ledger.totalSupply.toNat := by
  have hparts : fees.management.toNat ≤ fees.strategyMinted.toNat + fees.protocolMinted.toNat := by
    show (fees.strategyMinted.addSat fees.protocolMinted).toNat ≤ _
    rw [Word.toNat_addSat]
    exact Nat.min_le_left _ _
  by_cases hskipped : fees.skipped = none
  · rw [h.time_fees hskipped] at hparts
    rw [Word.toNat_monus, Nat.mul_comm _ ledger.totalSupply.toNat]
    exact Nat.le_trans (Nat.mul_le_mul_right _ hparts) (feesFor_mul_le _ _)
  · have hnone := h.minted_of_skipped hskipped
    unfold FeeCharge.minted at hnone
    have hzero : fees.management.toNat = 0 := by omega
    rw [hzero, Nat.zero_mul]
    exact Nat.zero_le _

end Ledgers

/-! ### The result -/

/-- What the caps come to in a world. -/
structure FeeCapsHold (host : Host σ A) (w : World σ A) : Prop where
  /-- Each rate in force is within its cap. -/
  active : ∀ fee : CappedFee, (fee.timelock w.vault.state.governance.params).active ≤
    w.vault.state.governance.settings.cap fee
  /-- So is each rate that waits. -/
  staged : ∀ (fee : CappedFee) (rate : Amount),
    (fee.timelock w.vault.state.governance.params).staged = some rate →
      rate ≤ w.vault.state.governance.settings.cap fee
  /-- The caps are those of the setup, and within the hard maxima. -/
  settings : w.vault.state.governance.settings = w.vault.config.settings
  cap : ∀ fee : CappedFee, w.vault.state.governance.settings.cap fee ≤ fee.max
  /-- Each treasury, in force or waiting, is an account with a name. -/
  treasuries : ∀ t ∈ w.vault.state.governance.params.treasuries,
    t.active ≠ "" ∧ ∀ account, t.staged = some account → account ≠ ""
  /-- The rates have a sum, and this has a product with any number of seconds. -/
  products : ∃ rate, checkedAdd w.vault.state.governance.schedule.managementFee
      w.vault.state.governance.schedule.protocolFee = .ok rate ∧
    ∀ elapsed : Timestamp, ∃ product, checked (rate.toNat * elapsed.toNat) = .ok product
  /-- A charge on any ledger is for no more than the hard maxima allow. -/
  charges : ∀ (ledger charged : ShareLedger) (lower existentials : List Amount)
    (appraise : List Amount → Except ValuationError Amount) (now : Timestamp) (fees : FeeCharge),
    chargeFees ledger w.vault.state.governance.schedule lower existentials appraise now =
      (.ok fees, charged) →
    fees.management.toNat * secondsPerYear * feeDenominator.toNat ≤
      (maxManagementFee.toNat + maxProtocolFee.toNat) *
        (now.monus ledger.lastFeeCharge).toNat * ledger.totalSupply.toNat
  /-- So is the charge that a call begins with. -/
  calls : ∀ (c : Call A) (fees : FeeCharge) (charged : ShareLedger),
    c.charge? host w = some (fees, charged) →
    fees.management.toNat * secondsPerYear * feeDenominator.toNat ≤
      (maxManagementFee.toNat + maxProtocolFee.toNat) *
        ((host.now w.host).monus w.vault.state.ledger.lastFeeCharge).toNat *
          w.vault.state.ledger.totalSupply.toNat

/-- In every world that a run leads to, restores included, the fees are within their caps, the caps
are within the hard maxima, the treasuries have names, and charges for time stay within what that
allows. -/
theorem fee_caps_hold (hw : Reachable host w) : FeeCapsHold host w := by
  have hvalid : w.vault.record.Valid := hw.valid.vault
  have hrate : w.vault.state.governance.schedule.timeRate ≤
      maxManagementFee.toNat + maxProtocolFee.toNat := hvalid.timeRate_le
  have hcharge : ∀ {ledger charged : ShareLedger} {lower existentials : List Amount}
      {appraise : List Amount → Except ValuationError Amount} {now : Timestamp} {fees : FeeCharge},
      Charges ledger w.vault.state.governance.schedule lower existentials appraise now fees
        charged →
      fees.management.toNat * secondsPerYear * feeDenominator.toNat ≤
        (maxManagementFee.toNat + maxProtocolFee.toNat) *
          (now.monus ledger.lastFeeCharge).toNat * ledger.totalSupply.toNat := by
    intro ledger charged lower existentials appraise now fees hcharges
    rw [Nat.mul_assoc]
    apply Nat.le_trans hcharges.management_mul_le
    exact Nat.mul_le_mul_right _ (Nat.mul_le_mul_right _ hrate)
  refine ⟨hvalid.active_le_cap, fun fee rate => hvalid.staged_le_cap fee, hvalid.settings,
    hvalid.cap_le_max, fun t => hvalid.treasuries, ?_, ?_, ?_⟩
  · have hsum : w.vault.state.governance.schedule.timeRate ≤ (Word.largest 128).toNat :=
      Nat.le_trans hrate (by decide)
    obtain ⟨rate, hadd⟩ := checked_of_le hsum
    refine ⟨rate, hadd, ?_⟩
    intro elapsed
    have helapsed : elapsed.toNat ≤ (Word.largest 64).toNat := Nat.le_sub_one_of_lt elapsed.lt
    have hproduct : rate.toNat * elapsed.toNat ≤ (Word.largest 128).toNat := by
      rw [checked_eq_ok.mp hadd]
      exact Nat.le_trans (Nat.mul_le_mul hrate helapsed) (by decide)
    exact checked_of_le hproduct
  · intro ledger charged lower existentials appraise now fees h
    exact hcharge (chargeFees_ok h)
  · intro c fees charged h
    obtain ⟨_, _, lower, value, hcharges⟩ := Call.charge?_eq_some h
    exact hcharge hcharges

namespace SmallVault

/-- Alice deposits everything, a management fee of a twentieth is staged, and the vault is written
to the store.  After a year it is restored from there. -/
def reopening : List (Turn InMemory Handle) :=
  [.call (.deposit "alice" [.saturate 128 1000] 0 0),
    .call (.stage "admin" .managementFee (.rate (.saturate 128 50000000))),
    .call .persist,
    .outside (surroundings 1 1000 0),
    .restore ⟨0⟩ [⟨"par", 0⟩]]

def reopened : World InMemory Handle := play InMemory.host start reopening

/-- Alice withdraws half of her shares. -/
def halfOut : Call Handle := .withdraw "alice" (.saturate 128 500) [0] "alice"

end SmallVault

open SmallVault in
/-- The rate that waits was stored and read back, and a tenth of the shares is charged for the
year. -/
theorem fee_caps_hold_reopened :
    reopened.vault.events.events = [] ∧
      (CappedFee.management.timelock reopened.vault.state.governance.params).staged =
        some (.saturate 128 50000000) ∧
      .saturate 128 50000000 ≤ reopened.vault.state.governance.settings.cap .management ∧
      ∃ fees charged, halfOut.charge? InMemory.host reopened = some (fees, charged) ∧
        fees.management.toNat = 100 ∧
        fees.management.toNat * secondsPerYear * feeDenominator.toNat ≤
          (maxManagementFee.toNat + maxProtocolFee.toNat) *
            ((InMemory.host.now reopened.host).monus
              reopened.vault.state.ledger.lastFeeCharge).toNat *
              reopened.vault.state.ledger.totalSupply.toNat := by
  have hcaps : FeeCapsHold InMemory.host reopened := fee_caps_hold (reachable reopening)
  have hwaits : (CappedFee.management.timelock reopened.vault.state.governance.params).staged =
      some (.saturate 128 50000000) := by
    decide +kernel
  have hcharge : (halfOut.charge? InMemory.host reopened).map (·.1.management.toNat) =
      some 100 := by
    decide +kernel
  refine ⟨by decide +kernel, hwaits, hcaps.staged .management _ hwaits, ?_⟩
  obtain ⟨⟨fees, charged⟩, hfees, hmanagement⟩ := Option.map_eq_some_iff.mp hcharge
  exact ⟨fees, charged, hfees, hmanagement, hcaps.calls halfOut fees charged hfees⟩

end ShareVault
