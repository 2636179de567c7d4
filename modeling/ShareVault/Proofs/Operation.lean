import ShareVault.Proofs.Frame

/-!
# What operations go through

An operation that succeeds has passed every one of its checks.  The statements below open the
operations once, so that nothing later has to.

* `mutate_ok`, `mutate_error` — the frame of every operation, by how it ended;
* `valuation_config`, `charge_eq_ok` — what an appraisal leaves alone, and when a charge succeeds;
* `settled_meanwhile` — what both together leave alone;
* `DepositRun`, `WithdrawalRun` — everything that a deposit or a withdrawal has gone through;
* `Commits` — what each call makes of the committed state when it succeeds;
* `ofCall_ok` — every call that succeeds in changing the committed state;
* `Call.trader?`, `Commits.ledger_eq` — only trades change the ledger.
-/

namespace ShareVault

variable {σ A α : Type}

/-! ### The frame of an operation -/

namespace Operation

variable {nested : Performer σ A} {host : Host σ A} {w w' : World σ A}

theorem enter_idle (hw : w.vault.entered = false) : enter w = .ok () (w.mapVault .begin) := by
  unfold enter
  rw [hw]
  rfl

/-- What an operation on an idle vault comes to. -/
theorem mutate_idle (hw : w.vault.entered = false)
    (body : VaultState → Timestamp → Operation σ A (Effect α)) :
    mutate host body w =
      match body w.vault.state (host.now w.host) (w.mapVault .begin) with
      | .ok effect w₁ => .ok effect.output
          (w₁.mapVault fun v => v.commit effect.state (host.now w.host) effect.events)
      | .error e w₁ => .error e (w₁.mapVault fun v => v.abandon.reject) := by
  unfold mutate
  rw [enter_idle hw]
  rfl

/-- An operation that succeeds found the vault idle, and commits what its body made. -/
theorem mutate_ok {body : VaultState → Timestamp → Operation σ A (Effect α)} {a : α}
    (h : mutate host body w = .ok a w') :
    w.vault.entered = false ∧ ∃ effect w₁,
      body w.vault.state (host.now w.host) (w.mapVault .begin) = .ok effect w₁ ∧
      a = effect.output ∧
      w' = w₁.mapVault fun v => v.commit effect.state (host.now w.host) effect.events := by
  cases hw : w.vault.entered with
  | true =>
    rw [mutate_busy hw] at h
    cases h
  | false =>
    rw [mutate_idle hw] at h
    cases hbody : body w.vault.state (host.now w.host) (w.mapVault .begin) with
    | ok effect w₁ =>
      rw [hbody] at h
      cases h
      exact ⟨rfl, effect, w₁, rfl, rfl, rfl⟩
    | error e w₁ =>
      rw [hbody] at h
      cases h

/-- An operation on an idle vault that fails has failed in its body, and drops what that made. -/
theorem mutate_error {body : VaultState → Timestamp → Operation σ A (Effect α)} {e : VaultError}
    (hw : w.vault.entered = false) (h : mutate host body w = .error e w') :
    ∃ w₁, body w.vault.state (host.now w.host) (w.mapVault .begin) = .error e w₁ ∧
      w' = w₁.mapVault fun v => v.abandon.reject := by
  rw [mutate_idle hw] at h
  cases hbody : body w.vault.state (host.now w.host) (w.mapVault .begin) with
  | ok effect w₁ =>
    rw [hbody] at h
    cases h
  | error e₁ w₁ =>
    rw [hbody] at h
    cases h
    exact ⟨w₁, rfl, rfl⟩

/-! ### Appraisals and charges -/

theorem checkLength_eq_ok {expected got : Nat} {u : Unit} :
    checkLength expected got = .ok u ↔ expected = got := by
  unfold checkLength
  split <;> simp_all

/-- An appraisal that succeeds has the holdings from the custody and the bounds from the source of
prices, one of each per asset. -/
theorem valuation_ok {adapter : A} {holdings : List Amount} {tvl : Tvl}
    (h : valuation nested host adapter w = .ok (holdings, tvl) w') :
    ∃ w₁, (host.holdings w.host).run nested w.vault w.store = (.ok holdings, w₁) ∧
      w.vault.tokenCount = holdings.length ∧
      (host.tvl adapter holdings w₁.host).run nested w₁.vault w₁.store = (.ok tvl, w') ∧
      w.vault.tokenCount = tvl.lower.length ∧ w.vault.tokenCount = tvl.upper.length := by
  unfold valuation at h
  simp only [Effectful.bind_eq_ok, Effectful.get_eq_ok, lift_eq_ok, consult_eq_ok,
    Effectful.pure_eq_ok, Attempt.mapError_eq_ok, checkLength_eq_ok] at h
  obtain ⟨_, _, ⟨rfl, rfl⟩, _, w₁, hholdings, held, _, ⟨rfl, rfl⟩, _, _, ⟨hheld, rfl⟩, _, w₂, htvl,
    bounds, _, ⟨rfl, rfl⟩, _, _, ⟨hlower, rfl⟩, _, _, ⟨hupper, rfl⟩, hpair, rfl⟩ := h
  cases hpair
  exact ⟨_, hholdings, hheld, htvl, hlower, hupper⟩

/-- Whatever outside code does during an appraisal, the setup of the vault stays as it is. -/
theorem valuation_config (hn : nested.Attends) {adapter : A} {appraisal : List Amount × Tvl}
    (h : valuation nested host adapter (w.mapVault .begin) = .ok appraisal w') :
    w'.vault.config = w.vault.config :=
  ((keeps_valuation (questions_attend hn host) adapter).onOk h rfl).vault.config_eq

/-- The end of a charge, which takes over what the charge on the ledger came to. -/
theorem takeOver_eq (result : Except VaultError FeeCharge × ShareLedger) :
    (match result with
      | (.ok charge, charged) => (pure (charge, charged) : Operation σ A _)
      | (.error e, _) => throw e) w =
      match result with
      | (.ok fees, charged) => .ok (fees, charged) w
      | (.error e, _) => .error e w := by
  rcases result with ⟨_ | _, _⟩ <;> rfl

theorem takeOver_eq_ok {result : Except VaultError FeeCharge × ShareLedger} {fees : FeeCharge}
    {charged : ShareLedger} :
    (match result with
      | (.ok charge, charged) => (pure (charge, charged) : Operation σ A _)
      | (.error e, _) => throw e) w = .ok (fees, charged) w' ↔
      result = (.ok fees, charged) ∧ w = w' := by
  rw [takeOver_eq]
  rcases result with ⟨_ | fees₁, charged₁⟩
  · simp
  · simp

/-- A charge succeeds exactly if the charge on the ledger does, at the value that the source of
prices gives, if it is asked for one. -/
theorem charge_eq_ok {adapter : A} {ledger charged : ShareLedger} {schedule : FeeSchedule}
    {lower : List Amount} {now : Timestamp} {fees : FeeCharge} :
    charge nested host adapter ledger schedule lower now w = .ok (fees, charged) w' ↔
      ∃ value,
        chargeFees ledger schedule lower w.vault.config.existentials (fun _ => value) now =
          (.ok fees, charged) ∧
        if asksValue ledger schedule lower w.vault.config.existentials now = true then
          (host.convert adapter lower w.host).run nested w.vault w.store = (value, w')
        else value = .ok 0 ∧ w' = w := by
  unfold charge
  rw [Effectful.bind_eq_ok]
  constructor
  · rintro ⟨_, _, hget, h⟩
    obtain ⟨rfl, rfl⟩ := Effectful.get_eq_ok.mp hget
    rcases Effectful.ite_eq_ok.mp h with ⟨hasks, h⟩ | ⟨hasks, h⟩
    · obtain ⟨value, w₁, hvalue, h⟩ := Effectful.bind_eq_ok.mp h
      obtain ⟨hfees, rfl⟩ := takeOver_eq_ok.mp h
      refine ⟨value, hfees, ?_⟩
      rw [if_pos hasks]
      exact consult_eq_ok.mp hvalue
    · obtain ⟨value, w₁, hvalue, h⟩ := Effectful.bind_eq_ok.mp h
      obtain ⟨hfees, rfl⟩ := takeOver_eq_ok.mp h
      obtain ⟨hzero, hsame⟩ := Effectful.pure_eq_ok.mp hvalue
      refine ⟨value, hfees, ?_⟩
      rw [if_neg hasks]
      exact ⟨hzero.symm, hsame.symm⟩
  · rintro ⟨value, hfees, hvalue⟩
    refine ⟨w, w, Effectful.get_eq_ok.mpr ⟨rfl, rfl⟩, Effectful.ite_eq_ok.mpr ?_⟩
    split at hvalue
    next hasks =>
      have hanswer := consult_eq_ok.mpr hvalue
      refine .inl ⟨hasks, Effectful.bind_eq_ok.mpr ⟨value, w', hanswer, ?_⟩⟩
      exact takeOver_eq_ok.mpr ⟨hfees, rfl⟩
    next hasks =>
      obtain ⟨rfl, rfl⟩ := hvalue
      refine .inr ⟨hasks, Effectful.bind_eq_ok.mpr ⟨.ok 0, w', ?_, ?_⟩⟩
      · exact Effectful.pure_eq_ok.mpr ⟨rfl, rfl⟩
      · exact takeOver_eq_ok.mpr ⟨hfees, rfl⟩

/-- A charge that succeeds is the charge on the ledger at the value that the source of prices gave,
if it was asked for one. -/
theorem charge_ok {adapter : A} {ledger charged : ShareLedger} {schedule : FeeSchedule}
    {lower : List Amount} {now : Timestamp} {fees : FeeCharge}
    (h : charge nested host adapter ledger schedule lower now w = .ok (fees, charged) w') :
    ∃ value,
      chargeFees ledger schedule lower w.vault.config.existentials (fun _ => value) now =
        (.ok fees, charged) ∧
      (w' = w ∨ (host.convert adapter lower w.host).run nested w.vault w.store = (value, w')) := by
  obtain ⟨value, hfees, hvalue⟩ := charge_eq_ok.mp h
  refine ⟨value, hfees, ?_⟩
  split at hvalue
  next => exact .inr hvalue
  next => exact .inl hvalue.2

/-- Whatever outside code does during an appraisal and the charge after it, the vault is busy all
the time. -/
theorem settled_meanwhile (hn : nested.Attends) {adapter : A} {ledger : ShareLedger}
    {schedule : FeeSchedule} {lower : List Amount} {now : Timestamp}
    {appraisal : List Amount × Tvl} {charged : FeeCharge × ShareLedger} {priced : World σ A}
    (happraises : valuation nested host adapter (w.mapVault .begin) = .ok appraisal priced)
    (hcharges : charge nested host adapter ledger schedule lower now priced = .ok charged w') :
    (w.mapVault .begin).Meanwhile w' := by
  have hq := questions_attend hn host
  have happraised := (keeps_valuation hq adapter).onOk happraises
  have hcharged := (keeps_charge hq _ _ _ _ _).onOk hcharges
  exact Frame.busy.trans happraised hcharged rfl

/-! ### Deposits and withdrawals -/

theorem settleDeposit_ok {governance : VaultGovernance} {existentials upper amounts : List Amount}
    {charged ledger : ShareLedger} {caller : Account} {minShares : Amount} {plan : DepositPlan}
    (h : settleDeposit governance existentials charged upper caller amounts minShares =
      .ok (ledger, plan)) :
    planDeposit upper amounts charged.totalSupply existentials = .ok plan ∧
      ¬ plan.shares < minShares ∧
      governance.limits.check (charged.totalSupply.addSat plan.shares)
        ((charged.balanceOf caller).addSat plan.shares) = .ok () ∧
      charged.mint caller plan.shares = .ok ledger := by
  unfold settleDeposit at h
  simp only [Attempt.bind_eq_ok] at h
  obtain ⟨plan', hplan, h⟩ := h
  split at h
  next => cases h
  next hfloor =>
    simp only [Attempt.bind_eq_ok, Attempt.mapError_eq_ok, Attempt.pure_eq_ok] at h
    obtain ⟨_, hlimits, ledger', hmint, hpair⟩ := h
    cases hpair
    exact ⟨hplan, hfloor, hlimits, hmint⟩

theorem settleWithdrawal_ok {charged ledger : ShareLedger}
    {lower holdings minAmounts amounts : List Amount} {caller : Account} {shares : Amount}
    (h : settleWithdrawal charged lower holdings caller shares minAmounts = .ok (ledger, amounts)) :
    planWithdraw lower holdings shares charged.totalSupply minAmounts = .ok amounts ∧
      charged.burn caller shares = .ok ledger := by
  unfold settleWithdrawal at h
  simp only [Attempt.bind_eq_ok, Attempt.mapError_eq_ok, Attempt.pure_eq_ok] at h
  obtain ⟨amounts', hplan, ledger', hburn, hpair⟩ := h
  cases hpair
  exact ⟨hplan, hburn⟩

/-- All that a deposit has gone through before it commits. -/
structure DepositRun (nested : Performer σ A) (host : Host σ A) (caller : Account)
    (amounts : List Amount) (minShares : Amount) (deadline : Timestamp) (w : World σ A) where
  adapter : A
  holdings : List Amount
  tvl : Tvl
  fees : FeeCharge
  /-- The ledger after the fees. -/
  charged : ShareLedger
  /-- The ledger that is committed. -/
  ledger : ShareLedger
  plan : DepositPlan
  /-- The worlds after the appraisal, after the fees and after the payment. -/
  priced : World σ A
  settled : World σ A
  paid : World σ A
  inTime : ¬ deadline < host.now w.host
  sized : w.vault.tokenCount = amounts.length
  allowed : w.vault.state.governance.mayDeposit caller = true
  known : w.vault.adapters.get? w.vault.state.governance.schedule.valuationReference =
    some adapter
  appraises : valuation nested host adapter (w.mapVault .begin) = .ok (holdings, tvl) priced
  charges : charge nested host adapter w.vault.state.ledger w.vault.state.governance.schedule
    tvl.lower (host.now w.host) priced = .ok (fees, charged) settled
  settles : settleDeposit w.vault.state.governance settled.vault.config.existentials charged
    tvl.upper caller amounts minShares = .ok (ledger, plan)
  pulls : (host.pull caller plan.amounts settled.host).run nested settled.vault settled.store =
    (.ok (), paid)

/-- All that a withdrawal has gone through before it commits. -/
structure WithdrawalRun (nested : Performer σ A) (host : Host σ A) (caller : Account)
    (shares : Amount) (minAmounts : List Amount) (recipient : Account) (w : World σ A) where
  adapter : A
  holdings : List Amount
  tvl : Tvl
  fees : FeeCharge
  /-- The ledger after the fees. -/
  charged : ShareLedger
  /-- The ledger that is committed. -/
  ledger : ShareLedger
  /-- The amounts to release. -/
  amounts : List Amount
  /-- The worlds after the appraisal, after the fees and after the payment. -/
  priced : World σ A
  settled : World σ A
  paid : World σ A
  sized : w.vault.tokenCount = minAmounts.length
  known : w.vault.adapters.get? w.vault.state.governance.schedule.valuationReference =
    some adapter
  appraises : valuation nested host adapter (w.mapVault .begin) = .ok (holdings, tvl) priced
  charges : charge nested host adapter w.vault.state.ledger w.vault.state.governance.schedule
    tvl.lower (host.now w.host) priced = .ok (fees, charged) settled
  settles : settleWithdrawal charged tvl.lower holdings caller shares minAmounts =
    .ok (ledger, amounts)
  releases : (host.release recipient amounts settled.host).run nested settled.vault
    settled.store = (.ok (), paid)

variable {reply : Reply}

/-- A deposit that succeeds has passed every check, and commits the ledger it came to. -/
theorem deposit_ok {caller : Account} {amounts : List Amount} {minShares : Amount}
    {deadline : Timestamp}
    (h : deposit nested host caller amounts minShares deadline w = .ok reply w') :
    w.vault.entered = false ∧
      ∃ run : DepositRun nested host caller amounts minShares deadline w,
        reply = .deposited run.plan.shares run.plan.amounts ∧
        w' = run.paid.mapVault fun v =>
          v.commit { w.vault.state with ledger := run.ledger } (host.now w.host)
            [run.fees.event, .deposited caller run.plan.shares run.plan.amounts] := by
  rw [deposit] at h
  obtain ⟨hidle, effect, w₁, hbody, rfl, rfl⟩ := mutate_ok h
  refine ⟨hidle, ?_⟩
  simp only [Effectful.bind_eq_ok, Effectful.get_eq_ok, lift_eq_ok, consult_eq_ok,
    Effectful.pure_eq_ok, Attempt.mapError_eq_ok, checkLength_eq_ok, Effectful.ite_eq_ok,
    Effectful.throw_eq_ok, adapterOf_eq_ok, false_and, exists_false, and_false, false_or,
    or_false] at hbody
  obtain ⟨hinTime, _, _, ⟨rfl, rfl⟩, _, _, ⟨hsized, rfl⟩, hallowed, adapter, _, ⟨hknown, rfl⟩,
    ⟨holdings, tvl⟩, priced, happraises, ⟨fees, charged⟩, settled, hcharges, _, _, ⟨rfl, rfl⟩,
    ⟨ledger, plan⟩, _, ⟨hsettles, rfl⟩, _, paid, hpulls, _, _, ⟨rfl, rfl⟩, rfl, rfl⟩ := hbody
  exact ⟨⟨adapter, holdings, tvl, fees, charged, ledger, plan, priced, _, _, hinTime, hsized,
    hallowed, hknown, happraises, hcharges, hsettles, hpulls⟩, rfl, rfl⟩

/-- A withdrawal that succeeds has passed every check, and commits the ledger it came to. -/
theorem withdraw_ok {caller : Account} {shares : Amount} {minAmounts : List Amount}
    {recipient : Account}
    (h : withdraw nested host caller shares minAmounts recipient w = .ok reply w') :
    w.vault.entered = false ∧
      ∃ run : WithdrawalRun nested host caller shares minAmounts recipient w,
        reply = .withdrawn run.amounts ∧
        w' = run.paid.mapVault fun v =>
          v.commit { w.vault.state with ledger := run.ledger } (host.now w.host)
            [run.fees.event, .withdrawn caller recipient shares run.amounts] := by
  rw [withdraw] at h
  obtain ⟨hidle, effect, w₁, hbody, rfl, rfl⟩ := mutate_ok h
  refine ⟨hidle, ?_⟩
  simp only [Effectful.bind_eq_ok, Effectful.get_eq_ok, lift_eq_ok, consult_eq_ok,
    Effectful.pure_eq_ok, Attempt.mapError_eq_ok, checkLength_eq_ok, adapterOf_eq_ok] at hbody
  obtain ⟨_, _, ⟨rfl, rfl⟩, _, _, ⟨hsized, rfl⟩, adapter, _, ⟨hknown, rfl⟩, ⟨holdings, tvl⟩,
    priced, happraises, ⟨fees, charged⟩, settled, hcharges, ⟨ledger, amounts⟩, _,
    ⟨hsettles, rfl⟩, _, paid, hreleases, _, _, ⟨rfl, rfl⟩, rfl, rfl⟩ := hbody
  exact ⟨⟨adapter, holdings, tvl, fees, charged, ledger, amounts, priced, _, _, hsized, hknown,
    happraises, hcharges, hsettles, hreleases⟩, rfl, rfl⟩

/-- Whatever outside code did during a deposit, the vault was busy all the time. -/
theorem DepositRun.meanwhile {caller : Account} {amounts : List Amount} {minShares : Amount}
    {deadline : Timestamp} (hn : nested.Attends)
    (run : DepositRun nested host caller amounts minShares deadline w) :
    (w.mapVault .begin).Meanwhile run.settled ∧ (w.mapVault .begin).Meanwhile run.paid := by
  have hsettled := settled_meanwhile hn run.appraises run.charges
  have hpulled := (host.pull caller run.plan.amounts run.settled.host).run_attends hn run.settled
  rw [run.pulls] at hpulled
  exact ⟨hsettled, Frame.busy.trans (fun _ => hsettled) hpulled rfl⟩

/-- Whatever outside code did during a withdrawal, the vault was busy all the time. -/
theorem WithdrawalRun.meanwhile {caller : Account} {shares : Amount} {minAmounts : List Amount}
    {recipient : Account} (hn : nested.Attends)
    (run : WithdrawalRun nested host caller shares minAmounts recipient w) :
    (w.mapVault .begin).Meanwhile run.settled ∧ (w.mapVault .begin).Meanwhile run.paid := by
  have hsettled := settled_meanwhile hn run.appraises run.charges
  have hreleased :=
    (host.release recipient run.amounts run.settled.host).run_attends hn run.settled
  rw [run.releases] at hreleased
  exact ⟨hsettled, Frame.busy.trans (fun _ => hsettled) hreleased rfl⟩

end Operation

/-! ### What calls commit -/

/-- What a call that succeeds makes of the committed state: the state, what the caller gets and
what has happened.  The bounds and the value are answers of outside code. -/
inductive Commits (config : VaultConfig) (now : Timestamp) (s : VaultState) :
    Call A → Effect Reply → Prop where
  | deposit {caller amounts minShares deadline lower upper value fees charged ledger plan}
      (inTime : ¬ deadline < now) (allowed : s.governance.mayDeposit caller = true)
      (sized : config.tokenCount = lower.length)
      (charges : chargeFees s.ledger s.governance.schedule lower config.existentials
        (fun _ => value) now = (.ok fees, charged))
      (settles : settleDeposit s.governance config.existentials charged upper caller amounts
        minShares = .ok (ledger, plan)) :
      Commits config now s (.deposit caller amounts minShares deadline)
        ⟨.deposited plan.shares plan.amounts, { s with ledger := ledger },
          [fees.event, .deposited caller plan.shares plan.amounts]⟩
  | withdraw {caller shares minAmounts recipient lower holdings value fees charged ledger amounts}
      (sized : config.tokenCount = lower.length)
      (charges : chargeFees s.ledger s.governance.schedule lower config.existentials
        (fun _ => value) now = (.ok fees, charged))
      (settles : settleWithdrawal charged lower holdings caller shares minAmounts =
        .ok (ledger, amounts)) :
      Commits config now s (.withdraw caller shares minAmounts recipient)
        ⟨.withdrawn amounts, { s with ledger := ledger },
          [fees.event, .withdrawn caller recipient shares amounts]⟩
  | transfer {caller receiver amount ledger}
      (moves : s.ledger.transfer caller receiver amount = .ok ledger) :
      Commits config now s (.transfer caller receiver amount)
        ⟨.done, { s with ledger := ledger }, []⟩
  | stage {caller p value governance}
      (stages : s.governance.stage caller p value now = .ok governance) :
      Commits config now s (.stage caller p value)
        ⟨.staged (governance.params.readyAt p), { s with governance := governance },
          [.parameterStaged p.name (governance.params.readyAt p) caller]⟩
  | commit {caller p governance} (commits : s.governance.commit caller p now = .ok governance) :
      Commits config now s (.commit caller p)
        ⟨.committed (governance.params.activeValue p), { s with governance := governance },
          [.parameterCommitted p.name caller]⟩
  | rollback {caller p governance} (drops : s.governance.rollback caller p = .ok governance) :
      Commits config now s (.rollback caller p)
        ⟨.rolledBack (s.governance.params.get p).isStaged, { s with governance := governance },
          [.parameterRolledBack p.name caller]⟩
  | grantRole {caller account role governance}
      (grants : s.governance.grantRole caller account role = .ok governance) :
      Commits config now s (.grantRole caller account role)
        ⟨.done, { s with governance := governance }, [.roleGranted account role]⟩
  | revokeRole {caller account role governance}
      (revokes : s.governance.revokeRole caller account role = .ok governance) :
      Commits config now s (.revokeRole caller account role)
        ⟨.done, { s with governance := governance }, [.roleRevoked account role]⟩
  | setDepositLimits {caller limits governance}
      (sets : s.governance.setDepositLimits caller limits = .ok governance) :
      Commits config now s (.setDepositLimits caller limits)
        ⟨.done, { s with governance := governance }, [governance.limitsEvent]⟩
  | setPrivate {caller privateVault governance}
      (sets : s.governance.setPrivate caller privateVault = .ok governance) :
      Commits config now s (.setPrivate caller privateVault)
        ⟨.done, { s with governance := governance }, [governance.limitsEvent]⟩
  | setDepositorAllowed {caller account allowed governance}
      (sets : s.governance.setDepositorAllowed caller account allowed = .ok governance) :
      Commits config now s (.setDepositorAllowed caller account allowed)
        ⟨.done, { s with governance := governance }, [.depositorAllowlisted account allowed]⟩

/-- Who trades by a call: who deposits, withdraws or transfers. -/
def Call.trader? : Call A → Option Account
  | .deposit caller .. => some caller
  | .withdraw caller .. => some caller
  | .transfer caller .. => some caller
  | _ => none

/-- Only trades change the ledger. -/
theorem Commits.ledger_eq {config : VaultConfig} {now : Timestamp} {s : VaultState} {c : Call A}
    {effect : Effect Reply} (h : Commits config now s c effect) (hc : c.trader? = none) :
    effect.state.ledger = s.ledger := by
  cases h with
  | deposit inTime allowed sized charges settles => cases hc
  | withdraw sized charges settles => cases hc
  | transfer moves => cases hc
  | _ => rfl

/-- Whether a call works on the committed state. -/
def Call.mutates : Call A → Bool
  | .registerAdapter .. => false
  | .previewFees => false
  | .persist => false
  | .ask _ => false
  | _ => true

namespace Operation

variable {nested : Performer σ A} {host : Host σ A} {w w' : World σ A} {reply : Reply}

/-- A change of the governance that succeeds commits nothing else. -/
theorem govern_ok {change : VaultGovernance → Timestamp → Except GovernanceError VaultGovernance}
    {output : VaultGovernance → VaultGovernance → Reply} {event : VaultGovernance → VaultEvent}
    (h : govern host (fun g now => do
      let g' ← change g now
      return (g', output g g', event g')) w = .ok reply w') :
    w.vault.entered = false ∧ ∃ governance,
      change w.vault.state.governance (host.now w.host) = .ok governance ∧
      reply = output w.vault.state.governance governance ∧
      w' = (w.mapVault .begin).mapVault fun v =>
        v.commit { w.vault.state with governance := governance } (host.now w.host)
          [event governance] := by
  rw [govern] at h
  obtain ⟨hidle, effect, w₁, hbody, rfl, rfl⟩ := mutate_ok h
  simp only [Effectful.bind_eq_ok, lift_eq_ok, Effectful.pure_eq_ok, Attempt.mapError_eq_ok,
    Attempt.bind_eq_ok, Attempt.pure_eq_ok] at hbody
  obtain ⟨_, _, ⟨⟨governance, hchange, rfl⟩, rfl⟩, rfl, rfl⟩ := hbody
  exact ⟨hidle, governance, hchange, rfl, rfl⟩

/-- A transfer that succeeds hands no control to outside code. -/
theorem transfer_ok {caller receiver : Account} {amount : Amount}
    (h : transfer host caller receiver amount w = .ok reply w') :
    w.vault.entered = false ∧ ∃ ledger,
      w.vault.state.ledger.transfer caller receiver amount = .ok ledger ∧
      reply = .done ∧
      w' = (w.mapVault .begin).mapVault fun v =>
        v.commit { w.vault.state with ledger := ledger } (host.now w.host) [] := by
  rw [transfer] at h
  obtain ⟨hidle, effect, w₁, hbody, rfl, rfl⟩ := mutate_ok h
  simp only [Effectful.bind_eq_ok, lift_eq_ok, Effectful.pure_eq_ok, Attempt.mapError_eq_ok]
    at hbody
  obtain ⟨ledger, _, ⟨hmoves, rfl⟩, rfl, rfl⟩ := hbody
  exact ⟨hidle, ledger, hmoves, rfl, rfl⟩

/-- A value that names a source of prices has passed only if the vault knows that source. -/
theorem checkReference_ok {value : ParamValue} {u : Unit}
    (h : checkReference value w = .ok u w') :
    w' = w ∧ ∀ r, value = .reference r → ∃ adapter, w.vault.adapters.get? r = some adapter := by
  cases value with
  | reference r =>
    simp only [checkReference, Effectful.bind_eq_ok, adapterOf_eq_ok, Effectful.pure_eq_ok] at h
    obtain ⟨adapter, _, ⟨hknown, rfl⟩, _, rfl⟩ := h
    refine ⟨rfl, fun r' hr => ?_⟩
    cases hr
    exact ⟨adapter, hknown⟩
  | rate a =>
    obtain ⟨_, rfl⟩ := Effectful.pure_eq_ok.mp h
    exact ⟨rfl, fun r' hr => by cases hr⟩
  | seconds t =>
    obtain ⟨_, rfl⟩ := Effectful.pure_eq_ok.mp h
    exact ⟨rfl, fun r' hr => by cases hr⟩
  | account a =>
    obtain ⟨_, rfl⟩ := Effectful.pure_eq_ok.mp h
    exact ⟨rfl, fun r' hr => by cases hr⟩

theorem stage_ok {caller : Account} {p : Param} {value : ParamValue}
    (h : stage host caller p value w = .ok reply w') :
    w.vault.entered = false ∧ ∃ governance,
      w.vault.state.governance.stage caller p value (host.now w.host) = .ok governance ∧
      reply = .staged (governance.params.readyAt p) ∧
      w' = (w.mapVault .begin).mapVault fun v =>
        v.commit { w.vault.state with governance := governance } (host.now w.host)
          [.parameterStaged p.name (governance.params.readyAt p) caller] := by
  rw [stage] at h
  obtain ⟨hidle, effect, w₁, hbody, rfl, rfl⟩ := mutate_ok h
  simp only [Effectful.bind_eq_ok, lift_eq_ok, Effectful.pure_eq_ok, Attempt.mapError_eq_ok]
    at hbody
  obtain ⟨_, _, hknown, governance, _, ⟨hstages, rfl⟩, rfl, rfl⟩ := hbody
  obtain ⟨rfl, _⟩ := checkReference_ok hknown
  exact ⟨hidle, governance, hstages, rfl, rfl⟩

/-- A deposit that succeeds commits what it came to. -/
theorem DepositRun.commits {caller : Account} {amounts : List Amount} {minShares : Amount}
    {deadline : Timestamp} (hn : nested.Attends)
    (run : DepositRun nested host caller amounts minShares deadline w) :
    Commits w.vault.config (host.now w.host) w.vault.state
      (.deposit caller amounts minShares deadline : Call A)
      ⟨.deposited run.plan.shares run.plan.amounts, { w.vault.state with ledger := run.ledger },
        [run.fees.event, .deposited caller run.plan.shares run.plan.amounts]⟩ := by
  obtain ⟨_, _, _, _, hlower, _⟩ := valuation_ok run.appraises
  obtain ⟨_, hcharges, _⟩ := charge_ok run.charges
  rw [valuation_config hn run.appraises] at hcharges
  have hsettles := run.settles
  rw [(run.meanwhile hn).1.vault.config_eq] at hsettles
  exact .deposit run.inTime run.allowed hlower hcharges hsettles

/-- A withdrawal that succeeds commits what it came to. -/
theorem WithdrawalRun.commits {caller : Account} {shares : Amount} {minAmounts : List Amount}
    {recipient : Account} (hn : nested.Attends)
    (run : WithdrawalRun nested host caller shares minAmounts recipient w) :
    Commits w.vault.config (host.now w.host) w.vault.state
      (.withdraw caller shares minAmounts recipient : Call A)
      ⟨.withdrawn run.amounts, { w.vault.state with ledger := run.ledger },
        [run.fees.event, .withdrawn caller recipient shares run.amounts]⟩ := by
  obtain ⟨_, _, _, _, hlower, _⟩ := valuation_ok run.appraises
  obtain ⟨_, hcharges, _⟩ := charge_ok run.charges
  rw [valuation_config hn run.appraises] at hcharges
  exact .withdraw hlower hcharges run.settles

/-- A call on the committed state that succeeds found the vault idle, and commits what the call
makes of that state.  Meanwhile outside code may have attended to the vault. -/
theorem ofCall_ok (hn : nested.Attends) {c : Call A} (hc : c.mutates = true)
    (h : ofCall nested host c w = .ok reply w') :
    w.vault.entered = false ∧ ∃ effect w₁,
      Commits w.vault.config (host.now w.host) w.vault.state c effect ∧
      (w.mapVault .begin).Meanwhile w₁ ∧ reply = effect.output ∧
      w' = w₁.mapVault fun v => v.commit effect.state (host.now w.host) effect.events := by
  cases c with
  | deposit caller amounts minShares deadline =>
    obtain ⟨hidle, run, rfl, rfl⟩ := deposit_ok h
    exact ⟨hidle, _, run.paid, run.commits hn, (run.meanwhile hn).2, rfl, rfl⟩
  | withdraw caller shares minAmounts recipient =>
    obtain ⟨hidle, run, rfl, rfl⟩ := withdraw_ok h
    exact ⟨hidle, _, run.paid, run.commits hn, (run.meanwhile hn).2, rfl, rfl⟩
  | transfer caller receiver amount =>
    obtain ⟨hidle, ledger, hmoves, rfl, rfl⟩ := transfer_ok h
    exact ⟨hidle, _, _, .transfer hmoves, .refl _, rfl, rfl⟩
  | stage caller p value =>
    obtain ⟨hidle, governance, hstages, rfl, rfl⟩ := stage_ok h
    exact ⟨hidle, _, _, .stage hstages, .refl _, rfl, rfl⟩
  | commit caller p =>
    rw [ofCall, commit] at h
    obtain ⟨hidle, governance, hcommits, rfl, rfl⟩ := govern_ok h
    exact ⟨hidle, _, _, .commit hcommits, .refl _, rfl, rfl⟩
  | rollback caller p =>
    rw [ofCall, rollback] at h
    obtain ⟨hidle, governance, hdrops, rfl, rfl⟩ := govern_ok h
    exact ⟨hidle, _, _, .rollback hdrops, .refl _, rfl, rfl⟩
  | grantRole caller account role =>
    rw [ofCall, grantRole] at h
    obtain ⟨hidle, governance, hgrants, rfl, rfl⟩ := govern_ok h
    exact ⟨hidle, _, _, .grantRole hgrants, .refl _, rfl, rfl⟩
  | revokeRole caller account role =>
    rw [ofCall, revokeRole] at h
    obtain ⟨hidle, governance, hrevokes, rfl, rfl⟩ := govern_ok h
    exact ⟨hidle, _, _, .revokeRole hrevokes, .refl _, rfl, rfl⟩
  | setDepositLimits caller limits =>
    rw [ofCall, setDepositLimits] at h
    obtain ⟨hidle, governance, hsets, rfl, rfl⟩ := govern_ok h
    exact ⟨hidle, _, _, .setDepositLimits hsets, .refl _, rfl, rfl⟩
  | setPrivate caller privateVault =>
    rw [ofCall, setPrivate] at h
    obtain ⟨hidle, governance, hsets, rfl, rfl⟩ := govern_ok h
    exact ⟨hidle, _, _, .setPrivate hsets, .refl _, rfl, rfl⟩
  | setDepositorAllowed caller account allowed =>
    rw [ofCall, setDepositorAllowed] at h
    obtain ⟨hidle, governance, hsets, rfl, rfl⟩ := govern_ok h
    exact ⟨hidle, _, _, .setDepositorAllowed hsets, .refl _, rfl, rfl⟩
  | registerAdapter caller adapter => cases hc
  | previewFees => cases hc
  | persist => cases hc
  | ask q => cases hc

end Operation

end ShareVault
