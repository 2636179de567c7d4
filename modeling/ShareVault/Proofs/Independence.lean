import ShareVault.Proofs.Custody
import ShareVault.Proofs.Governance

/-!
# Eight independent timelocks

The governance of a vault keeps its eight parameters together and takes values of any kind for any
of them.  Still each parameter behaves like one timelock that nobody else touches: whatever calls
are made, its values are those of a timelock that goes through the operations on it that succeed.

* `TimelockStep`, `Timelocked.drive` — a timelock by itself;
* `GovernanceCall`, `VaultGovernance.run` — calls of any kind on the governance;
* `VaultGovernance.succeeded`, `GovernanceCall.on?` — the calls that succeed, and the operation of a
  call on the timelock of a parameter;
* `VaultGovernance.SameBut`, `change_param` — a call on a parameter leaves everything else alone;
* `drive_succeeded` — the timelock of a parameter over a run;
* `Independent`, `parameters_independent` — the result.
-/

namespace ShareVault

/-! ### A timelock by itself -/

/-- An operation on a timelock. -/
inductive TimelockStep (α : Type) where
  | stage (value : α) (now delay : Timestamp)
  | commit (now : Timestamp)
  | rollback

def TimelockStep.apply {α : Type} (t : Timelocked α) :
    TimelockStep α → Except TimelockError (Timelocked α)
  | .stage value now delay => .ok (t.stage value now delay)
  | .commit now => t.commit now
  | .rollback => .ok t.rollback

/-- The timelock after some operations, if none of them fails. -/
def Timelocked.drive {α : Type} (t : Timelocked α) (steps : List (TimelockStep α)) :
    Except TimelockError (Timelocked α) :=
  steps.foldlM TimelockStep.apply t

theorem Timelocked.drive_cons {α : Type} {t t' : Timelocked α} {step : TimelockStep α}
    (h : step.apply t = .ok t') (rest : List (TimelockStep α)) :
    t.drive (step :: rest) = t'.drive rest := by
  unfold drive
  rw [List.foldlM_cons, h]
  rfl

/-! ### Calls on the governance -/

/-- A call on the governance. -/
inductive GovernanceCall where
  | stage (caller : Account) (p : Param) (value : ParamValue) (now : Timestamp)
  | commit (caller : Account) (p : Param) (now : Timestamp)
  | rollback (caller : Account) (p : Param)
  | grantRole (caller account : Account) (role : Role)
  | revokeRole (caller account : Account) (role : Role)
  | setDepositLimits (caller : Account) (limits : DepositLimits)
  | setPrivate (caller : Account) (privateVault : Bool)
  | setDepositorAllowed (caller account : Account) (allowed : Bool)

namespace GovernanceCall

/-- The parameter that a call is on. -/
def param? : GovernanceCall → Option Param
  | .stage _ p _ _ => some p
  | .commit _ p _ => some p
  | .rollback _ p => some p
  | _ => none

/-- What a call makes of the governance. -/
def change (g : VaultGovernance) : GovernanceCall → Except GovernanceError VaultGovernance
  | .stage caller p value now => g.stage caller p value now
  | .commit caller p now => g.commit caller p now
  | .rollback caller p => g.rollback caller p
  | .grantRole caller account role => g.grantRole caller account role
  | .revokeRole caller account role => g.revokeRole caller account role
  | .setDepositLimits caller limits => g.setDepositLimits caller limits
  | .setPrivate caller privateVault => g.setPrivate caller privateVault
  | .setDepositorAllowed caller account allowed => g.setDepositorAllowed caller account allowed

/-- The governance after a call, which a failure leaves as it was. -/
def after (g : VaultGovernance) (c : GovernanceCall) : VaultGovernance :=
  match c.change g with
  | .ok g' => g'
  | .error _ => g

/-- What a caller gets from a call that has made this of the governance. -/
def reply (g g' : VaultGovernance) : GovernanceCall → Reply
  | .stage _ p _ _ => .staged (g'.params.readyAt p)
  | .commit _ p _ => .committed (g'.params.activeValue p)
  | .rollback _ p => .rolledBack (g.params.get p).isStaged
  | _ => .done

/-- The operation of a call on the timelock of a parameter, if it is on that parameter. -/
def on? (delay : Timestamp) (p : Param) : GovernanceCall → Option (TimelockStep p.Value)
  | .stage _ q value now =>
    if q = p then (value.as? p.kind).map fun v => .stage v now delay else none
  | .commit _ q now => if q = p then some (.commit now) else none
  | .rollback _ q => if q = p then some .rollback else none
  | _ => none

theorem on?_eq_none {c : GovernanceCall} {p : Param} (h : c.param? ≠ some p) (delay : Timestamp) :
    c.on? delay p = none := by
  have hother : ∀ {q : Param}, some q ≠ some p → q ≠ p := fun hq heq => hq (congrArg some heq)
  cases c with
  | stage caller q value now => exact if_neg (hother h)
  | commit caller q now => exact if_neg (hother h)
  | rollback caller q => exact if_neg (hother h)
  | _ => rfl

end GovernanceCall

namespace VaultGovernance

/-- The governance after some calls. -/
def run : VaultGovernance → List GovernanceCall → VaultGovernance
  | g, [] => g
  | g, c :: rest => (c.after g).run rest

/-- The calls of a run that succeed, in order. -/
def succeeded : VaultGovernance → List GovernanceCall → List GovernanceCall
  | _, [] => []
  | g, c :: rest =>
    match c.change g with
    | .ok g' => c :: g'.succeeded rest
    | .error _ => g.succeeded rest

/-- The second governance is the first one, but for the timelock of this parameter. -/
structure SameBut (p : Param) (g g' : VaultGovernance) : Prop where
  others : ∀ q, q ≠ p → g'.params.get q = g.params.get q
  access : g'.access = g.access
  settings : g'.settings = g.settings
  limits : g'.limits = g.limits
  privateVault : g'.privateVault = g.privateVault
  allowlist : g'.allowlist = g.allowlist

variable {g g' : VaultGovernance} {c : GovernanceCall} {p : Param}

theorem SameBut.refl (p : Param) (g : VaultGovernance) : SameBut p g g :=
  ⟨fun _ _ => rfl, rfl, rfl, rfl, rfl, rfl⟩

theorem sameBut_set (g : VaultGovernance) (p : Param) (t : Timelocked p.Value) :
    SameBut p g { g with params := g.params.set p t } :=
  ⟨fun _ hq => FeeParameters.get_set_of_ne hq t, rfl, rfl, rfl, rfl, rfl⟩

end VaultGovernance

namespace GovernanceCall

variable {g g' : VaultGovernance} {c : GovernanceCall} {p : Param}

/-! ### One call -/

/-- A call on a parameter that succeeds is an operation on its timelock, and nothing else. -/
theorem change_param (hc : c.param? = some p) (h : c.change g = .ok g') :
    VaultGovernance.SameBut p g g' ∧ ∃ step, c.on? g.settings.delay p = some step ∧
      step.apply (g.params.get p) = .ok (g'.params.get p) := by
  cases c with
  | stage caller q value now =>
    cases hc
    obtain ⟨_, v, rfl, _, rfl⟩ := VaultGovernance.stage_ok h
    refine ⟨VaultGovernance.sameBut_set g p _, .stage v now g.settings.delay, ?_, ?_⟩
    · simp [on?]
    · simp [TimelockStep.apply]
  | commit caller q now =>
    cases hc
    obtain ⟨_, v, hwaits, hready, rfl⟩ := VaultGovernance.commit_ok h
    refine ⟨VaultGovernance.sameBut_set g p _, .commit now, ?_, ?_⟩
    · simp [on?]
    · show (g.params.get p).commit now = _
      unfold Timelocked.commit
      rw [hwaits, FeeParameters.get_set_self]
      exact if_neg (Nat.not_lt.mpr hready)
  | rollback caller q =>
    cases hc
    obtain ⟨_, rfl⟩ := VaultGovernance.rollback_ok h
    refine ⟨VaultGovernance.sameBut_set g p _, .rollback, ?_, ?_⟩
    · simp [on?]
    · simp [TimelockStep.apply]
  | _ => cases hc

/-- Any other call leaves the timelocks and the settings alone. -/
theorem change_policy (hc : c.param? = none) (h : c.change g = .ok g') :
    g'.params = g.params ∧ g'.settings = g.settings := by
  cases c with
  | stage caller q value now => cases hc
  | commit caller q now => cases hc
  | rollback caller q => cases hc
  | grantRole caller account role =>
    obtain ⟨_, rfl⟩ := VaultGovernance.grantRole_ok h
    exact ⟨rfl, rfl⟩
  | revokeRole caller account role =>
    obtain ⟨_, rfl⟩ := VaultGovernance.revokeRole_ok h
    exact ⟨rfl, rfl⟩
  | setDepositLimits caller limits =>
    obtain ⟨_, rfl⟩ := VaultGovernance.setDepositLimits_ok h
    exact ⟨rfl, rfl⟩
  | setPrivate caller privateVault =>
    obtain ⟨_, rfl⟩ := VaultGovernance.setPrivate_ok h
    exact ⟨rfl, rfl⟩
  | setDepositorAllowed caller account allowed =>
    obtain ⟨_, rfl⟩ := VaultGovernance.setDepositorAllowed_ok h
    exact ⟨rfl, rfl⟩

theorem change_settings (h : c.change g = .ok g') : g'.settings = g.settings := by
  cases hc : c.param? with
  | none => exact (change_policy hc h).2
  | some q => exact (change_param hc h).1.settings

theorem change_other (hc : c.param? ≠ some p) (h : c.change g = .ok g') :
    g'.params.get p = g.params.get p := by
  cases hq : c.param? with
  | none => rw [(change_policy hq h).1]
  | some q =>
    have hne : p ≠ q := by
      intro heq
      exact hc (by rw [hq, heq])
    exact (change_param hq h).1.others p hne

/-- A call on a parameter leaves everything else alone, whether or not it succeeds. -/
theorem sameBut_after (hc : c.param? = some p) (g : VaultGovernance) :
    VaultGovernance.SameBut p g (c.after g) := by
  unfold after
  cases h : c.change g with
  | error e => exact .refl p g
  | ok g' => exact (change_param hc h).1

end GovernanceCall

/-! ### Runs -/

namespace VaultGovernance

/-- Over any calls the timelock of a parameter goes through the operations on it that succeed, and
none of these would fail on a timelock by itself.  By induction on the calls. -/
theorem drive_succeeded (g : VaultGovernance) (calls : List GovernanceCall) (p : Param) :
    (g.params.get p).drive ((g.succeeded calls).filterMap (·.on? g.settings.delay p)) =
      .ok ((g.run calls).params.get p) := by
  induction calls generalizing g with
  | nil => rfl
  | cons c rest ih =>
    unfold run succeeded GovernanceCall.after
    cases h : c.change g with
    | error e => exact ih g
    | ok g' =>
      have hrest := ih g'
      rw [GovernanceCall.change_settings h] at hrest
      by_cases hc : c.param? = some p
      · obtain ⟨_, step, hstep, happly⟩ := GovernanceCall.change_param hc h
        show Timelocked.drive _ ((c :: g'.succeeded rest).filterMap _) = _
        rw [List.filterMap_cons_some hstep, Timelocked.drive_cons happly]
        exact hrest
      · show Timelocked.drive _ ((c :: g'.succeeded rest).filterMap _) = _
        rw [List.filterMap_cons_none (GovernanceCall.on?_eq_none hc _),
          ← GovernanceCall.change_other hc h]
        exact hrest

end VaultGovernance

/-- What holds of the parameters over calls on a governance that began with this schedule and these
settings. -/
structure Independent (initial : FeeSchedule) (settings : GovernanceSettings)
    (start : VaultGovernance) (calls : List GovernanceCall) : Prop where
  /-- At every moment the values of each parameter are those of one timelock, which began with the
  value in the schedule and went through the operations on the parameter that succeeded. -/
  timelocks : ∀ before after, calls = before ++ after → ∀ p, ∃ t,
    Timelocked.drive (.new (initial.get p))
        ((start.succeeded before).filterMap (·.on? settings.delay p)) = .ok t ∧
      (start.run before).params.activeValue p = .ofKind p.kind t.active ∧
      (start.run before).params.stagedValue? p = t.staged.map (.ofKind p.kind) ∧
      (start.run before).params.readyAt p = t.readyAt ∧
      (start.run before).schedule.get p = t.active
  /-- The schedule shows the values in force. -/
  schedule : ∀ before after, calls = before ++ after → ∀ p,
    .ofKind p.kind ((start.run before).schedule.get p) = (start.run before).params.activeValue p
  /-- A commit that succeeds answers with the value that waited, and puts it in force. -/
  commits : ∀ before caller p now after g', calls = before ++ .commit caller p now :: after →
    GovernanceCall.change (start.run before) (.commit caller p now) = .ok g' →
    ∃ value, (start.run before).params.stagedValue? p = some value ∧
      GovernanceCall.reply (start.run before) g' (.commit caller p now) = .committed value ∧
      g'.params.activeValue p = value
  /-- A call on a parameter, whether or not it succeeds, leaves the other parameters, the roles, the
  settings and the deposit policy as they are. -/
  leaves : ∀ before c after p, calls = before ++ c :: after → c.param? = some p →
    VaultGovernance.SameBut p (start.run before) (c.after (start.run before))

/-- Whatever calls are made on new governance, by whomever, with whatever values and at whatever
times, the parameters are eight independent timelocks. -/
theorem parameters_independent {admin : Account} {initial : FeeSchedule}
    {settings : GovernanceSettings} {start : VaultGovernance}
    (created : VaultGovernance.new admin initial settings = .ok start)
    (calls : List GovernanceCall) : Independent initial settings start calls := by
  obtain ⟨hparams, hsettings⟩ := VaultGovernance.new_ok created
  have hfirst : ∀ p, start.params.get p = .new (initial.get p) := by
    intro p
    rw [hparams, FeeParameters.get_new]
  have hschedule : ∀ (g : VaultGovernance) p, g.schedule.get p = (g.params.get p).active :=
    fun _ p => FeeSchedule.get_ofValues _ p
  refine ⟨?_, ?_, ?_, ?_⟩
  · intro before _ _ p
    have hdrive := start.drive_succeeded before p
    rw [hfirst, hsettings] at hdrive
    exact ⟨_, hdrive, rfl, rfl, rfl, hschedule _ p⟩
  · intro before _ _ p
    rw [hschedule]
    rfl
  · intro before caller p now _ g' _ hcommit
    obtain ⟨_, v, hwaits, _, rfl⟩ := VaultGovernance.commit_ok hcommit
    refine ⟨.ofKind p.kind v, ?_, ?_, ?_⟩
    · unfold FeeParameters.stagedValue?
      rw [hwaits]
      rfl
    · simp [GovernanceCall.reply, FeeParameters.activeValue, Timelocked.new]
    · simp [FeeParameters.activeValue, Timelocked.new]
  · intro before c _ p _ hc
    exact GovernanceCall.sameBut_after hc _

namespace SmallVault

def governance : VaultGovernance :=
  ⟨.new schedule, .withAdmin "admin", .default, .unlimited, false, ∅⟩

/-- A management fee is staged, an account is refused as a protocol fee, and Bob becomes a
strategist, who may stage the performance fee but not the protocol fee.  The management fee can be
committed after a day, not before; the performance fee is dropped. -/
def interleaved : List GovernanceCall :=
  [.stage "admin" .managementFee (.rate (.saturate 128 5)) 0,
    .stage "admin" .protocolFee (.account "bob") 0,
    .grantRole "admin" "bob" .strategist,
    .stage "bob" .performanceFee (.rate (.saturate 128 7)) 0,
    .stage "bob" .protocolFee (.rate (.saturate 128 9)) 0,
    .commit "bob" .managementFee 0,
    .rollback "bob" .performanceFee,
    .commit "bob" .managementFee (.saturate 64 86400)]

end SmallVault

open SmallVault in
/-- The management fee goes through a staging and a commit, the performance fee through a staging
and a rollback, and the protocol fee through nothing. -/
theorem parameters_independent_interleaved :
    (governance.succeeded interleaved).filterMap (·.on? defaultGovernanceDelay .managementFee) =
        [.stage (.saturate 128 5) 0 defaultGovernanceDelay, .commit (.saturate 64 86400)] ∧
      (governance.run interleaved).params.activeValue .managementFee =
        .rate (.saturate 128 5) ∧
      (governance.succeeded interleaved).filterMap (·.on? defaultGovernanceDelay .performanceFee) =
        [.stage (.saturate 128 7) 0 defaultGovernanceDelay, .rollback] ∧
      (governance.run interleaved).params.stagedValue? .performanceFee = none ∧
      (governance.succeeded interleaved).filterMap (·.on? defaultGovernanceDelay .protocolFee) =
        [] ∧
      (governance.run interleaved).schedule.protocolFee = 0 := by
  have hcreated : VaultGovernance.new "admin" schedule .default = .ok governance := rfl
  have hindependent : Independent schedule .default governance interleaved :=
    parameters_independent hcreated interleaved
  have hmanagement : (governance.succeeded interleaved).filterMap
      (·.on? defaultGovernanceDelay .managementFee) =
        [.stage (.saturate 128 5) 0 defaultGovernanceDelay, .commit (.saturate 64 86400)] := rfl
  have hperformance : (governance.succeeded interleaved).filterMap
      (·.on? defaultGovernanceDelay .performanceFee) =
        [.stage (.saturate 128 7) 0 defaultGovernanceDelay, .rollback] := rfl
  have hprotocol : (governance.succeeded interleaved).filterMap
      (·.on? defaultGovernanceDelay .protocolFee) = [] := rfl
  obtain ⟨t, hdrive, hactive, _⟩ := hindependent.timelocks interleaved [] rfl .managementFee
  obtain ⟨t', hdrive', _, hstaged', _⟩ := hindependent.timelocks interleaved [] rfl .performanceFee
  obtain ⟨t'', hdrive'', _, _, _, hschedule''⟩ :=
    hindependent.timelocks interleaved [] rfl .protocolFee
  have hdelay : GovernanceSettings.default.delay = defaultGovernanceDelay := rfl
  rw [hdelay] at hdrive hdrive' hdrive''
  rw [hmanagement] at hdrive
  rw [hperformance] at hdrive'
  rw [hprotocol] at hdrive''
  cases hdrive
  cases hdrive'
  cases hdrive''
  exact ⟨hmanagement, hactive, hperformance, hstaged', hprotocol, hschedule''⟩

end ShareVault
