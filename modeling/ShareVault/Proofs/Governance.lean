import ShareVault.Proofs.Operation

/-!
# Operations on a parameter

A parameter is staged, committed and rolled back by callers that hold one of its roles.  What such
an operation makes of the timelock of its parameter is said here once; every other call leaves the
timelock alone.

* `VaultGovernance.Authorized` — a caller may act on a parameter;
* `VaultGovernance.new_eq_ok` — new governance;
* `VaultGovernance.stage_ok`, `commit_ok`, `rollback_ok` — operations that succeed;
* `grantRole_ok`, `revokeRole_ok`, `setDepositLimits_ok`, `setPrivate_ok`,
  `setDepositorAllowed_ok` — so for the roles and the deposit policy;
* `VaultGovernance.Moves`, `Commits.moves` — what they make of the timelock;
* `Commits.policy_eq`, `Commits.timelock_eq`, `Commits.settings_eq` — what calls leave alone.
-/

namespace ShareVault

/-! ### Who may act -/

theorem AccessTable.require_eq_ok {t : AccessTable} {account : Account} {accepted : List Role}
    {u : Unit} :
    t.require account accepted = .ok u ↔ ∃ role ∈ accepted, t.hasRole account role = true := by
  unfold AccessTable.require
  rw [← List.any_eq_true]
  split <;> simp_all

namespace VaultGovernance

variable {g g' : VaultGovernance} {caller : Account} {p : Param} {now : Timestamp}

/-- The caller holds one of the roles that may act on the parameter. -/
def Authorized (g : VaultGovernance) (caller : Account) (p : Param) : Prop :=
  ∃ role ∈ p.authorizedRoles, g.access.hasRole caller role = true

theorem requireRole_eq_ok {accepted : List Role} {u : Unit} :
    g.requireRole caller accepted = .ok u ↔
      ∃ role ∈ accepted, g.access.hasRole caller role = true := by
  unfold requireRole
  rw [Attempt.mapError_eq_ok, AccessTable.require_eq_ok]

theorem authorize_eq_ok {u : Unit} : g.authorize caller p = .ok u ↔ g.Authorized caller p :=
  requireRole_eq_ok

/-- New governance has one admin, the values of the schedule in force, and none waiting.  It has
passed the checks that later values pass. -/
theorem new_eq_ok {admin : Account} {initial : FeeSchedule} {settings : GovernanceSettings} :
    new admin initial settings = .ok g ↔
      (∀ p, checkValue settings p (initial.get p) = .ok ()) ∧
        g = ⟨.new initial, .withAdmin admin, settings, .unlimited, false, ∅⟩ := by
  have hall : ∀ p : Param, p ∈ Param.all := by
    intro p
    cases p <;> decide
  unfold new
  rw [Attempt.bind_eq_ok]
  constructor
  · rintro ⟨_, hchecks, hg⟩
    exact ⟨fun p => Attempt.forM_eq_ok.mp hchecks p (hall p), (Attempt.pure_eq_ok.mp hg).symm⟩
  · rintro ⟨hchecks, rfl⟩
    exact ⟨(), Attempt.forM_eq_ok.mpr fun p _ => hchecks p, rfl⟩

theorem new_ok {admin : Account} {initial : FeeSchedule} {settings : GovernanceSettings}
    (h : new admin initial settings = .ok g) :
    g.params = .new initial ∧ g.settings = settings := by
  obtain ⟨_, rfl⟩ := new_eq_ok.mp h
  exact ⟨rfl, rfl⟩

/-! ### Operations that succeed -/

/-- A value that a parameter takes is of its kind. -/
theorem validateValue_ok {settings : GovernanceSettings} {value : ParamValue} {v : p.Value}
    (h : validateValue settings p value = .ok v) :
    value = .ofKind p.kind v ∧ checkValue settings p v = .ok () := by
  unfold validateValue at h
  split at h
  next => cases h
  next v' hkind =>
    simp only [Attempt.bind_eq_ok, Attempt.pure_eq_ok] at h
    obtain ⟨_, hchecked, rfl⟩ := h
    exact ⟨ParamValue.as?_eq_some.mp hkind, hchecked⟩

theorem stage_ok {value : ParamValue} (h : g.stage caller p value now = .ok g') :
    g.Authorized caller p ∧ ∃ v, value = .ofKind p.kind v ∧ checkValue g.settings p v = .ok () ∧
      g' = { g with params := g.params.set p ((g.params.get p).stage v now g.settings.delay) } := by
  unfold stage at h
  simp only [Attempt.bind_eq_ok, Attempt.pure_eq_ok] at h
  obtain ⟨_, hmay, v, hvalid, rfl⟩ := h
  obtain ⟨hvalue, hchecked⟩ := validateValue_ok hvalid
  exact ⟨authorize_eq_ok.mp hmay, v, hvalue, hchecked, rfl⟩

theorem commit_ok (h : g.commit caller p now = .ok g') :
    g.Authorized caller p ∧ ∃ v, (g.params.get p).staged = some v ∧
      (g.params.get p).readyAt ≤ now ∧ g' = { g with params := g.params.set p (.new v) } := by
  unfold commit at h
  simp only [Attempt.bind_eq_ok, Attempt.pure_eq_ok, Attempt.mapError_eq_ok] at h
  obtain ⟨_, hmay, t, hcommit, rfl⟩ := h
  unfold Timelocked.commit at hcommit
  split at hcommit
  next => cases hcommit
  next v hwaits =>
    split at hcommit
    next => cases hcommit
    next hready =>
      cases hcommit
      exact ⟨authorize_eq_ok.mp hmay, v, hwaits, Nat.not_lt.mp hready, rfl⟩

theorem rollback_ok (h : g.rollback caller p = .ok g') :
    g.Authorized caller p ∧
      g' = { g with params := g.params.set p (g.params.get p).rollback } := by
  unfold rollback at h
  simp only [Attempt.bind_eq_ok, Attempt.pure_eq_ok] at h
  obtain ⟨_, hmay, rfl⟩ := h
  exact ⟨authorize_eq_ok.mp hmay, rfl⟩

theorem grantRole_ok {account : Account} {role : Role}
    (h : g.grantRole caller account role = .ok g') :
    g.access.hasRole caller .admin = true ∧
      g' = { g with access := g.access.add account role } := by
  unfold grantRole AccessTable.grant at h
  simp only [Attempt.bind_eq_ok, Attempt.pure_eq_ok, Attempt.mapError_eq_ok,
    AccessTable.require_eq_ok, List.mem_singleton, exists_eq_left] at h
  obtain ⟨_, ⟨_, hadmin, rfl⟩, rfl⟩ := h
  exact ⟨hadmin, rfl⟩

theorem revokeRole_ok {account : Account} {role : Role}
    (h : g.revokeRole caller account role = .ok g') :
    g.access.hasRole caller .admin = true ∧
      g' = { g with access := g.access.remove account role } := by
  unfold revokeRole AccessTable.revoke at h
  simp only [Attempt.bind_eq_ok, Attempt.pure_eq_ok, Attempt.mapError_eq_ok,
    AccessTable.require_eq_ok, List.mem_singleton, exists_eq_left] at h
  obtain ⟨_, ⟨_, hadmin, h⟩, rfl⟩ := h
  split at h
  next => cases h
  next =>
    obtain rfl := Attempt.pure_eq_ok.mp h
    exact ⟨hadmin, rfl⟩

theorem setDepositLimits_ok {limits : DepositLimits}
    (h : g.setDepositLimits caller limits = .ok g') :
    (∃ role, g.access.hasRole caller role = true) ∧ g' = { g with limits := limits } := by
  unfold setDepositLimits at h
  simp only [Attempt.bind_eq_ok, Attempt.pure_eq_ok, requireRole_eq_ok] at h
  obtain ⟨_, ⟨role, _, hrole⟩, rfl⟩ := h
  exact ⟨⟨role, hrole⟩, rfl⟩

theorem setPrivate_ok {privateVault : Bool} (h : g.setPrivate caller privateVault = .ok g') :
    g.access.hasRole caller .admin = true ∧ g' = { g with privateVault := privateVault } := by
  unfold setPrivate at h
  simp only [Attempt.bind_eq_ok, Attempt.pure_eq_ok, requireRole_eq_ok, List.mem_singleton,
    exists_eq_left] at h
  obtain ⟨_, hadmin, rfl⟩ := h
  exact ⟨hadmin, rfl⟩

theorem setDepositorAllowed_ok {account : Account} {allowed : Bool}
    (h : g.setDepositorAllowed caller account allowed = .ok g') :
    g.access.hasRole caller .admin = true ∧ g' = { g with
      allowlist := if allowed then g.allowlist.insert account else g.allowlist.erase account } := by
  unfold setDepositorAllowed at h
  simp only [Attempt.bind_eq_ok, Attempt.pure_eq_ok, requireRole_eq_ok, List.mem_singleton,
    exists_eq_left] at h
  obtain ⟨_, hadmin, rfl⟩ := h
  exact ⟨hadmin, rfl⟩

/-! ### What an operation makes of a timelock -/

variable {A : Type}

/-- An operation on a parameter that succeeds, with its reply and the timelock that it leaves. -/
inductive Moves (g : VaultGovernance) (now : Timestamp) (p : Param) :
    Call A → Reply → Timelocked p.Value → Prop where
  | stages {caller : Account} {value : p.Value} (authorized : g.Authorized caller p) :
      Moves g now p (.stage caller p (.ofKind p.kind value))
        (.staged (Timelocked.readyTime now g.settings.delay))
        ((g.params.get p).stage value now g.settings.delay)
  | commits {caller : Account} {value : p.Value} (authorized : g.Authorized caller p)
      (waits : (g.params.get p).staged = some value) (ready : (g.params.get p).readyAt ≤ now) :
      Moves g now p (.commit caller p) (.committed (.ofKind p.kind value)) (.new value)
  | drops {caller : Account} (authorized : g.Authorized caller p) :
      Moves g now p (.rollback caller p) (.rolledBack (g.params.get p).isStaged)
        (g.params.get p).rollback

end VaultGovernance

variable {A : Type} {config : VaultConfig} {now : Timestamp} {s : VaultState} {c : Call A}
  {effect : Effect Reply} {p : Param}

/-- The parameter that a call stages, commits or rolls back. -/
def Call.param? : Call A → Option Param
  | .stage _ p _ => some p
  | .commit _ p => some p
  | .rollback _ p => some p
  | _ => none

/-- A call on a parameter that succeeds is one of the three operations. -/
theorem Commits.moves (h : Commits config now s c effect) (hc : c.param? = some p) :
    s.governance.Moves now p c effect.output (effect.state.governance.params.get p) := by
  cases h with
  | stage stages =>
    cases hc
    obtain ⟨hmay, v, rfl, _, rfl⟩ := VaultGovernance.stage_ok stages
    simp only [FeeParameters.readyAt, FeeParameters.get_set_self]
    exact .stages hmay
  | commit commits =>
    cases hc
    obtain ⟨hmay, v, hwaits, hready, rfl⟩ := VaultGovernance.commit_ok commits
    simp only [FeeParameters.activeValue, FeeParameters.get_set_self]
    exact .commits hmay hwaits hready
  | rollback drops =>
    cases hc
    obtain ⟨hmay, rfl⟩ := VaultGovernance.rollback_ok drops
    simp only [FeeParameters.get_set_self]
    exact .drops hmay
  | _ => cases hc

/-- A call that is no operation on a parameter keeps all of them, and the settings. -/
theorem Commits.policy_eq (h : Commits config now s c effect) (hc : c.param? = none) :
    effect.state.governance.params = s.governance.params ∧
      effect.state.governance.settings = s.governance.settings := by
  cases h with
  | deposit inTime allowed sized charges settles => exact ⟨rfl, rfl⟩
  | withdraw sized charges settles => exact ⟨rfl, rfl⟩
  | transfer moves => exact ⟨rfl, rfl⟩
  | stage stages => cases hc
  | commit commits => cases hc
  | rollback drops => cases hc
  | grantRole grants =>
    obtain ⟨_, rfl⟩ := VaultGovernance.grantRole_ok grants
    exact ⟨rfl, rfl⟩
  | revokeRole revokes =>
    obtain ⟨_, rfl⟩ := VaultGovernance.revokeRole_ok revokes
    exact ⟨rfl, rfl⟩
  | setDepositLimits sets =>
    obtain ⟨_, rfl⟩ := VaultGovernance.setDepositLimits_ok sets
    exact ⟨rfl, rfl⟩
  | setPrivate sets =>
    obtain ⟨_, rfl⟩ := VaultGovernance.setPrivate_ok sets
    exact ⟨rfl, rfl⟩
  | setDepositorAllowed sets =>
    obtain ⟨_, rfl⟩ := VaultGovernance.setDepositorAllowed_ok sets
    exact ⟨rfl, rfl⟩

/-- Every other call leaves the timelock of the parameter alone. -/
theorem Commits.timelock_eq (h : Commits config now s c effect) (hc : c.param? ≠ some p) :
    effect.state.governance.params.get p = s.governance.params.get p := by
  have hother : ∀ {q : Param} {ps : FeeParameters} (t : Timelocked q.Value),
      some q ≠ some p → (ps.set q t).get p = ps.get p :=
    fun t hq => FeeParameters.get_set_of_ne (fun h => hq (congrArg some h.symm)) t
  have hpolicy := h.policy_eq
  cases h with
  | stage stages =>
    obtain ⟨_, _, _, _, rfl⟩ := VaultGovernance.stage_ok stages
    exact hother _ hc
  | commit commits =>
    obtain ⟨_, _, _, _, rfl⟩ := VaultGovernance.commit_ok commits
    exact hother _ hc
  | rollback drops =>
    obtain ⟨_, rfl⟩ := VaultGovernance.rollback_ok drops
    exact hother _ hc
  | _ => exact congrArg (·.get p) (hpolicy rfl).1

/-- No call changes the settings, so the delay is the same all the time. -/
theorem Commits.settings_eq (h : Commits config now s c effect) :
    effect.state.governance.settings = s.governance.settings := by
  have hpolicy := h.policy_eq
  cases h with
  | stage stages =>
    obtain ⟨_, _, _, _, rfl⟩ := VaultGovernance.stage_ok stages
    rfl
  | commit commits =>
    obtain ⟨_, _, _, _, rfl⟩ := VaultGovernance.commit_ok commits
    rfl
  | rollback drops =>
    obtain ⟨_, rfl⟩ := VaultGovernance.rollback_ok drops
    rfl
  | _ => exact (hpolicy rfl).2

end ShareVault
