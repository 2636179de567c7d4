import Mathlib.Data.List.Induction
import ShareVault.Proofs.Past
import ShareVault.Proofs.Replay
import ShareVault.Proofs.Sources

/-!
# Authority

An account governs a vault by the roles it holds at the moment, and it comes by them only if an
admin grants them.  A call to govern by an account that holds no role might as well not have been
made: what is left of it is the count of rejections, which nothing reads.

* `Call.governor?`, `Turn.powerless` — who asks to govern, and who asks in vain;
* `VaultGovernance.SameRule` — what only admins change;
* `Commits.authority` — a call to govern that succeeds comes from an account with a role, and from
  an admin if it changes what only admins change;
* `Vault.turnedAway`, `Turn.play_turnedAway` — a vault goes on as before, however many calls it has
  turned away;
* `Turn.play_powerless`, `play_purged`, `answers_purged` — a run with and without powerless calls;
* `Granted`, `holdsAdmin_play` — how an account has become an admin;
* `authority_kept` — the result.
-/

namespace ShareVault

variable {σ A : Type} {host : Host σ A} {w start : World σ A} {c : Call A} {t : Turn σ A}
  {turns : List (Turn σ A)} {a admin : Account}

/-! ### Who asks to govern -/

/-- The account that asks to govern by a call. -/
def Call.governor? : Call A → Option Account
  | .stage caller _ _ => some caller
  | .commit caller _ => some caller
  | .rollback caller _ => some caller
  | .grantRole caller _ _ => some caller
  | .revokeRole caller _ _ => some caller
  | .setDepositLimits caller _ => some caller
  | .setPrivate caller _ => some caller
  | .setDepositorAllowed caller _ _ => some caller
  | .registerAdapter caller _ => some caller
  | _ => none

/-- Whether an account holds no role at all. -/
def AccessTable.excludes (t : AccessTable) (account : Account) : Bool :=
  Role.all.all fun role => !t.hasRole account role

theorem AccessTable.hasRole_of_excludes {t : AccessTable} (h : t.excludes a = true) (role : Role) :
    t.hasRole a role = false := by
  have hall : role ∈ Role.all := by
    cases role <;> decide
  have hrole := List.all_eq_true.mp h role hall
  simpa using hrole

/-- Whether a turn is a call to govern by an account that holds no role in this world. -/
def Turn.powerless (w : World σ A) : Turn σ A → Bool
  | .call c => c.governor?.any w.vault.state.governance.access.excludes
  | _ => false

theorem Turn.powerless_call : (Turn.call c).powerless w = true ↔
    ∃ a, c.governor? = some a ∧ w.vault.state.governance.access.excludes a = true := by
  unfold powerless
  cases hc : c.governor? with
  | none => simp [hc]
  | some a => simp [hc]

/-! ### What only admins change -/

/-- The parameters that no strategist may act on. -/
def Param.reserved : List Param :=
  [.protocolFee, .protocolTreasury, .feeChargeThrottle, .valuationReference]

theorem Param.authorizedRoles_of_reserved {p : Param} (h : p ∈ Param.reserved) :
    p.authorizedRoles = [.admin] := by
  revert h
  cases p <;> decide

/-- Two governances agree in everything that only admins change. -/
structure VaultGovernance.SameRule (g g' : VaultGovernance) : Prop where
  /-- The values in force and the values that wait. -/
  params : ∀ p ∈ Param.reserved, g'.params.get p = g.params.get p
  access : g'.access = g.access
  privateVault : g'.privateVault = g.privateVault
  allowlist : g'.allowlist = g.allowlist

theorem VaultGovernance.SameRule.refl (g : VaultGovernance) : g.SameRule g :=
  ⟨fun _ _ => rfl, rfl, rfl, rfl⟩

section Commits

variable {config : VaultConfig} {now : Timestamp} {s : VaultState} {effect : Effect Reply}
  {p : Param}

/-- An operation on a parameter comes from an admin, or from a strategist on a parameter that is not
reserved. -/
theorem Commits.authorized (h : Commits config now s c effect) (hp : c.param? = some p)
    (ha : c.governor? = some a) :
    s.governance.access.hasRole a .admin = true ∨
      s.governance.access.hasRole a .strategist = true ∧ p ∉ Param.reserved := by
  have hmay : s.governance.Authorized a p := by
    have hmoves := h.moves hp
    generalize effect.output = output at hmoves
    generalize effect.state.governance.params.get p = timelock at hmoves
    cases hmoves with
    | stages authorized =>
      cases ha
      exact authorized
    | commits authorized waits ready =>
      cases ha
      exact authorized
    | drops authorized =>
      cases ha
      exact authorized
  obtain ⟨role, hrole, hhas⟩ := hmay
  cases role with
  | admin => exact .inl hhas
  | strategist =>
    refine .inr ⟨hhas, ?_⟩
    intro hreserved
    rw [Param.authorizedRoles_of_reserved hreserved] at hrole
    simp at hrole

/-- A call to govern that succeeds comes from an admin, or from a strategist and leaves alone what
only admins change. -/
theorem Commits.authority (h : Commits config now s c effect) (ha : c.governor? = some a) :
    s.governance.access.hasRole a .admin = true ∨
      s.governance.access.hasRole a .strategist = true ∧
        s.governance.SameRule effect.state.governance := by
  -- an operation on a parameter keeps the timelocks of all others
  have hparams : ∀ p, c.param? = some p → p ∉ Param.reserved → ∀ q ∈ Param.reserved,
      effect.state.governance.params.get q = s.governance.params.get q := by
    intro p hp hfree q hq
    apply h.timelock_eq
    intro hsame
    rw [hp] at hsame
    cases hsame
    exact hfree hq
  have hmay := fun p (hp : c.param? = some p) => h.authorized hp ha
  cases h with
  | stage stages =>
    refine (hmay _ rfl).imp_right fun hstrategist => ⟨hstrategist.1, ?_⟩
    obtain ⟨_, _, _, _, rfl⟩ := VaultGovernance.stage_ok stages
    exact ⟨hparams _ rfl hstrategist.2, rfl, rfl, rfl⟩
  | commit commits =>
    refine (hmay _ rfl).imp_right fun hstrategist => ⟨hstrategist.1, ?_⟩
    obtain ⟨_, _, _, _, rfl⟩ := VaultGovernance.commit_ok commits
    exact ⟨hparams _ rfl hstrategist.2, rfl, rfl, rfl⟩
  | rollback drops =>
    refine (hmay _ rfl).imp_right fun hstrategist => ⟨hstrategist.1, ?_⟩
    obtain ⟨_, rfl⟩ := VaultGovernance.rollback_ok drops
    exact ⟨hparams _ rfl hstrategist.2, rfl, rfl, rfl⟩
  | grantRole grants =>
    cases ha
    exact .inl (VaultGovernance.grantRole_ok grants).1
  | revokeRole revokes =>
    cases ha
    exact .inl (VaultGovernance.revokeRole_ok revokes).1
  | setDepositLimits sets =>
    cases ha
    obtain ⟨⟨role, hrole⟩, rfl⟩ := VaultGovernance.setDepositLimits_ok sets
    cases role with
    | admin => exact .inl hrole
    | strategist => exact .inr ⟨hrole, fun _ _ => rfl, rfl, rfl, rfl⟩
  | setPrivate sets =>
    cases ha
    exact .inl (VaultGovernance.setPrivate_ok sets).1
  | setDepositorAllowed sets =>
    cases ha
    exact .inl (VaultGovernance.setDepositorAllowed_ok sets).1
  | _ => cases ha

/-- A call that no admin makes to govern leaves alone what only admins change. -/
theorem Commits.sameRule (h : Commits config now s c effect)
    (ha : ∀ a, c.governor? = some a → s.governance.access.hasRole a .admin = false) :
    s.governance.SameRule effect.state.governance := by
  cases hc : c.governor? with
  | some a =>
    rcases h.authority hc with hadmin | ⟨_, hsame⟩
    · rw [ha a hc] at hadmin
      cases hadmin
    · exact hsame
  | none =>
    cases h with
    | deposit inTime allowed sized charges settles => exact .refl _
    | withdraw sized charges settles => exact .refl _
    | transfer moves => exact .refl _
    | _ => cases hc

/-- An account holds a role after a call only if it did before, or if an admin granted it. -/
theorem Commits.hasRole_granted {role : Role} (h : Commits config now s c effect)
    (ha : effect.state.governance.access.hasRole a role = true) :
    s.governance.access.hasRole a role = true ∨
      ∃ granter, c = .grantRole granter a role ∧
        s.governance.access.hasRole granter .admin = true := by
  cases h with
  | deposit inTime allowed sized charges settles => exact .inl ha
  | withdraw sized charges settles => exact .inl ha
  | transfer moves => exact .inl ha
  | stage stages =>
    obtain ⟨_, _, _, _, rfl⟩ := VaultGovernance.stage_ok stages
    exact .inl ha
  | commit commits =>
    obtain ⟨_, _, _, _, rfl⟩ := VaultGovernance.commit_ok commits
    exact .inl ha
  | rollback drops =>
    obtain ⟨_, rfl⟩ := VaultGovernance.rollback_ok drops
    exact .inl ha
  | @grantRole granter account granted governance grants =>
    obtain ⟨hadmin, rfl⟩ := VaultGovernance.grantRole_ok grants
    have hadded : (decide (a = account ∧ role = granted) ||
        s.governance.access.hasRole a role) = true := by
      rw [← AccessTable.hasRole_add]
      exact ha
    rw [Bool.or_eq_true, decide_eq_true_eq] at hadded
    rcases hadded with ⟨rfl, rfl⟩ | hbefore
    · exact .inr ⟨granter, rfl, hadmin⟩
    · exact .inl hbefore
  | @revokeRole caller account revoked governance revokes =>
    obtain ⟨_, rfl⟩ := VaultGovernance.revokeRole_ok revokes
    have hleft : (!decide (a = account ∧ role = revoked) &&
        s.governance.access.hasRole a role) = true := by
      rw [← AccessTable.hasRole_remove]
      exact ha
    rw [Bool.and_eq_true] at hleft
    exact .inl hleft.2
  | setDepositLimits sets =>
    obtain ⟨_, rfl⟩ := VaultGovernance.setDepositLimits_ok sets
    exact .inl ha
  | setPrivate sets =>
    obtain ⟨_, rfl⟩ := VaultGovernance.setPrivate_ok sets
    exact .inl ha
  | setDepositorAllowed sets =>
    obtain ⟨_, rfl⟩ := VaultGovernance.setDepositorAllowed_ok sets
    exact .inl ha

end Commits

/-! ### Turns and what only admins change -/

/-- A turn in which no admin asks to govern leaves alone what only admins change. -/
theorem Turn.sameRule
    (ha : ∀ a, c.governor? = some a →
      w.vault.state.governance.access.hasRole a .admin = false) :
    w.vault.state.governance.SameRule ((Turn.call c).play host w).vault.state.governance := by
  have hdoes := (Turn.call c).does host w
  generalize (Turn.call c).play host w = w' at hdoes
  cases hdoes with
  | commits idle outcome commits meanwhile => exact commits.sameRule ha
  | leaves fails meanwhile =>
    rw [meanwhile.vault.state_eq]
    exact .refl _

/-- Whoever registers a source of prices in a turn is an admin. -/
theorem Turn.registrants (host : Host σ A) (hidle : w.vault.entered = false) (t : Turn σ A) :
    ∀ r ∈ (t.calls host w).registrations,
      w.vault.state.governance.access.hasRole r.1 .admin = true := by
  intro r hr
  have hregisters : t.Registers host w r.1 r.2 := hr
  exact hregisters.admin hidle

/-- A source of prices is registered from inside a call, or by the call itself. -/
theorem Turn.registrations_call (host : Host σ A) (w : World σ A) (c : Call A) :
    ((Turn.call c).calls host w).registrations = (journal host c w).registrations ++
      (NestedCall.registration? ⟨c, w, (perform host c w).1, (perform host c w).2⟩).toList := by
  refine List.filterMap_append.trans (congrArg ((journal host c w).registrations ++ ·) ?_)
  cases hr : NestedCall.registration? ⟨c, w, (perform host c w).1, (perform host c w).2⟩ with
  | none => exact List.filterMap_cons_none hr
  | some r => exact List.filterMap_cons_some hr

/-- It adds the sources of prices that admins register from inside the call, and no other. -/
theorem Turn.registry (hidle : w.vault.entered = false)
    (ha : ∀ a, c.governor? = some a →
      w.vault.state.governance.access.hasRole a .admin = false) :
    ((Turn.call c).play host w).vault.adapters =
        addSources host.reference w.vault.adapters (journal host c w).registrations ∧
      ∀ r ∈ (journal host c w).registrations,
        w.vault.state.governance.access.hasRole r.1 .admin = true := by
  have hadmins := Turn.registrants host hidle (.call c)
  have hcalls := Turn.registrations_call host w c
  cases hr : NestedCall.registration? ⟨c, w, (perform host c w).1, (perform host c w).2⟩ with
  | none =>
    rw [hr, Option.toList_none, List.append_nil] at hcalls
    rw [← hcalls]
    exact ⟨Turn.adapters_eq hidle rfl, hadmins⟩
  | some r =>
    -- the call itself registers nothing, as its caller is no admin
    have hmem : r ∈ ((Turn.call c).calls host w).registrations := by
      rw [hcalls, hr]
      exact List.mem_append_right _ List.mem_cons_self
    have hcall : c = .registerAdapter r.1 r.2 := (NestedCall.registration?_eq_some.mp hr).1
    have hadmin := hadmins r hmem
    rw [ha r.1 (by rw [hcall]; rfl)] at hadmin
    cases hadmin

/-! ### A vault that has turned calls away -/

/-- The vault after it has turned so many more calls away. -/
def Vault.turnedAway (v : Vault A) (n : Nat) : Vault A :=
  { v with metrics := { v.metrics with rejected := v.metrics.rejected + n } }

/-- The world after its vault has turned so many more calls away. -/
def World.turnedAway (w : World σ A) (n : Nat) : World σ A := w.mapVault (·.turnedAway n)

theorem World.turnedAway_zero (w : World σ A) : w.turnedAway 0 = w := rfl

theorem World.turnedAway_add (w : World σ A) (m n : Nat) :
    (w.turnedAway m).turnedAway n = w.turnedAway (m + n) := by
  unfold turnedAway mapVault Vault.turnedAway
  simp only [Nat.add_assoc]

/-- A log whose records have their places for numbers is what it becomes after an empty one.  By
induction on the log, from its end. -/
theorem EventLog.empty_resume {log : EventLog} (h : log.Numbered) :
    EventLog.empty.resume log = log := by
  obtain ⟨records⟩ := log
  induction records using List.reverseRecOn with
  | nil => rfl
  | append_singleton earlier last ih =>
    have hearlier : (EventLog.mk earlier).Numbered := by
      intro k record hk
      apply h k record
      show (earlier ++ [last])[k]? = _
      rw [List.getElem?_append_left (List.getElem?_eq_some_iff.mp hk).1]
      exact hk
    have hlast : last.sequence = (EventLog.mk earlier).next := by
      apply h earlier.length last
      exact List.getElem?_concat_length
    have hemit : EventLog.mk (earlier ++ [last]) =
        (EventLog.mk earlier).emit last.vault last.time last.event := by
      unfold EventLog.emit
      rw [← hlast]
    rw [hemit, resume_emit, ih hearlier]

/-- A vault without records that has turned calls away, and done nothing else. -/
def Vault.onlyTurnedAway (v : Vault A) (n : Nat) : Vault A :=
  { v with
    events := .empty
    metrics := { VaultMetrics.zero with rejected := n } }

/-- Calls that were turned away are a past like any other. -/
theorem Vault.after_onlyTurnedAway {v : Vault A} (h : v.events.Numbered) (v₀ : Vault A) (n : Nat) :
    v.after (v₀.onlyTurnedAway n) = v.turnedAway n := by
  have hmetrics : (v₀.onlyTurnedAway n).metrics.after v.metrics = (v.turnedAway n).metrics := by
    unfold VaultMetrics.after onlyTurnedAway turnedAway VaultMetrics.zero
    simp only [Nat.zero_add, Nat.add_comm n, Word.zero_addWrap]
  unfold after
  rw [hmetrics]
  show { v with events := EventLog.empty.resume v.events, metrics := _ } = _
  rw [EventLog.empty_resume h]
  rfl

/-- What is answered in a turn: the outcome of a call, or whether a vault could be restored. -/
def Turn.answer? (host : Host σ A) (w : World σ A) : Turn σ A → Option Outcome
  | .call c => some (perform host c w).1
  | .outside _ => none
  | .restore id adapters =>
    some ((Vault.restore w.store id (adapters.map fun a => (host.reference a, a))).map
      fun _ => .done)

/-- A turn comes to the same, and answers the same, however many calls the vault has turned away. -/
theorem Turn.play_turnedAway (host : Host σ A) (hn : w.vault.events.Numbered) (t : Turn σ A)
    (n : Nat) :
    (∃ m, t.play host (w.turnedAway n) = (t.play host w).turnedAway m) ∧
      t.answer? host (w.turnedAway n) = t.answer? host w := by
  cases t with
  | outside s => exact ⟨⟨n, rfl⟩, rfl⟩
  | restore id adapters =>
    refine ⟨?_, rfl⟩
    have hstore : (w.turnedAway n).store = w.store := rfl
    rw [play, play, hstore]
    cases Vault.restore w.store id (adapters.map fun a => (host.reference a, a)) with
    | error e => exact ⟨n, rfl⟩
    | ok v => exact ⟨0, rfl⟩
  | call c =>
    let past := w.vault.onlyTurnedAway n
    have hbefore : w.after past = w.turnedAway n :=
      congrArg (World.mk · w.store w.host) (w.vault.after_onlyTurnedAway hn _ n)
    have hnumbered : (perform host c w).2.vault.events.Numbered := (Turn.call c).numbered hn
    have hafter : (perform host c w).2.after past = (perform host c w).2.turnedAway n :=
      congrArg (World.mk · _ _) (Vault.after_onlyTurnedAway hnumbered _ n)
    have hperform := perform_after host past c w
    rw [hbefore, hafter] at hperform
    refine ⟨⟨n, congrArg Prod.snd hperform⟩, ?_⟩
    show some (perform host c (w.turnedAway n)).1 = _
    rw [hperform]
    rfl

/-! ### Powerless calls -/

/-- What a powerless call leaves is the count of calls that were turned away. -/
theorem Turn.play_powerless (host : Host σ A) (hidle : w.vault.entered = false)
    (h : t.powerless w = true) : ∃ n, t.play host w = w.turnedAway n := by
  cases t with
  | outside s => cases h
  | restore id adapters => cases h
  | call c =>
    obtain ⟨a, ha, hexcluded⟩ := Turn.powerless_call.mp h
    have hnone := AccessTable.hasRole_of_excludes hexcluded
    show ∃ n, (perform host c w).2 = _
    cases hm : c.mutates with
    | true =>
      have hp : c.pays = false := by
        cases c with
        | deposit caller amounts minShares deadline => cases ha
        | withdraw caller shares minAmounts recipient => cases ha
        | _ => rfl
      rcases hend : perform host c w with ⟨e | reply, w'⟩
      · exact ⟨1, Operation.eq_reject_of_refused hm hp hidle (perform_eq_error.mp hend)⟩
      · obtain ⟨_, effect, _, hcommits, _⟩ := perform_ok hm hend
        rcases hcommits.authority ha with hrole | ⟨hrole, _⟩
        · rw [hnone] at hrole
          cases hrole
        · rw [hnone] at hrole
          cases hrole
    | false =>
      cases c with
      | registerAdapter caller adapter =>
        cases ha
        have hcall : NestedCall.WhileBusy host ⟨.registerAdapter a adapter, w,
            (perform host (.registerAdapter a adapter) w).1,
            (perform host (.registerAdapter a adapter) w).2⟩ :=
          performWith_whileBusy nofun
        generalize (perform host (.registerAdapter a adapter) w).1 = outcome at hcall
        generalize (perform host (.registerAdapter a adapter) w).2 = w' at hcall ⊢
        cases hcall with
        | rejected guarded => cases guarded
        | registered admits =>
          obtain ⟨role, _, hrole⟩ := VaultGovernance.requireRole_eq_ok.mp admits
          rw [hnone] at hrole
          cases hrole
        | refused fails => exact ⟨0, rfl⟩
      | previewFees => cases ha
      | persist => cases ha
      | ask q => cases ha
      | _ => cases hm

/-- The turns of a run but for those that were powerless when their time came. -/
def purged (host : Host σ A) (w : World σ A) (turns : List (Turn σ A)) : List (Turn σ A) :=
  ((history host w turns).filter fun x => !x.2.powerless x.1).map Prod.snd

theorem purged_cons_powerless {rest : List (Turn σ A)} (h : t.powerless w = true) :
    purged host w (t :: rest) = purged host (t.play host w) rest := by
  unfold purged
  rw [history, List.filter_cons_of_neg (by simp [h])]

theorem purged_cons {rest : List (Turn σ A)} (h : t.powerless w = false) :
    purged host w (t :: rest) = t :: purged host (t.play host w) rest := by
  unfold purged
  rw [history, List.filter_cons_of_pos (by simp [h])]
  rfl

/-- A run without the powerless calls ends like the run with them, from a vault that may have turned
some more calls away.  By induction on the run. -/
theorem play_purged (host : Host σ A) (hidle : w.vault.entered = false)
    (hn : w.vault.events.Numbered) (turns : List (Turn σ A)) (n : Nat) :
    ∃ m, play host (w.turnedAway n) turns =
      (play host w (purged host (w.turnedAway n) turns)).turnedAway m := by
  induction turns generalizing w n with
  | nil => exact ⟨n, rfl⟩
  | cons t rest ih =>
    cases hpower : t.powerless (w.turnedAway n) with
    | true =>
      obtain ⟨k, hplay⟩ := Turn.play_powerless host (w := w.turnedAway n) hidle hpower
      rw [World.turnedAway_add] at hplay
      rw [purged_cons_powerless hpower]
      show ∃ m, play host (t.play host (w.turnedAway n)) rest = _
      rw [hplay]
      exact ih hidle hn (n + k)
    | false =>
      obtain ⟨⟨m, hplay⟩, _⟩ := t.play_turnedAway host hn n
      rw [purged_cons hpower]
      show ∃ m, play host (t.play host (w.turnedAway n)) rest = _
      rw [hplay]
      exact ih (t.idle hidle) (t.numbered hn) m

/-- The other turns answer the same in both. -/
theorem answers_purged (hidle : w.vault.entered = false) (hn : w.vault.events.Numbered)
    (turns : List (Turn σ A)) (n : Nat) :
    ((history host (w.turnedAway n) turns).filter fun x => !x.2.powerless x.1).map
        (fun x => x.2.answer? host x.1) =
      (history host w (purged host (w.turnedAway n) turns)).map fun x => x.2.answer? host x.1 := by
  induction turns generalizing w n with
  | nil => rfl
  | cons t rest ih =>
    cases hpower : t.powerless (w.turnedAway n) with
    | true =>
      obtain ⟨k, hplay⟩ := Turn.play_powerless host (w := w.turnedAway n) hidle hpower
      rw [World.turnedAway_add] at hplay
      rw [purged_cons_powerless hpower, history, List.filter_cons_of_neg (by simp [hpower]), hplay]
      exact ih hidle hn (n + k)
    | false =>
      obtain ⟨⟨m, hplay⟩, hanswer⟩ := t.play_turnedAway host hn n
      rw [purged_cons hpower, history, history, List.filter_cons_of_pos (by simp [hpower]),
        List.map_cons, List.map_cons, hanswer, hplay]
      exact congrArg (_ :: ·) (ih (t.idle hidle) (t.numbered hn) m)

/-! ### How an account has become an admin -/

/-- In some turns an account that was an admin at that moment has made this account one. -/
def Granted (host : Host σ A) (start : World σ A) (turns : List (Turn σ A)) (a : Account) : Prop :=
  ∃ earlier granter later reply, turns = earlier ++ .call (.grantRole granter a .admin) :: later ∧
    (perform host (.grantRole granter a .admin) (play host start earlier)).1 = .ok reply ∧
    (play host start earlier).vault.state.governance.access.hasRole granter .admin = true

theorem Granted.append (h : Granted host start turns a) (more : List (Turn σ A)) :
    Granted host start (turns ++ more) a := by
  obtain ⟨earlier, granter, later, reply, hsplit, hok, hadmin⟩ := h
  refine ⟨earlier, granter, later ++ more, reply, ?_, hok, hadmin⟩
  rw [hsplit, List.append_assoc, List.cons_append]

/-- Every other account that is an admin, in the vault or in a stored record, has been made one.  By
induction on the run, from its end. -/
theorem holdsAdmin_play
    (hstart : start.Holds fun record => ∀ a, a ≠ admin →
      record.governance.access.hasRole a .admin = false)
    (turns : List (Turn σ A)) :
    (play host start turns).Holds fun record => ∀ a, a ≠ admin →
      record.governance.access.hasRole a .admin = true → Granted host start turns a := by
  induction turns using List.reverseRecOn with
  | nil =>
    constructor
    · intro a hother hhas
      have hnone := hstart.vault a hother
      rw [show start.vault.record.governance.access.hasRole a .admin = true from hhas] at hnone
      cases hnone
    · intro id record hrecord a hother hhas
      rw [hstart.store id record hrecord a hother] at hhas
      cases hhas
  | append_singleton earlier t ih =>
    rw [play_append]
    refine t.holds_of ?_ ?_ ih
    · intro record hbefore a hother hhas
      exact (hbefore a hother hhas).append [t]
    · intro c effect hcall hok hcommits hbefore a hother hhas
      rcases hcommits.hasRole_granted hhas with hhad | ⟨granter, rfl, hadmin⟩
      · exact (hbefore a hother hhad).append [t]
      · exact ⟨earlier, granter, [], effect.output, by rw [hcall], hok, hadmin⟩

/-! ### The result -/

/-- What holds of authority over every run of a vault that was new with this admin. -/
structure AuthorityKept (host : Host σ A) (admin : Account) (start : World σ A)
    (turns : List (Turn σ A)) : Prop where
  /-- Without the calls to govern by accounts that hold no role at that moment, all other turns
  answer the same. -/
  answers :
    ((history host start turns).filter fun x => !x.2.powerless x.1).map
        (fun x => x.2.answer? host x.1) =
      (history host start (purged host start turns)).map fun x => x.2.answer? host x.1
  /-- The ledger and the governance end up the same. -/
  state :
    (play host start turns).vault.state = (play host start (purged host start turns)).vault.state
  /-- So does the log. -/
  events :
    (play host start turns).vault.events = (play host start (purged host start turns)).vault.events
  /-- So does everything else, the store and the surroundings included, but for the count of
  rejections. -/
  world : ∃ n, play host start turns = (play host start (purged host start turns)).turnedAway n
  /-- A call that no admin makes to govern leaves the reserved parameters, in force or waiting, the
  role table, the private flag and the allowlist as they were. -/
  rule : ∀ before c after, turns = before ++ .call c :: after →
    (∀ a, c.governor? = some a →
      (play host start before).vault.state.governance.access.hasRole a .admin = false) →
    (play host start before).vault.state.governance.SameRule
      (play host start (before ++ [.call c])).vault.state.governance
  /-- So it does with the sources of prices, but for those that outside code registers meanwhile for
  an admin. -/
  registry : ∀ before c after, turns = before ++ .call c :: after →
    (∀ a, c.governor? = some a →
      (play host start before).vault.state.governance.access.hasRole a .admin = false) →
    (play host start (before ++ [.call c])).vault.adapters =
        addSources host.reference (play host start before).vault.adapters
          (journal host c (play host start before)).registrations ∧
      ∀ r ∈ (journal host c (play host start before)).registrations,
        (play host start before).vault.state.governance.access.hasRole r.1 .admin = true
  /-- Whoever else is an admin was made one by an admin. -/
  granted : ∀ before after a, turns = before ++ after → a ≠ admin →
    (play host start before).vault.state.governance.access.hasRole a .admin = true →
    Granted host start before a

/-- A new vault has no other admin than its own. -/
theorem hasRole_create {id : Uuid} {config : VaultConfig} {schedule : FeeSchedule}
    {adapter : Reference × A} {now : Timestamp} {v : Vault A}
    (h : Vault.create id config admin schedule adapter now = .ok v) (hother : a ≠ admin) :
    v.state.governance.access.hasRole a .admin = false := by
  obtain ⟨governance, hnew, _, _, rfl⟩ := create_ok h
  obtain ⟨_, rfl⟩ := VaultGovernance.new_eq_ok.mp hnew
  show (AccessTable.withAdmin admin).hasRole a .admin = false
  unfold AccessTable.withAdmin
  rw [AccessTable.hasRole_add]
  simp only [hother, false_and, decide_false, Bool.false_or]
  rfl

/-- In every run of a new vault, whatever its collaborators do, authority is neither exercised nor
gained without a grant. -/
theorem authority_kept {id : Uuid} {config : VaultConfig} {schedule : FeeSchedule} {adapter : A}
    {s : σ} {v : Vault A}
    (created : Vault.create id config admin schedule (host.reference adapter, adapter)
      (host.now s) = .ok v) (turns : List (Turn σ A)) :
    AuthorityKept host admin ⟨v, .empty, s⟩ turns := by
  have hstart : Reachable host ⟨v, .empty, s⟩ := .create created
  have hnumbered : v.events.Numbered := by
    rw [(told_create created).2.1]
    exact EventLog.numbered_empty
  have hadmins : (⟨v, .empty, s⟩ : World σ A).Holds fun record => ∀ a, a ≠ admin →
      record.governance.access.hasRole a .admin = false :=
    ⟨fun a hother => hasRole_create created hother, .empty⟩
  obtain ⟨n, hworld⟩ :=
    play_purged host (w := ⟨v, .empty, s⟩) hstart.idle hnumbered turns 0
  rw [World.turnedAway_zero] at hworld
  refine ⟨?_, ?_, ?_, ⟨n, hworld⟩, ?_, ?_, ?_⟩
  · exact answers_purged (w := ⟨v, .empty, s⟩) hstart.idle hnumbered turns 0
  · exact congrArg (·.vault.state) hworld
  · exact congrArg (·.vault.events) hworld
  · intro before c after _ ha
    rw [play_append]
    exact Turn.sameRule ha
  · intro before c after _ ha
    rw [play_append]
    exact Turn.registry (hstart.play before).idle ha
  · intro before after a _ hother hhas
    exact (holdsAdmin_play hadmins before).vault a hother hhas

namespace SmallVault

/-- Mallory, who holds no role, asks to govern three times.  Bob is made a strategist, and sets
limits but no reserved parameter.  Carol is made an admin, and closes the vault. -/
def usurped : List (Turn InMemory Handle) :=
  [.call (.grantRole "mallory" "mallory" .admin),
    .call (.deposit "alice" [.saturate 128 1000] 0 0),
    .call (.stage "mallory" .managementFee (.rate 0)),
    .call (.grantRole "admin" "bob" .strategist),
    .call (.stage "bob" .protocolFee (.rate 0)),
    .call (.setDepositLimits "bob" .unlimited),
    .call (.registerAdapter "mallory" ⟨"par", 1⟩),
    .call (.grantRole "admin" "carol" .admin),
    .call (.setPrivate "carol" true)]

/-- The same turns without Mallory's. -/
def unusurped : List (Turn InMemory Handle) :=
  [.call (.deposit "alice" [.saturate 128 1000] 0 0),
    .call (.grantRole "admin" "bob" .strategist),
    .call (.stage "bob" .protocolFee (.rate 0)),
    .call (.setDepositLimits "bob" .unlimited),
    .call (.grantRole "admin" "carol" .admin),
    .call (.setPrivate "carol" true)]

end SmallVault

theorem authority_kept_usurped :
    AuthorityKept InMemory.host "admin" SmallVault.start SmallVault.usurped ∧
      purged InMemory.host SmallVault.start SmallVault.usurped = SmallVault.unusurped ∧
      (play InMemory.host SmallVault.start SmallVault.usurped).vault.state =
        (play InMemory.host SmallVault.start SmallVault.unusurped).vault.state ∧
      (play InMemory.host SmallVault.start
        SmallVault.usurped).vault.state.governance.privateVault = true ∧
      Granted InMemory.host SmallVault.start SmallVault.usurped "carol" := by
  have hkept : AuthorityKept InMemory.host "admin" SmallVault.start SmallVault.usurped :=
    authority_kept SmallVault.created SmallVault.usurped
  have hpurged : purged InMemory.host SmallVault.start SmallVault.usurped =
      SmallVault.unusurped := rfl
  have hstate := hkept.state
  rw [hpurged] at hstate
  have hcarol : (play InMemory.host SmallVault.start
      SmallVault.usurped).vault.state.governance.access.hasRole "carol" .admin = true := by
    decide +kernel
  refine ⟨hkept, hpurged, hstate, by decide +kernel, ?_⟩
  exact hkept.granted SmallVault.usurped [] "carol" (List.append_nil _).symm (by decide) hcarol

end ShareVault
