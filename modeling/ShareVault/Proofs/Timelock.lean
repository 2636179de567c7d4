import Mathlib.Data.List.Induction
import ShareVault.Proofs.Booking
import ShareVault.Proofs.Custody
import ShareVault.Proofs.Governance

/-!
# Timelocks over whole runs

A parameter changes its value only by a commit, and what is committed was staged at least the delay
before, with no operation on the parameter in between.  The proof follows the value that waits: in
every run without a restore it comes from a stage that no later operation on the parameter has
followed.

* `Turn.ActsOn` — a turn is an operation on a parameter, and succeeds;
* `Turn.moves`, `Turn.timelock_eq` — one turn and the timelock of a parameter;
* `StagedSince`, `stagedSince_play` — where a waiting value comes from;
* `CommitsInTime` — a commit of a value that has waited for the delay;
* `timelock_safety` — changes of a value, the fees charged before them, and commits after a
  rollback.
-/

namespace ShareVault

variable {σ A : Type} {host : Host σ A} {w start : World σ A} {t : Turn σ A} {p : Param}

/-! ### One turn -/

/-- The timelock of a parameter. -/
abbrev World.timelock (w : World σ A) (p : Param) : Timelocked p.Value :=
  w.vault.state.governance.params.get p

/-- The turn is an operation on the parameter, and succeeds. -/
def Turn.ActsOn (host : Host σ A) (w : World σ A) (p : Param) (t : Turn σ A) : Prop :=
  ∃ c reply, t = .call c ∧ c.param? = some p ∧ (perform host c w).1 = .ok reply

/-- What an operation on the parameter makes of its timelock. -/
theorem Turn.moves (h : t.ActsOn host w p) : ∃ c reply, t = .call c ∧
    (perform host c w).1 = .ok reply ∧
    w.vault.state.governance.Moves (host.now w.host) p c reply ((t.play host w).timelock p) := by
  obtain ⟨c, reply, rfl, hc, hok⟩ := h
  refine ⟨c, reply, rfl, hok, ?_⟩
  have hdoes := (Turn.call c).does host w
  generalize (Turn.call c).play host w = w' at hdoes
  cases hdoes with
  | commits idle outcome commits meanwhile =>
    rw [outcome] at hok
    cases hok
    exact commits.moves hc
  | leaves fails meanwhile =>
    have hm : c.mutates = true := by
      cases c with
      | stage caller q value => rfl
      | commit caller q => rfl
      | rollback caller q => rfl
      | _ => cases hc
    obtain ⟨e, he⟩ := fails hm
    rw [he] at hok
    cases hok

/-- Every other turn, if it restores no vault, leaves the timelock alone. -/
theorem Turn.timelock_eq (hkept : t.restores = false) (h : ¬ t.ActsOn host w p) :
    (t.play host w).timelock p = w.timelock p := by
  have hdoes := t.does host w
  generalize t.play host w = w' at hdoes
  cases hdoes with
  | @commits c effect w₁ idle outcome commits meanwhile =>
    exact commits.timelock_eq fun hc => h ⟨c, effect.output, rfl, hc, outcome⟩
  | leaves fails meanwhile =>
    exact congrArg (fun s => s.governance.params.get p) meanwhile.vault.state_eq
  | outside => rfl
  | restores restored => cases hkept
  | refuses => rfl

theorem Turn.settings_eq (hkept : t.restores = false) :
    (t.play host w).vault.state.governance.settings = w.vault.state.governance.settings := by
  have hdoes := t.does host w
  generalize t.play host w = w' at hdoes
  cases hdoes with
  | commits idle outcome commits meanwhile => exact commits.settings_eq
  | leaves fails meanwhile =>
    exact congrArg (fun s => s.governance.settings) meanwhile.vault.state_eq
  | outside => rfl
  | restores restored => cases hkept
  | refuses => rfl

/-! ### Where a waiting value comes from -/

/-- A turn that stages a value of the parameter's kind. -/
abbrev Turn.stage (stager : Account) (p : Param) (value : p.Value) : Turn σ A :=
  .call (.stage stager p (.ofKind p.kind value))

/-- After the turns `earlier` the value was staged with success, and in the turns `since` after
that no operation on the parameter has succeeded. -/
structure StagedSince (host : Host σ A) (start : World σ A) (p : Param) (value : p.Value)
    (stager : Account) (earlier since : List (Turn σ A)) : Prop where
  staged : ∃ readyAt, (perform host (.stage stager p (.ofKind p.kind value))
    (play host start earlier)).1 = .ok (.staged readyAt)
  quiet : ∀ x ∈ history host (play host start (earlier ++ [.stage stager p value])) since,
    ¬ x.2.ActsOn host x.1 p

theorem settings_play {turns : List (Turn σ A)} (hkept : ∀ t ∈ turns, t.restores = false) :
    (play host start turns).vault.state.governance.settings =
      start.vault.state.governance.settings := by
  induction turns generalizing start with
  | nil => rfl
  | cons t rest ih =>
    rw [List.forall_mem_cons] at hkept
    exact (ih hkept.2).trans (Turn.settings_eq hkept.1)

/-- A value that waits was staged in the course of the run, and no operation on its parameter has
succeeded since.  By induction on the run from its end: the last turn has staged the value, or it
has left the timelock alone. -/
theorem stagedSince_play {turns : List (Turn σ A)} {value : p.Value}
    (hkept : ∀ t ∈ turns, t.restores = false) (hstart : (start.timelock p).staged = none)
    (hwaits : ((play host start turns).timelock p).staged = some value) :
    ∃ earlier stager since, turns = earlier ++ .stage stager p value :: since ∧
      StagedSince host start p value stager earlier since ∧
      ((play host start turns).timelock p).readyAt =
        Timelocked.readyTime (host.now (play host start earlier).host)
          start.vault.state.governance.settings.delay := by
  induction turns using List.reverseRecOn with
  | nil =>
    rw [play, hstart] at hwaits
    cases hwaits
  | append_singleton turns t ih =>
    rw [List.forall_mem_append, List.forall_mem_singleton] at hkept
    rw [play_append, play, play] at hwaits ⊢
    by_cases hacts : t.ActsOn host (play host start turns) p
    · obtain ⟨c, reply, rfl, hok, hmoves⟩ := Turn.moves hacts
      generalize ((Turn.call c).play host (play host start turns)).timelock p = lock
        at hmoves hwaits
      cases hmoves with
      | @stages stager _ authorized =>
        cases hwaits
        refine ⟨turns, stager, [], rfl, ⟨⟨_, hok⟩, fun x hx => by cases hx⟩, ?_⟩
        rw [settings_play hkept.1]
        rfl
      | commits authorized waits ready => cases hwaits
      | drops authorized => cases hwaits
    · rw [Turn.timelock_eq hkept.2 hacts] at hwaits ⊢
      obtain ⟨earlier, stager, since, rfl, hsince, hready⟩ := ih hkept.1 hwaits
      refine ⟨earlier, stager, since ++ [t], by simp, ⟨hsince.staged, ?_⟩, hready⟩
      rw [history_append, List.forall_mem_append]
      refine ⟨hsince.quiet, List.forall_mem_singleton.mpr ?_⟩
      rw [← play_append, List.append_assoc]
      exact hacts

/-! ### What lasts until the next operation -/

/-- The turn puts a waiting value of the parameter in force. -/
def Turn.PutsInForce (host : Host σ A) (w : World σ A) (p : Param) (t : Turn σ A) : Prop :=
  ∃ caller reply, t = .call (.commit caller p) ∧ (perform host (.commit caller p) w).1 = .ok reply

/-- The turn stages a value for the parameter. -/
def Turn.Stages (host : Host σ A) (w : World σ A) (p : Param) (t : Turn σ A) : Prop :=
  ∃ stager value reply, t = .call (.stage stager p value) ∧
    (perform host (.stage stager p value) w).1 = .ok reply

/-- Only a commit changes the value in force. -/
theorem Turn.active_eq (hkept : t.restores = false) (h : ¬ t.PutsInForce host w p) :
    ((t.play host w).timelock p).active = (w.timelock p).active := by
  by_cases hacts : t.ActsOn host w p
  · obtain ⟨c, reply, rfl, hok, hmoves⟩ := Turn.moves hacts
    generalize ((Turn.call c).play host w).timelock p = lock at hmoves
    cases hmoves with
    | stages authorized => rfl
    | commits authorized waits ready => exact (h ⟨_, _, rfl, hok⟩).elim
    | drops authorized => rfl
  · rw [Turn.timelock_eq hkept hacts]

/-- Only a stage makes a value wait. -/
theorem Turn.staged_eq_none (hkept : t.restores = false) (h : ¬ t.Stages host w p)
    (hnone : (w.timelock p).staged = none) : ((t.play host w).timelock p).staged = none := by
  by_cases hacts : t.ActsOn host w p
  · obtain ⟨c, reply, rfl, hok, hmoves⟩ := Turn.moves hacts
    generalize ((Turn.call c).play host w).timelock p = lock at hmoves
    cases hmoves with
    | stages authorized => exact (h ⟨_, _, _, rfl, hok⟩).elim
    | commits authorized waits ready => rfl
    | drops authorized => rfl
  · rw [Turn.timelock_eq hkept hacts]
    exact hnone

theorem active_play {turns : List (Turn σ A)} (hkept : ∀ t ∈ turns, t.restores = false)
    (h : ∀ x ∈ history host w turns, ¬ x.2.PutsInForce host x.1 p) :
    ((play host w turns).timelock p).active = (w.timelock p).active := by
  induction turns generalizing w with
  | nil => rfl
  | cons t rest ih =>
    rw [List.forall_mem_cons] at hkept
    rw [history, List.forall_mem_cons] at h
    exact (ih hkept.2 h.2).trans (Turn.active_eq hkept.1 h.1)

theorem staged_play_eq_none {turns : List (Turn σ A)} (hkept : ∀ t ∈ turns, t.restores = false)
    (h : ∀ x ∈ history host w turns, ¬ x.2.Stages host x.1 p)
    (hnone : (w.timelock p).staged = none) : ((play host w turns).timelock p).staged = none := by
  induction turns generalizing w with
  | nil => exact hnone
  | cons t rest ih =>
    rw [List.forall_mem_cons] at hkept
    rw [history, List.forall_mem_cons] at h
    exact ih hkept.2 h.2 (Turn.staged_eq_none hkept.1 h.1 hnone)

/-! ### The result -/

/-- After the turns `before`, the turn `t` is a commit by somebody who may act on the parameter.
The new value was staged at least the delay before, and since then no operation on the parameter has
succeeded. -/
def CommitsInTime (host : Host σ A) (start : World σ A) (before : List (Turn σ A)) (t : Turn σ A)
    (p : Param) (delay : Timestamp) : Prop :=
  ∃ caller value earlier stager since,
    t = .call (.commit caller p) ∧
    (perform host (.commit caller p) (play host start before)).1 =
      .ok (.committed (.ofKind p.kind value)) ∧
    ((t.play host (play host start before)).timelock p).active = value ∧
    (play host start before).vault.state.governance.Authorized caller p ∧
    before = earlier ++ .stage stager p value :: since ∧
    StagedSince host start p value stager earlier since ∧
    max 1 (min ((host.now (play host start earlier).host).toNat + delay.toNat)
      (Word.largest 64).toNat) ≤ (host.now (play host start before).host).toNat

/-- What the timelock of a parameter promises of a run. -/
structure TimelockKept (host : Host σ A) (start : World σ A) (turns : List (Turn σ A)) (p : Param)
    (delay : Timestamp) : Prop where
  /-- A turn that changes the value in force is a commit that has waited. -/
  changes : ∀ before t after, turns = before ++ t :: after →
    ((t.play host (play host start before)).timelock p).active ≠
      ((play host start before).timelock p).active →
    CommitsInTime host start before t p delay
  /-- As long as no commit of the parameter has succeeded, the schedule by which fees are charged
  and previewed has the value that is in force later.  The fees are those that are due by this
  schedule, and what a deposit or a withdrawal commits has just these fees in it. -/
  charges : ∀ front c back after reply w, turns = front ++ .call c :: back ++ after →
    play host start front = w → c.priced = true → (perform host c w).1 = .ok reply →
    (∀ x ∈ history host w (.call c :: back), ¬ x.2.PutsInForce host x.1 p) →
    w.vault.state.governance.schedule.get p =
        ((play host start (front ++ .call c :: back)).timelock p).active ∧
      c.ChargesDue host w (perform host c w)
  /-- After a rollback every commit fails until a value is staged again. -/
  rollback : ∀ before caller between committer after reply,
    turns = before ++ .call (.rollback caller p) :: between ++
      .call (.commit committer p) :: after →
    (perform host (.rollback caller p) (play host start before)).1 = .ok reply →
    (∀ x ∈ history host (play host start (before ++ [.call (.rollback caller p)])) between,
      ¬ x.2.Stages host x.1 p) →
    ∃ e, (perform host (.commit committer p)
      (play host start (before ++ .call (.rollback caller p) :: between))).1 = .error e

theorem schedule_get (w : World σ A) (p : Param) :
    w.vault.state.governance.schedule.get p = (w.timelock p).active :=
  FeeSchedule.get_ofValues _ p

/-- A commit of a value that waits for nothing fails. -/
theorem commit_fails {committer : Account} (hnone : (w.timelock p).staged = none) :
    ∃ e, (perform host (.commit committer p) w).1 = .error e := by
  cases hok : (perform host (.commit committer p) w).1 with
  | error e => exact ⟨e, rfl⟩
  | ok reply =>
    have hacts : (Turn.call (.commit committer p)).ActsOn host w p := ⟨_, _, rfl, rfl, hok⟩
    obtain ⟨c, _, hc, _, hmoves⟩ := Turn.moves hacts
    cases hc
    generalize ((Turn.call (.commit committer p)).play host w).timelock p = lock at hmoves
    cases hmoves with
    | commits authorized waits ready =>
      rw [hnone] at waits
      cases waits

theorem toNat_readyTime (now delay : Timestamp) : (Timelocked.readyTime now delay).toNat =
    max 1 (min (now.toNat + delay.toNat) (Word.largest 64).toNat) := by
  unfold Timelocked.readyTime
  rw [Word.toNat_max, Word.toNat_addSat]
  rfl

/-- A world that a run leads to and in which nothing waits keeps the promises in every run without a
restore. -/
theorem timelockKept {turns : List (Turn σ A)} (hreached : Reachable host start)
    (hkept : ∀ t ∈ turns, t.restores = false) (hstart : (start.timelock p).staged = none) :
    TimelockKept host start turns p start.vault.state.governance.settings.delay where
  changes before t after hsplit hchanges := by
    rw [hsplit, List.forall_mem_append, List.forall_mem_cons] at hkept
    obtain ⟨hbefore, ht, _⟩ := hkept
    have hputs : t.PutsInForce host (play host start before) p :=
      Classical.byContradiction fun h => hchanges (Turn.active_eq ht h)
    unfold CommitsInTime
    obtain ⟨caller, reply, rfl, hok⟩ := hputs
    obtain ⟨c, _, hc, hok', hmoves⟩ := Turn.moves (p := p) ⟨_, reply, rfl, rfl, hok⟩
    cases hc
    generalize hlock : ((Turn.call (.commit caller p)).play host
      (play host start before)).timelock p = lock at hmoves
    cases hmoves with
    | @commits _ value authorized waits ready =>
      obtain ⟨earlier, stager, since, hturns, hsince, hready⟩ :=
        stagedSince_play hbefore hstart waits
      refine ⟨caller, value, earlier, stager, since, rfl, hok', rfl, authorized, hturns, hsince, ?_⟩
      rw [← toNat_readyTime, ← hready]
      exact ready
  charges front c back after reply w hsplit hw hpriced hok hquiet := by
    subst hw
    rw [hsplit, List.forall_mem_append, List.forall_mem_append] at hkept
    refine ⟨?_, perform_charges (hreached.play front).sound.ledger hpriced hok⟩
    rw [schedule_get, play_append, active_play hkept.1.2 hquiet]
  rollback before caller between committer after reply hsplit hok hquiet := by
    rw [hsplit, List.forall_mem_append, List.forall_mem_append, List.forall_mem_cons] at hkept
    obtain ⟨c, _, hc, _, hmoves⟩ := Turn.moves (p := p) ⟨_, reply, rfl, rfl, hok⟩
    cases hc
    have hdropped : ((play host start (before ++ [.call (.rollback caller p)])).timelock p).staged =
        none := by
      rw [play_append]
      show (((Turn.call (.rollback caller p)).play host
        (play host start before)).timelock p).staged = none
      generalize ((Turn.call (.rollback caller p)).play host
        (play host start before)).timelock p = lock at hmoves ⊢
      cases hmoves with
      | drops authorized => rfl
    refine commit_fails ?_
    rw [List.append_cons, play_append]
    exact staged_play_eq_none hkept.1.2.2 hquiet hdropped

/-- A new vault has the settings of its setup and the values of its schedule, and none waits. -/
theorem create_governance {id : Uuid} {config : VaultConfig} {admin : Account}
    {schedule : FeeSchedule} {adapter : Reference × A} {now : Timestamp} {v : Vault A}
    (h : Vault.create id config admin schedule adapter now = .ok v) :
    v.state.governance.settings = config.settings ∧
      ∀ p, v.state.governance.params.get p = .new (schedule.get p) := by
  obtain ⟨governance, hnew, _, _, rfl⟩ := create_ok h
  obtain ⟨hparams, hsettings⟩ := VaultGovernance.new_ok hnew
  refine ⟨hsettings, fun p => ?_⟩
  show governance.params.get p = _
  rw [hparams, FeeParameters.get_new]

theorem create_staged_eq_none {id : Uuid} {config : VaultConfig} {admin : Account}
    {schedule : FeeSchedule} {adapter : Reference × A} {now : Timestamp} {v : Vault A}
    (h : Vault.create id config admin schedule adapter now = .ok v) (s : σ) (p : Param) :
    ((⟨v, .empty, s⟩ : World σ A).timelock p).staged = none :=
  congrArg Timelocked.staged ((create_governance h).2 p)

/-- The timelock of every parameter keeps its promises in every run of a new vault, whoever calls,
whatever the clock shows and whatever outside code does. -/
theorem timelock_safety {id : Uuid} {config : VaultConfig} {admin : Account}
    {schedule : FeeSchedule} {adapter : A} {s : σ} {v : Vault A} {turns : List (Turn σ A)}
    (created : Vault.create id config admin schedule (host.reference adapter, adapter)
      (host.now s) = .ok v)
    (hkept : ∀ t ∈ turns, t.restores = false) (p : Param) :
    TimelockKept host ⟨v, .empty, s⟩ turns p config.settings.delay := by
  rw [← (create_governance created).1]
  exact timelockKept (.create created) hkept (create_staged_eq_none created s p)

namespace SmallVault

/-- The admin halves the management fee, Alice is charged for a year before the change is in force,
and the admin drops another change. -/
def feeChange : List (Turn InMemory Handle) :=
  [.stage "admin" .managementFee (.saturate 128 50000000),
    .call (.deposit "alice" [.saturate 128 1000] 0 0),
    .outside (surroundings 1 1000 0),
    hundredLess,
    .call (.commit "admin" .managementFee),
    .stage "admin" .managementFee (.saturate 128 0),
    .call (.rollback "admin" .managementFee),
    .outside (surroundings 2 1000 0),
    .call (.commit "admin" .managementFee)]

/-- The vault after so many of these turns. -/
def feeChangeAfter (n : Nat) : World InMemory Handle :=
  play InMemory.host SmallVault.start (feeChange.take n)

end SmallVault

/-- Alice has a thousand shares and is charged a tenth of them for the year, although half of that
rate waits already. -/
theorem timelock_safety_fee_change :
    TimelockKept InMemory.host SmallVault.start SmallVault.feeChange .managementFee
        SmallVault.config.settings.delay ∧
      (∃ caller value earlier stager since,
        Turn.call (.commit "admin" .managementFee) =
          (.call (.commit caller .managementFee) : Turn InMemory Handle) ∧
        ((SmallVault.feeChangeAfter 5).timelock .managementFee).active = value ∧
        SmallVault.feeChange.take 4 = earlier ++ .stage stager .managementFee value :: since ∧
        StagedSince InMemory.host SmallVault.start .managementFee value stager earlier since) ∧
      ((SmallVault.feeChangeAfter 3).vault.state.governance.schedule.managementFee =
          .saturate 128 100000000 ∧
        ((SmallVault.feeChangeAfter 4).vault.state.ledger.balanceOf "strategy").toNat = 100 ∧
        SmallVault.hundredOut.ChargesDue InMemory.host (SmallVault.feeChangeAfter 3)
          (perform InMemory.host SmallVault.hundredOut (SmallVault.feeChangeAfter 3))) ∧
      ∃ e, (perform InMemory.host (.commit "admin" .managementFee)
        (SmallVault.feeChangeAfter 8)).1 = .error e := by
  have hkept : ∀ t ∈ SmallVault.feeChange, t.restores = false := by decide
  have hsafe := timelock_safety SmallVault.created hkept .managementFee
  refine ⟨hsafe, ?_, ?_, ?_⟩
  · have hchanges : (SmallVault.feeChangeAfter 5).vault.state.governance.schedule.managementFee ≠
        (SmallVault.feeChangeAfter 4).vault.state.governance.schedule.managementFee := by
      decide +kernel
    obtain ⟨caller, value, earlier, stager, since, hcall, _, hvalue, _, hturns, hsince, _⟩ :=
      hsafe.changes (SmallVault.feeChange.take 4) _ _ rfl hchanges
    exact ⟨caller, value, earlier, stager, since, hcall, hvalue, hturns, hsince⟩
  · have hwithdraws : (perform InMemory.host SmallVault.hundredOut
        (SmallVault.feeChangeAfter 3)).1 = .ok (.withdrawn [.saturate 128 90]) := rfl
    have hquiet : ∀ x ∈ history InMemory.host (SmallVault.feeChangeAfter 3)
        [SmallVault.hundredLess], ¬ x.2.PutsInForce InMemory.host x.1 .managementFee := by
      rw [history, history, List.forall_mem_singleton]
      rintro ⟨_, _, hcall, _⟩
      cases hcall
    obtain ⟨hrate, hcharges⟩ := hsafe.charges (SmallVault.feeChange.take 3) _ [] _ _ _ rfl rfl rfl
      hwithdraws hquiet
    exact ⟨hrate, by decide +kernel, hcharges⟩
  · refine hsafe.rollback (SmallVault.feeChange.take 6) "admin"
      [.outside (SmallVault.surroundings 2 1000 0)] "admin" [] (.rolledBack true) rfl rfl ?_
    rw [history, history, List.forall_mem_singleton]
    rintro ⟨_, _, _, hcall, _⟩
    cases hcall

end ShareVault
