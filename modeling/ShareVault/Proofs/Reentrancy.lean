import ShareVault.Proofs.Custody
import ShareVault.Proofs.Errors
import ShareVault.Proofs.Journal
import ShareVault.Simulation

/-!
# Calls from inside a call

While a call is priced, outside code may call the vault any number of times.  Such calls come to
nothing but what the vault is meant to allow, and the call in progress comes to what it would have
come to if outside code had given the same answers without calling.

* `Vault.busyReply` — what a busy vault replies;
* `NestedCall.WhileBusy` — all that a call on a busy vault can do;
* `Vault.attend` — a vault after the calls in a journal;
* `Host.silenced` — collaborators that give the same answers without calling;
* `Hushed` — what a run beside a journal has in common with a run without calls;
* `callbacks_harmless` — the result.
-/

namespace ShareVault

variable {σ A α : Type}

/-! ### A call on a busy vault -/

/-- The reply of a vault that is busy. -/
def Vault.busyReply (v : Vault A) (store : VaultStore) : Call A → Outcome
  | .registerAdapter caller _ =>
    ((v.state.governance.requireRole caller [.admin]).mapError .governance).map fun _ => .done
  | .persist => (v.persist store).map fun _ => .done
  | .ask q => .ok (.answer (v.answer q))
  | _ => .error .reentrant

/-- All that a call can do while the vault is busy. -/
inductive NestedCall.WhileBusy (host : Host σ A) : NestedCall σ A → Prop where
  | rejected {c : Call A} {w : World σ A} (guarded : c.guarded = true) :
      WhileBusy host ⟨c, w, .error .reentrant, w.mapVault .reject⟩
  | registered {caller : Account} {adapter : A} {w : World σ A}
      (admin : w.vault.state.governance.requireRole caller [.admin] = .ok ()) :
      WhileBusy host ⟨.registerAdapter caller adapter, w, .ok .done, w.mapVault fun v =>
        { v with adapters := v.adapters.insert (host.reference adapter) adapter }⟩
  | refused {caller : Account} {adapter : A} {w : World σ A} {e : GovernanceError}
      (fails : w.vault.state.governance.requireRole caller [.admin] = .error e) :
      WhileBusy host ⟨.registerAdapter caller adapter, w, .error (.governance e), w⟩
  | persisted {w : World σ A} {store : VaultStore} (writes : w.vault.persist w.store = .ok store) :
      WhileBusy host ⟨.persist, w, .ok .done, { w with store := store }⟩
  | unwritten {w : World σ A} {e : VaultError} (fails : w.vault.persist w.store = .error e) :
      WhileBusy host ⟨.persist, w, .error e, w⟩
  | answered {q : Query} {w : World σ A} :
      WhileBusy host ⟨.ask q, w, .ok (.answer (w.vault.answer q)), w⟩

section OneCall

variable {nested : Performer σ A} {host : Host σ A} {w : World σ A}

/-- A call that goes through the guard is turned away when the vault is busy. -/
theorem performWith_guarded {c : Call A} (hc : c.guarded = true) (hbusy : w.vault.entered = true) :
    performWith nested host c w = (.error .reentrant, w.mapVault .reject) := by
  refine performWith_of_error ?_
  cases c with
  | registerAdapter caller adapter => cases hc
  | persist => cases hc
  | ask q => cases hc
  | previewFees => exact Operation.guarded_busy hbusy _
  | _ =>
    -- the others begin with the guard
    simp only [Operation.ofCall, Operation.deposit, Operation.withdraw, Operation.transfer,
      Operation.stage, Operation.commit, Operation.rollback, Operation.grantRole,
      Operation.revokeRole, Operation.setDepositLimits, Operation.setPrivate,
      Operation.setDepositorAllowed, Operation.govern, Operation.mutate_busy hbusy]

/-- The calls that go around the guard do the same in a vault that is not busy. -/
theorem performWith_whileBusy {c : Call A} (hbusy : c.guarded = true → w.vault.entered = true) :
    NestedCall.WhileBusy host
      ⟨c, w, (performWith nested host c w).1, (performWith nested host c w).2⟩ := by
  cases hc : c.guarded with
  | true =>
    rw [performWith_guarded hc (hbusy hc)]
    exact .rejected hc
  | false =>
    cases c with
    | registerAdapter caller adapter =>
      cases hrole : w.vault.state.governance.requireRole caller [.admin] with
      | ok u =>
        have hregisters : Operation.ofCall nested host (.registerAdapter caller adapter) w =
            .ok .done (w.mapVault fun v =>
              { v with adapters := v.adapters.insert (host.reference adapter) adapter }) := by
          simp only [Operation.ofCall, Operation.registerAdapter, Effectful.bind_eq_ok,
            Effectful.get_eq_ok, Operation.lift_eq_ok, Effectful.set_eq_ok, Effectful.pure_eq_ok]
          exact ⟨w, w, ⟨rfl, rfl⟩, (), w, ⟨Attempt.mapError_eq_ok.mpr hrole, rfl⟩, (), _, rfl,
            trivial, rfl⟩
        rw [performWith_of_ok hregisters]
        exact .registered hrole
      | error e =>
        have hrefuses : Operation.ofCall nested host (.registerAdapter caller adapter) w =
            .error (.governance e) w := by
          simp only [Operation.ofCall, Operation.registerAdapter, Effectful.bind_eq_error,
            Effectful.get_eq_ok, Operation.lift_eq_error]
          exact .inr ⟨w, w, ⟨rfl, rfl⟩, .inl ⟨Attempt.mapError_eq_error.mpr ⟨e, hrole, rfl⟩, rfl⟩⟩
        rw [performWith_of_error hrefuses]
        exact .refused hrole
    | persist =>
      cases hstore : w.vault.persist w.store with
      | ok store =>
        have hwrites : Operation.ofCall nested host .persist w =
            .ok .done { w with store := store } := by
          simp only [Operation.ofCall, Operation.persist, Effectful.bind_eq_ok,
            Effectful.get_eq_ok, Operation.lift_eq_ok, Effectful.set_eq_ok, Effectful.pure_eq_ok]
          exact ⟨w, w, ⟨rfl, rfl⟩, store, w, ⟨hstore, rfl⟩, (), _, rfl, trivial, rfl⟩
        rw [performWith_of_ok hwrites]
        exact .persisted hstore
      | error e =>
        have hfails : Operation.ofCall nested host .persist w = .error e w := by
          simp only [Operation.ofCall, Operation.persist, Effectful.bind_eq_error,
            Effectful.get_eq_ok, Operation.lift_eq_error]
          exact .inr ⟨w, w, ⟨rfl, rfl⟩, .inl ⟨hstore, rfl⟩⟩
        rw [performWith_of_error hfails]
        exact .unwritten hstore
    | ask q => exact .answered
    | _ => cases hc

end OneCall

/-! ### A journal of such calls -/

/-- Who has registered a source of prices by a call, and which. -/
def NestedCall.registration? (e : NestedCall σ A) : Option (Account × A) :=
  match e.call, e.outcome with
  | .registerAdapter caller adapter, .ok _ => some (caller, adapter)
  | _, _ => none

/-- The sources of prices that were registered, the first one first. -/
def Journal.registrations (written : Journal σ A) : List (Account × A) :=
  written.filterMap NestedCall.registration?

/-- The number of calls that went through the guard. -/
def Journal.guarded (written : Journal σ A) : Nat := written.countP (·.call.guarded)

/-- Sources of prices with some more, in order. -/
def addSources (reference : A → Reference) (known : SortedMap Reference A)
    (added : List (Account × A)) : SortedMap Reference A :=
  added.foldl (fun known r => known.insert (reference r.2) r.2) known

/-- A vault after calls that were made while it was busy: it knows the sources of prices that were
registered, and has counted the calls that it turned away. -/
def Vault.attend (reference : A → Reference) (v : Vault A) (written : Journal σ A) : Vault A :=
  { v with
    adapters := addSources reference v.adapters written.registrations
    metrics := { v.metrics with rejected := v.metrics.rejected + written.guarded } }

theorem Vault.attend_append (reference : A → Reference) (v : Vault A)
    (written more : Journal σ A) :
    v.attend reference (written ++ more) = (v.attend reference written).attend reference more := by
  unfold attend Journal.registrations Journal.guarded addSources
  rw [List.filterMap_append, List.foldl_append, List.countP_append, Nat.add_assoc]

/-- Events that are observed leave the count of rejections alone. -/
theorem VaultMetrics.observe_rejected (events : List VaultEvent) (m : VaultMetrics) (n : Nat) :
    events.foldl observe { m with rejected := m.rejected + n } =
      { events.foldl observe m with rejected := (events.foldl observe m).rejected + n } := by
  induction events generalizing m with
  | nil => rfl
  | cons event rest ih =>
    have hevent : observe { m with rejected := m.rejected + n } event =
        { observe m event with rejected := (observe m event).rejected + n } := by
      cases event <;> rfl
    rw [List.foldl_cons, List.foldl_cons, hevent]
    exact ih _

/-- Such calls make no difference to what an operation commits. -/
theorem Vault.commit_attend (reference : A → Reference) (v : Vault A) (written : Journal σ A)
    (state : VaultState) (now : Timestamp) (events : List VaultEvent) :
    (v.attend reference written).commit state now events =
      (v.commit state now events).attend reference written := by
  unfold commit attend
  dsimp only
  rw [VaultMetrics.observe_rejected]
  rfl

theorem Vault.reject_attend (reference : A → Reference) (v : Vault A) (written : Journal σ A) :
    (v.attend reference written).reject = v.reject.attend reference written := by
  unfold reject attend VaultMetrics.recordRejection
  dsimp only
  rw [Nat.add_right_comm]

namespace NestedCall.WhileBusy

variable {host : Host σ A} {e : NestedCall σ A}

theorem outcome_eq (h : e.WhileBusy host) :
    e.outcome = e.before.vault.busyReply e.before.store e.call := by
  cases h with
  | @rejected c w guarded =>
    cases c with
    | registerAdapter caller adapter => cases guarded
    | persist => cases guarded
    | ask q => cases guarded
    | _ => rfl
  | registered admin =>
    simp only [Vault.busyReply, admin]
    rfl
  | refused fails =>
    simp only [Vault.busyReply, fails]
    rfl
  | persisted writes =>
    simp only [Vault.busyReply, writes]
    rfl
  | unwritten fails =>
    simp only [Vault.busyReply, fails]
    rfl
  | answered => rfl

theorem host_eq (h : e.WhileBusy host) : e.after.host = e.before.host := by
  cases h <;> rfl

theorem of_guarded (h : e.WhileBusy host) (hc : e.call.guarded = true) :
    e.outcome = .error .reentrant ∧ e.after = e.before.mapVault .reject := by
  cases h with
  | rejected guarded => exact ⟨rfl, rfl⟩
  | _ => cases hc

theorem of_ask {q : Query} (h : e.WhileBusy host) (hc : e.call = .ask q) :
    e.outcome = .ok (.answer (e.before.vault.answer q)) ∧ e.after = e.before := by
  cases h with
  | answered =>
    cases hc
    exact ⟨rfl, rfl⟩
  | @rejected c w guarded =>
    obtain rfl : c = .ask q := hc
    cases guarded
  | _ => cases hc

/-- The vault after one call. -/
theorem attend_eq (h : e.WhileBusy host) :
    e.after.vault = e.before.vault.attend host.reference [e] := by
  cases h with
  | @rejected c w guarded =>
    cases c with
    | registerAdapter caller adapter => cases guarded
    | persist => cases guarded
    | ask q => cases guarded
    | _ => rfl
  | _ => rfl

end NestedCall.WhileBusy

/-- What a vault attended to in this way is attended to. -/
theorem Vault.attended_attend (reference : A → Reference) (v : Vault A) (written : Journal σ A) :
    v.Attended (v.attend reference written) := ⟨_, _, rfl⟩

/-- Whether a vault can be written does not depend on the store. -/
theorem Vault.persist_done (v : Vault A) (store store' : VaultStore) :
    (v.persist store').map (fun _ => Reply.done) = (v.persist store).map fun _ => Reply.done := by
  unfold persist VaultStore.put
  cases VaultStore.bytesOf v.record.config with
  | error e => rfl
  | ok config =>
    cases VaultStore.bytesOf v.record.ledger with
    | error e => rfl
    | ok ledger =>
      cases VaultStore.bytesOf v.record.governance with
      | error e => rfl
      | ok governance => rfl

/-- While the vault is busy its replies are the same all the time. -/
theorem Vault.Attended.busyReply_eq {v v' : Vault A} (h : v.Attended v') (store store' : VaultStore)
    (c : Call A) : v'.busyReply store' c = v.busyReply store c := by
  cases c with
  | persist =>
    simp only [busyReply, h.persist_eq]
    exact v.persist_done store store'
  | _ =>
    obtain ⟨_, _, rfl⟩ := h
    rfl

/-- While the vault is busy its answers are the same as before. -/
theorem Vault.Attended.answer_eq {v v' : Vault A} (h : v.begin.Attended v') (q : Query) :
    v'.answer q = v.answer q := by
  obtain ⟨_, _, rfl⟩ := h
  cases q <;> rfl

/-! ### Silent collaborators -/

/-- The answer that a script comes to when its calls get these replies, and the state it leaves. -/
def Script.resolve (reply : Call A → Outcome) : Script σ A α → α × σ
  | .answer a host => (a, host)
  | .call c host resume => (resume (reply c) host).resolve reply

/-- A script that gives its answer without calling. -/
def Script.silent (reply : Call A → Outcome) (script : Script σ A α) : Script σ A α :=
  let resolved := script.resolve reply
  .answer resolved.1 resolved.2

/-- Collaborators that never call, and answer what these would answer when their calls got these
replies. -/
def Host.silent (host : Host σ A) (reply : Call A → Outcome) : Host σ A where
  now := host.now
  reference := host.reference
  holdings s := (host.holdings s).silent reply
  tvl adapter holdings s := (host.tvl adapter holdings s).silent reply
  convert adapter amounts s := (host.convert adapter amounts s).silent reply
  pull account amounts s := (host.pull account amounts s).silent reply
  release account amounts s := (host.release account amounts s).silent reply

/-- Collaborators that give the same answers in this world without calling. -/
abbrev Host.silenced (host : Host σ A) (w : World σ A) : Host σ A :=
  host.silent (w.vault.busyReply w.store)

/-! ### A run with calls and a run without -/

variable {host : Host σ A} {w : World σ A}

/-- In a world beside a journal, during a call on the vault of `w`: the vault has been attended to,
and no more. -/
structure Logged (host : Host σ A) (w : World σ A) (x : World (σ × Journal σ A) A) : Prop where
  attended : x.vault = w.vault.begin.attend host.reference x.host.2
  entries : ∀ e ∈ x.host.2, e.WhileBusy host ∧ w.vault.begin.Attended e.before.vault

/-- One call of outside code.  It gets the reply of a busy vault. -/
theorem Logged.call {x : World (σ × Journal σ A) A} (h : Logged host w x) (c : Call A) :
    Logged host w (host.nested.journaled c x).2 ∧
      (host.nested.journaled c x).1 = w.vault.busyReply w.store c ∧
      (host.nested.journaled c x).2.host.1 = x.host.1 := by
  have hattended : w.vault.begin.Attended x.vault := by
    rw [h.attended]
    exact Vault.attended_attend _ _ _
  have hbusy : x.erase.vault.entered = true := hattended.entered_eq
  let e : NestedCall σ A := ⟨c, x.erase, (host.nested c x.erase).1, (host.nested c x.erase).2⟩
  have he : e.WhileBusy host := performWith_whileBusy fun _ => hbusy
  refine ⟨⟨?_, ?_⟩, he.outcome_eq.trans ?_, he.host_eq⟩
  · show e.after.vault = w.vault.begin.attend host.reference (x.host.2 ++ [e])
    rw [Vault.attend_append, ← h.attended]
    exact he.attend_eq
  · show ∀ e' ∈ x.host.2 ++ [e], _
    rw [List.forall_mem_append, List.forall_mem_singleton]
    exact ⟨h.entries, he, hattended⟩
  · exact hattended.busyReply_eq _ _ c

/-- A script of outside code.  By induction on the script, call after call. -/
theorem Logged.run (script : Script σ A α) {x : World (σ × Journal σ A) A} (h : Logged host w x) :
    let ended := (script.journaled x.host.2).run host.nested.journaled x.vault x.store
    Logged host w ended.2 ∧
      script.resolve (w.vault.busyReply w.store) = (ended.1, ended.2.host.1) := by
  induction script generalizing x with
  | answer a s => exact ⟨⟨h.attended, h.entries⟩, rfl⟩
  | call c s resume ih =>
    have hx : Logged host w ⟨x.vault, x.store, (s, x.host.2)⟩ := ⟨h.attended, h.entries⟩
    obtain ⟨hcall, hreply, hhost⟩ := hx.call c
    have hrest := ih (w.vault.busyReply w.store c) s hcall
    simp only [Script.journaled, Script.run, Script.resolve, hreply, hhost]
    exact hrest

/-- What a run beside a journal has in common with a run without calls, while the call is in
progress: the vault without calls is as it was when the call began. -/
structure Hushed (host : Host σ A) (w : World σ A) (x : World (σ × Journal σ A) A)
    (y : World σ A) : Prop where
  logged : Logged host w x
  vault : y.vault = w.vault.begin
  host : y.host = x.host.1

theorem Hushed.adapters_eq {x : World (σ × Journal σ A) A} {y : World σ A}
    (h : Hushed host w x y) : y.vault.adapters = w.vault.adapters := by
  rw [h.vault]
  rfl

/-- The same when the call has ended: the two vaults differ by the calls in the journal. -/
structure Hushed.Ended (host : Host σ A) (w : World σ A) (x : World (σ × Journal σ A) A)
    (y : World σ A) : Prop where
  entries : ∀ e ∈ x.host.2, e.WhileBusy host ∧ w.vault.begin.Attended e.before.vault
  attended : x.vault = y.vault.attend host.reference x.host.2
  adapters : y.vault.adapters = w.vault.adapters
  host : y.host = x.host.1

namespace Operation

theorem consult_silent (nested : Performer σ A) (script : σ → Script σ A α) :
    Lockstep (Hushed host w) (Hushed host w)
      (consult host.nested.journaled fun s => (script s.1).journaled s.2)
      (consult nested fun s => (script s).silent (w.vault.busyReply w.store)) := by
  intro x y h
  obtain ⟨hlogged, hresolved⟩ := h.logged.run (script x.host.1)
  unfold consult
  dsimp only
  rw [h.host, Script.silent, hresolved]
  exact .ok ⟨hlogged, h.vault, rfl⟩

theorem inStep_silent (host : Host σ A) (w : World σ A) :
    InStep (fun _ => True) (Hushed host w) host.nested.journaled host.journaled
      (host.silenced w).nested (host.silenced w) where
  now x y h := congrArg host.now h.host.symm
  config x y h := by
    rw [h.vault, h.logged.attended]
    rfl
  holdings := consult_silent _ _
  tvl _ _ _ := consult_silent _ _
  convert _ _ _ := consult_silent _ _
  pull _ _ := consult_silent _ _
  release _ _ := consult_silent _ _

theorem closes_hushed (host : Host σ A) (w : World σ A) :
    Closes (Hushed host w) (Hushed.Ended host w) where
  commit x y state now events h := by
    refine ⟨h.logged.entries, ?_, h.adapters_eq, h.host⟩
    show x.vault.commit state now events = _
    rw [h.logged.attended, Vault.commit_attend, ← h.vault]
    rfl
  reject x y h := by
    refine ⟨h.logged.entries, ?_, h.adapters_eq, h.host⟩
    show x.vault.abandon.reject = y.vault.abandon.reject.attend host.reference x.host.2
    rw [h.logged.attended, h.vault, ← Vault.reject_attend]
    rfl
  abandon x y h := by
    refine ⟨h.logged.entries, ?_, h.adapters_eq, h.host⟩
    show x.vault.abandon = y.vault.abandon.attend host.reference x.host.2
    rw [h.logged.attended, h.vault]
    rfl

end Operation

/-- A priced call beside a journal, and the same call among collaborators that never call. -/
theorem perform_silenced (host : Host σ A) {c : Call A} (hidle : w.vault.entered = false)
    (hc : c.priced = true) :
    (performJournaled host c (w.beside [])).1 = (perform (host.silenced w) c w).1 ∧
      Hushed.Ended host w (performJournaled host c (w.beside [])).2
        (perform (host.silenced w) c w).2 := by
  have hlogged : Logged host w ((w.beside []).mapVault .begin) := ⟨rfl, fun e he => by cases he⟩
  have hbegin : Operation.Begins (Hushed host w) host.journaled (host.silenced w) (w.beside []) w :=
    ⟨.refl _, hidle, rfl, hlogged, rfl, rfl⟩
  exact performWith_lockstep (Operation.inStep_silent host w) (Operation.closes_hushed host w)
    hbegin (Call.guarded_of_priced hc) fun _ _ => trivial

/-! ### The result -/

/-- What calls from inside a priced call come to. -/
structure CallbacksHarmless (host : Host σ A) (c : Call A) (w : World σ A) : Prop where
  /-- The journal is of this call. -/
  recorded : (performJournaled host c (w.beside [])).1 = (perform host c w).1 ∧
    (performJournaled host c (w.beside [])).2.erase = (perform host c w).2
  /-- Operations and previews are turned away, and all that changes is the count of rejections. -/
  rejected : ∀ e ∈ journal host c w, e.call.guarded = true →
    e.outcome = .error .reentrant ∧
      e.after = e.before.mapVault fun v =>
        { v with metrics := { v.metrics with rejected := v.metrics.rejected + 1 } }
  /-- Whatever is read is read of the state that was committed before the call. -/
  committed : ∀ e ∈ journal host c w, e.before.vault.state = w.vault.state ∧
    e.before.vault.config = w.vault.config
  /-- Questions are answered from that state, and change nothing. -/
  answered : ∀ e ∈ journal host c w, ∀ q, e.call = .ask q →
    e.outcome = .ok (.answer (w.vault.answer q)) ∧ e.after = e.before
  /-- The outcome is the same as without calls. -/
  outcome : (perform host c w).1 = (perform (host.silenced w) c w).1
  /-- So are the surroundings, the custody among them. -/
  surroundings : (perform host c w).2.host = (perform (host.silenced w) c w).2.host
  /-- So is the vault, with its committed state and its events, but for the calls in the journal:
  the sources of prices that they registered and the count of those that were turned away. -/
  vault : (perform host c w).2.vault =
    (perform (host.silenced w) c w).2.vault.attend host.reference (journal host c w)
  /-- Afterwards no call is turned away. -/
  accepts : (perform host c w).2.vault.entered = false ∧
    ∀ (next : Call A) (x : World σ A), x.vault = (perform host c w).2.vault →
      (perform host next x).1 ≠ .error .reentrant

/-- When a call has ended, the vault is idle as it was before. -/
theorem perform_idle {c : Call A} (hidle : w.vault.entered = false) :
    (perform host c w).2.vault.entered = false := (Turn.call c).idle hidle

/-- Whatever outside code calls from inside a deposit, a withdrawal or a preview, operations and
previews among its calls are turned away, its questions are answered from the committed state, and
the call comes to what it would have come to without. -/
theorem callbacks_harmless {c : Call A} (hidle : w.vault.entered = false) (hc : c.priced = true) :
    CallbacksHarmless host c w := by
  have hjournaled := perform_journaled host hidle hc
  obtain ⟨houtcome, hended⟩ := perform_silenced host hidle hc
  have hvault : (perform host c w).2.vault = (performJournaled host c (w.beside [])).2.vault :=
    congrArg World.vault hjournaled.2.symm
  have hhost : (perform host c w).2.host = (performJournaled host c (w.beside [])).2.host.1 :=
    congrArg World.host hjournaled.2.symm
  have hafter : (perform host c w).2.vault.entered = false := perform_idle hidle
  exact {
    recorded := hjournaled
    rejected := fun e he hguarded => (hended.entries e he).1.of_guarded hguarded
    committed := fun e he =>
      ⟨(hended.entries e he).2.state_eq, (hended.entries e he).2.config_eq⟩
    answered := by
      intro e he q hq
      obtain ⟨hbusy, hattended⟩ := hended.entries e he
      rw [← hattended.answer_eq q]
      exact hbusy.of_ask hq
    outcome := hjournaled.1.symm.trans houtcome
    surroundings := hhost.trans hended.host.symm
    vault := hvault.trans hended.attended
    accepts := by
      refine ⟨hafter, fun next x hx hnext => ?_⟩
      have hidle' : x.vault.entered = false := by rw [hx]; exact hafter
      exact (perform_error_idle hidle' hnext).accepted rfl }

namespace SmallVault

/-- Alice is about to withdraw half of her shares.  The custody will ask for the fees before it
tells what it holds, and when it is to pay it will withdraw for her once more and ask for her
balance. -/
def besieged : World Misbehaving Handle where
  vault := nextYear.vault
  store := nextYear.store
  host := { Misbehaving.ofHonest nextYear.host with
    armed := [(.holdings, .previewFees),
      (.release, .withdraw "alice" (.saturate 128 500) [0] "alice"),
      (.release, .ask (.balance "alice"))] }

def halfWithdrawal : Call Handle := .withdraw "alice" (.saturate 128 500) [0] "alice"

end SmallVault

theorem callbacks_harmless_second_withdrawal :
    (perform Misbehaving.host SmallVault.halfWithdrawal SmallVault.besieged).1 =
        .ok (.withdrawn [.saturate 128 454]) ∧
      (journal Misbehaving.host SmallVault.halfWithdrawal SmallVault.besieged).map (·.outcome) =
        [.error .reentrant, .error .reentrant, .ok (.answer (.amount (.saturate 128 1000)))] ∧
      CallbacksHarmless Misbehaving.host SmallVault.halfWithdrawal SmallVault.besieged :=
  ⟨rfl, rfl, callbacks_harmless rfl rfl⟩

end ShareVault
