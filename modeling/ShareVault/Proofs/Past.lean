import ShareVault.Proofs.Reentrancy

/-!
# A vault with a past

The log of a vault and its counters are written and never read.  So a vault to which another log and
other counters are given, as if these had come before its own, goes on just as it would have, and
what it adds to its log and counters is what it would have added to its own.

* `EventLog.resume`, `VaultMetrics.after`, `Vault.after` — a log, counters and a vault with a past;
* `Vault.after_commit` — the past stays in place when an operation commits;
* `Performer.Forgetful`, `Script.run_after` — calls that do not look at the past, and outside code
  that makes such calls;
* `performWith_forgetful`, `perform_after` — every call is one of these;
* `play_after`, `exists_play_after` — whole runs, without restores and with them.
-/

namespace ShareVault

variable {σ A α : Type}

/-! ### Logs, counters and vaults with a past -/

namespace EventLog

/-- The records of a log after those of another one, with new places. -/
def resume (past log : EventLog) : EventLog :=
  log.records.foldl (fun resumed r => resumed.emit r.vault r.time r.event) past

theorem resume_emit (past log : EventLog) (id : Uuid) (now : Timestamp) (event : VaultEvent) :
    past.resume (log.emit id now event) = (past.resume log).emit id now event := by
  unfold resume
  show (log.records ++ [_]).foldl _ past = _
  rw [List.foldl_append]
  rfl

theorem resume_emitAll (past log : EventLog) (id : Uuid) (now : Timestamp)
    (events : List VaultEvent) :
    past.resume (log.emitAll id now events) = (past.resume log).emitAll id now events := by
  induction events generalizing log with
  | nil => rfl
  | cons event rest ih =>
    show past.resume ((log.emit id now event).emitAll id now rest) = _
    rw [ih, resume_emit]
    rfl

end EventLog

namespace VaultMetrics

/-- Counters that go on from others.  The gauge counts nothing, and stays. -/
def after (past m : VaultMetrics) : VaultMetrics where
  deposits := past.deposits + m.deposits
  withdrawals := past.withdrawals + m.withdrawals
  rejected := past.rejected + m.rejected
  feeShares := past.feeShares.addWrap m.feeShares
  supply := m.supply

/-- Counters that stand at zero add nothing, and bring their gauge. -/
theorem after_zero (past : VaultMetrics) (supply : Amount) :
    past.after (zero.recordSupply supply) = past.recordSupply supply := by
  show VaultMetrics.mk _ _ _ (past.feeShares.addWrap 0) _ = _
  rw [Word.addWrap_zero]
  rfl

theorem after_observe (past m : VaultMetrics) (event : VaultEvent) :
    past.after (m.observe event) = (past.after m).observe event := by
  cases event with
  | feesCharged management performance mark =>
    unfold observe recordFeeShares after
    dsimp only
    rw [Word.addWrap_assoc]
  | _ => rfl

theorem after_foldl (past m : VaultMetrics) (events : List VaultEvent) :
    past.after (events.foldl observe m) = events.foldl observe (past.after m) := by
  induction events generalizing m with
  | nil => rfl
  | cons event rest ih => rw [List.foldl_cons, List.foldl_cons, ih, after_observe]

end VaultMetrics

namespace Vault

/-- The vault with the log and the counters of another one before its own. -/
def after (v past : Vault A) : Vault A :=
  { v with
    events := past.events.resume v.events
    metrics := past.metrics.after v.metrics }

theorem after_twin (v past : Vault A) : (v.after past).Twin v := ⟨rfl, rfl, rfl, rfl, rfl⟩

theorem after_commit (v past : Vault A) (state : VaultState) (now : Timestamp)
    (events : List VaultEvent) :
    (v.after past).commit state now events = (v.commit state now events).after past := by
  unfold commit after
  rw [EventLog.resume_emitAll]
  congr 1
  show VaultMetrics.recordSupply _ _ = _
  rw [← VaultMetrics.after_foldl]
  rfl

theorem answer_after (v past : Vault A) (q : Query) : (v.after past).answer q = v.answer q := by
  cases q with
  | _ => rfl

end Vault

/-- The world with another past of its vault. -/
def World.after (w : World σ A) (past : Vault A) : World σ A := w.mapVault (·.after past)

/-! ### Outside code -/

/-- Calls performed in this way come to the same whatever past the vault has, and leave it. -/
def Performer.Forgetful (past : Vault A) (nested : Performer σ A) : Prop :=
  ∀ c w, nested c (w.after past) = ((nested c w).1, (nested c w).2.after past)

/-- Outside code does the same when its calls do.  By induction on the script, call after call. -/
theorem Script.run_after {past : Vault A} {nested : Performer σ A} (hn : nested.Forgetful past)
    (script : Script σ A α) (vault : Vault A) (store : VaultStore) :
    script.run nested (vault.after past) store =
      ((script.run nested vault store).1, (script.run nested vault store).2.after past) := by
  induction script generalizing vault store with
  | answer a host => rfl
  | call c host resume ih =>
    have hcall : nested c ⟨vault.after past, store, host⟩ =
        ((nested c ⟨vault, store, host⟩).1, (nested c ⟨vault, store, host⟩).2.after past) :=
      hn c ⟨vault, store, host⟩
    unfold run
    rw [hcall]
    exact ih _ _ _ _

namespace Operation

variable {past : Vault A} {nested : Performer σ A}

/-! ### Steps of a call -/

/-- The first world is the second one with a past of its vault. -/
def WithPast (past : Vault A) (x y : World σ A) : Prop := x = y.after past

theorem consult_after (hn : nested.Forgetful past) (script : σ → Script σ A α) :
    Lockstep (WithPast past) (WithPast past) (consult nested script) (consult nested script) := by
  rintro _ y rfl
  have hrun := (script y.host).run_after hn y.vault y.store
  have hanswer := congrArg Prod.fst hrun
  have hworld := congrArg Prod.snd hrun
  unfold consult
  show SameEnd _ (.ok ((script y.host).run nested (y.vault.after past) y.store).1 _) _
  rw [hanswer]
  exact .ok hworld

theorem inStep_after (hn : nested.Forgetful past) (host : Host σ A) :
    InStep (fun _ => True) (WithPast past) nested host nested host where
  now := by
    rintro _ y rfl
    rfl
  config := by
    rintro _ y rfl
    rfl
  holdings := consult_after hn _
  tvl _ _ _ := consult_after hn _
  convert _ _ _ := consult_after hn _
  pull _ _ := consult_after hn _
  release _ _ := consult_after hn _

theorem closes_after :
    Closes (WithPast past : World σ A → World σ A → Prop) (WithPast past) where
  commit := by
    rintro _ y state now events rfl
    exact congrArg (World.mk · y.store y.host) (Vault.after_commit _ _ _ _ _)
  reject := by
    rintro _ y rfl
    rfl
  abandon := by
    rintro _ y rfl
    rfl

/-- A call that goes around the guard does not look at the past either. -/
theorem unguarded_after (nested : Performer σ A) (host : Host σ A) {c : Call A}
    (hc : c.guarded = false) :
    Lockstep (WithPast past) (WithPast past) (ofCall nested host c) (ofCall nested host c) := by
  have hsame : ∀ x y : World σ A, WithPast past x y → WithPast past x y := fun _ _ h => h
  cases c with
  | registerAdapter caller adapter =>
    refine lockstep_get ?_
    rintro _ y rfl
    refine lockstep_bind (lockstep_lift
      ((y.vault.state.governance.requireRole caller [.admin]).mapError .governance)) hsame ?_
    exact fun _ _ _ _ => .ok rfl
  | persist =>
    refine lockstep_get ?_
    rintro _ y rfl
    refine lockstep_bind (lockstep_lift (y.vault.persist y.store)) hsame ?_
    exact fun store _ _ _ => .ok rfl
  | ask q =>
    refine lockstep_get ?_
    rintro _ y rfl
    have hanswer : (y.vault.after past).answer q = y.vault.answer q := y.vault.answer_after past q
    show Lockstep _ _ (pure (Reply.answer ((y.vault.after past).answer q))) _
    rw [hanswer]
    exact lockstep_pure _
  | _ => cases hc

end Operation

/-! ### Calls and runs -/

variable {past : Vault A} {nested : Performer σ A} {host : Host σ A} {w : World σ A}

theorem performWith_forgetful (hn : nested.Forgetful past) :
    (performWith nested host).Forgetful past := by
  intro c w
  cases hc : c.guarded with
  | false =>
    have hend := Operation.unguarded_after nested host hc (w.after past) w rfl
    exact Prod.ext_iff.mpr (performWith_of_sameEnd hend)
  | true =>
    cases hw : w.vault.entered with
    | true =>
      have hbusy : (w.after past).vault.entered = true := hw
      rw [performWith_guarded hc hbusy, performWith_guarded hc hw]
      rfl
    | false =>
      have hbegin : Operation.Begins (Operation.WithPast past) host host (w.after past) w :=
        ⟨w.vault.after_twin past, hw, rfl, rfl⟩
      have hsame := performWith_lockstep (Operation.inStep_after hn host) Operation.closes_after
        hbegin hc fun _ _ => trivial
      exact Prod.ext_iff.mpr hsame

/-- A call comes to the same whatever past the vault has, and leaves the past in place. -/
theorem perform_after (host : Host σ A) (past : Vault A) : (perform host).Forgetful past := by
  have hnone : (performNone : Performer σ A).Forgetful past := fun _ _ => rfl
  exact performWith_forgetful (performWith_forgetful hnone)

/-- So does every turn but a restore. -/
theorem Turn.play_after {t : Turn σ A} (hkept : t.restores = false) :
    t.play host (w.after past) = (t.play host w).after past := by
  cases t with
  | call c => exact congrArg Prod.snd (perform_after host past c w)
  | outside s => rfl
  | restore id adapters => cases hkept

theorem play_after {turns : List (Turn σ A)} (hkept : ∀ t ∈ turns, t.restores = false) :
    play host (w.after past) turns = (play host w turns).after past := by
  induction turns generalizing w with
  | nil => rfl
  | cons t rest ih =>
    rw [List.forall_mem_cons] at hkept
    show play host (t.play host (w.after past)) rest = _
    rw [Turn.play_after hkept.1]
    exact ih hkept.2

/-- A vault that has seen nothing is a past that changes nothing. -/
theorem ofParts_after (id : Uuid) (config : VaultConfig) (state : VaultState)
    (adapters : List (Reference × A)) :
    (Vault.ofParts id config state adapters).after (.ofParts id config state adapters) =
      .ofParts id config state adapters := rfl

/-- A restore looks at the store only, and leaves a vault that has seen nothing. -/
theorem Turn.exists_play_after (t : Turn σ A) (past : Vault A) :
    ∃ past', t.play host (w.after past) = (t.play host w).after past' := by
  cases t with
  | call c => exact ⟨past, play_after rfl⟩
  | outside s => exact ⟨past, rfl⟩
  | restore id adapters =>
    have hstore : (w.after past).store = w.store := rfl
    rw [play, play, hstore]
    cases hrestored : Vault.restore w.store id (adapters.map fun a => (host.reference a, a)) with
    | error e => exact ⟨past, rfl⟩
    | ok v =>
      obtain ⟨record, _, rfl⟩ := restore_ok hrestored
      exact ⟨_, congrArg (World.mk · w.store w.host) (ofParts_after id _ _ _).symm⟩

theorem exists_play_after (turns : List (Turn σ A)) (past : Vault A) :
    ∃ past', play host (w.after past) turns = (play host w turns).after past' := by
  induction turns generalizing w past with
  | nil => exact ⟨past, rfl⟩
  | cons t rest ih =>
    obtain ⟨past', hturn⟩ := t.exists_play_after past
    show ∃ past', play host (t.play host (w.after past)) rest = _
    rw [hturn]
    exact ih past'

end ShareVault
