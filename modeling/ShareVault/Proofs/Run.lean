import ShareVault.Proofs.Failure

/-!
# Runs

A run is a sequence of turns.  In a turn the vault is called, or its surroundings change on their
own, or the vault is replaced by one from the store.

* `perform_ok`, `perform_error` — one call, by how it ended;
* `Turn`, `Turn.play` — what can happen next, and what comes of it;
* `Turn.Does`, `Turn.does` — what a turn can do to a vault;
* `Reachable` — the worlds that some run leads to;
* `play`, `history` — a run, and every turn of it with the world it was taken in;
* `total` — a quantity of every turn, added up.
-/

namespace ShareVault

variable {σ A : Type} {host : Host σ A} {w w' : World σ A} {c : Call A} {reply : Reply}
  {e : VaultError}

/-! ### One call -/

/-- How the calls of outside code are performed while a call is in progress. -/
abbrev Host.nested (host : Host σ A) : Performer σ A := performWith performNone host

theorem perform_eq_ok :
    perform host c w = (.ok reply, w') ↔ Operation.ofCall host.nested host c w = .ok reply w' := by
  refine ⟨fun h => ?_, performWith_of_ok⟩
  unfold perform at h
  cases hc : Operation.ofCall host.nested host c w with
  | ok reply' w₁ =>
    rw [performWith_of_ok hc] at h
    cases h
    rfl
  | error e w₁ =>
    rw [performWith_of_error hc] at h
    cases h

theorem perform_eq_error :
    perform host c w = (.error e, w') ↔ Operation.ofCall host.nested host c w = .error e w' := by
  refine ⟨fun h => ?_, performWith_of_error⟩
  unfold perform at h
  cases hc : Operation.ofCall host.nested host c w with
  | ok reply w₁ =>
    rw [performWith_of_ok hc] at h
    cases h
  | error e' w₁ =>
    rw [performWith_of_error hc] at h
    cases h
    rfl

theorem nested_attends (host : Host σ A) : host.nested.Attends :=
  performWith_attends performNone host

/-- A call on the committed state that succeeds commits what the call makes of that state. -/
theorem perform_ok (hc : c.mutates = true) (h : perform host c w = (.ok reply, w')) :
    w.vault.entered = false ∧ ∃ effect w₁,
      Commits w.vault.config (host.now w.host) w.vault.state c effect ∧
      (w.mapVault .begin).Meanwhile w₁ ∧ reply = effect.output ∧
      w' = w₁.mapVault fun v => v.commit effect.state (host.now w.host) effect.events :=
  Operation.ofCall_ok (nested_attends host) hc (perform_eq_ok.mp h)

/-- A call that fails leaves the committed state alone. -/
theorem perform_error (h : perform host c w = (.error e, w')) : w.Meanwhile w' :=
  Operation.ofCall_error (nested_attends host) (perform_eq_error.mp h)

/-- A call that is no operation leaves the committed state alone. -/
theorem perform_meanwhile (hc : c.mutates = false) : w.Meanwhile (perform host c w).2 := by
  have h : w.Meanwhile (Operation.endWorld (Operation.ofCall host.nested host c w)) :=
    Operation.ofCall_meanwhile (nested_attends host) hc w
  unfold perform
  rw [performWith_world]
  exact h

/-! ### Turns -/

/-- What can happen next. -/
inductive Turn (σ A : Type) where
  /-- The vault is called. -/
  | call (c : Call A)
  /-- The surroundings of the vault change on their own. -/
  | outside (host : σ)
  /-- The vault is replaced by one from the store. -/
  | restore (id : Uuid) (adapters : List A)

/-- The world after a turn.  A vault that cannot be restored changes nothing. -/
def Turn.play (host : Host σ A) (w : World σ A) : Turn σ A → World σ A
  | .call c => (perform host c w).2
  | .outside s => { w with host := s }
  | .restore id adapters =>
    match Vault.restore w.store id (adapters.map fun a => (host.reference a, a)) with
    | .ok v => { w with vault := v }
    | .error _ => w

/-- What a turn can do: commit a call, leave the committed state alone, change the surroundings, or
put another vault in place. -/
inductive Turn.Does (host : Host σ A) (w : World σ A) : Turn σ A → World σ A → Prop where
  | commits {c : Call A} {effect : Effect Reply} {w₁ : World σ A} (idle : w.vault.entered = false)
      (outcome : (perform host c w).1 = .ok effect.output)
      (commits : Commits w.vault.config (host.now w.host) w.vault.state c effect)
      (meanwhile : (w.mapVault .begin).Meanwhile w₁) :
      Does host w (.call c)
        (w₁.mapVault fun v => v.commit effect.state (host.now w.host) effect.events)
  | leaves {c : Call A} {w' : World σ A}
      (fails : c.mutates = true → ∃ e, (perform host c w).1 = .error e)
      (meanwhile : w.Meanwhile w') : Does host w (.call c) w'
  | outside {s : σ} : Does host w (.outside s) { w with host := s }
  | restores {id : Uuid} {adapters : List A} {v : Vault A}
      (restored : Vault.restore w.store id (adapters.map fun a => (host.reference a, a)) = .ok v) :
      Does host w (.restore id adapters) { w with vault := v }
  | refuses {id : Uuid} {adapters : List A} : Does host w (.restore id adapters) w

/-- A turn does one of these. -/
theorem Turn.does (host : Host σ A) (w : World σ A) (t : Turn σ A) :
    t.Does host w (t.play host w) := by
  cases t with
  | outside s => exact .outside
  | restore id adapters =>
    rw [play]
    cases h : Vault.restore w.store id (adapters.map fun a => (host.reference a, a)) with
    | ok v => exact .restores h
    | error e => exact .refuses
  | call c =>
    show Does host w (.call c) (perform host c w).2
    cases hc : c.mutates with
    | false => exact .leaves (fun h => by rw [hc] at h; cases h) (perform_meanwhile hc)
    | true =>
      rcases h : perform host c w with ⟨e | reply, w'⟩
      · exact .leaves (fun _ => ⟨e, by rw [h]⟩) (perform_error h)
      · obtain ⟨hidle, effect, w₁, hcommits, hmeanwhile, rfl, rfl⟩ := perform_ok hc h
        exact .commits hidle (by rw [h]) hcommits hmeanwhile

/-- A call that is no trade leaves the ledger alone. -/
theorem perform_ledger {c : Call A} {outcome : Outcome} (hc : c.trader? = none)
    (h : perform host c w = (outcome, w')) :
    w'.vault.state.ledger = w.vault.state.ledger := by
  have hdoes := (Turn.call c).does host w
  have hplay : (Turn.call c).play host w = w' := congrArg Prod.snd h
  rw [hplay] at hdoes
  cases hdoes with
  | commits idle outcome commits meanwhile => exact commits.ledger_eq hc
  | leaves fails meanwhile => rw [meanwhile.vault.state_eq]

/-- Whether a turn asks for another vault from the store. -/
def Turn.restores : Turn σ A → Bool
  | .restore .. => true
  | _ => false

/-! ### Reachable worlds -/

/-- The worlds that a run leads to, from a new vault beside an empty store. -/
inductive Reachable (host : Host σ A) : World σ A → Prop where
  | create {id : Uuid} {config : VaultConfig} {admin : Account} {schedule : FeeSchedule}
      {adapter : A} {s : σ} {v : Vault A}
      (created : Vault.create id config admin schedule (host.reference adapter, adapter)
        (host.now s) = .ok v) :
      Reachable host ⟨v, .empty, s⟩
  | turn {w : World σ A} (t : Turn σ A) (reached : Reachable host w) :
      Reachable host (t.play host w)

/-- A new vault is in its first state. -/
theorem create_ok {id : Uuid} {config : VaultConfig} {admin : Account} {schedule : FeeSchedule}
    {adapter : Reference × A} {now : Timestamp} {v : Vault A}
    (h : Vault.create id config admin schedule adapter now = .ok v) :
    ∃ governance, VaultGovernance.new admin schedule config.settings = .ok governance ∧
      config.validate = .ok () ∧ schedule.valuationReference = adapter.1 ∧
      v = .ofParts id config ⟨.new now, governance⟩ [adapter] := by
  unfold Vault.create at h
  simp only [Attempt.bind_eq_ok, Attempt.mapError_eq_ok] at h
  obtain ⟨_, hvalid, h⟩ := h
  split at h
  next => cases h
  next hknown =>
    simp only [Attempt.bind_eq_ok, Attempt.mapError_eq_ok, Attempt.pure_eq_ok] at h
    obtain ⟨governance, hgovernance, rfl⟩ := h
    exact ⟨governance, hgovernance, hvalid, Decidable.not_not.mp hknown, rfl⟩

/-- A restored vault has the stored state, and no operation is in progress on it. -/
theorem restore_ok {store : VaultStore} {id : Uuid} {adapters : List (Reference × A)} {v : Vault A}
    (h : Vault.restore store id adapters = .ok v) :
    ∃ record, store.get id = .ok (some record) ∧
      v = .ofParts id record.config ⟨record.ledger, record.governance⟩ adapters := by
  unfold Vault.restore at h
  simp only [Attempt.bind_eq_ok, Attempt.mapError_eq_ok] at h
  obtain ⟨stored, hstored, h⟩ := h
  cases stored with
  | none => cases h
  | some record =>
    simp only [Attempt.bind_eq_ok, Attempt.mapError_eq_ok] at h
    obtain ⟨_, _, _, _, h⟩ := h
    split at h
    next => cases h
    next =>
      obtain rfl := Attempt.pure_eq_ok.mp h
      exact ⟨record, hstored, rfl⟩

/-- After a turn no operation is in progress if none was before. -/
theorem Turn.idle (t : Turn σ A) (hw : w.vault.entered = false) :
    (t.play host w).vault.entered = false := by
  have hdoes := t.does host w
  generalize t.play host w = w' at hdoes
  cases hdoes with
  | commits idle outcome commits meanwhile => rfl
  | leaves fails meanwhile => exact meanwhile.vault.entered_eq.trans hw
  | outside => exact hw
  | restores restored =>
    obtain ⟨_, _, rfl⟩ := restore_ok restored
    rfl
  | refuses => exact hw

/-- Between turns no operation is in progress. -/
theorem Reachable.idle (h : Reachable host w) : w.vault.entered = false := by
  induction h with
  | create created =>
    obtain ⟨_, _, _, _, rfl⟩ := create_ok created
    rfl
  | turn t reached ih => exact t.idle ih

/-! ### Sequences of turns -/

/-- The world after some turns. -/
def play (host : Host σ A) : World σ A → List (Turn σ A) → World σ A
  | w, [] => w
  | w, t :: rest => play host (t.play host w) rest

/-- Every turn with the world it was taken in. -/
def history (host : Host σ A) : World σ A → List (Turn σ A) → List (World σ A × Turn σ A)
  | _, [] => []
  | w, t :: rest => (w, t) :: history host (t.play host w) rest

theorem play_append (w : World σ A) (turns more : List (Turn σ A)) :
    play host w (turns ++ more) = play host (play host w turns) more := by
  induction turns generalizing w with
  | nil => rfl
  | cons t rest ih => exact ih (t.play host w)

theorem history_append (w : World σ A) (turns more : List (Turn σ A)) :
    history host w (turns ++ more) =
      history host w turns ++ history host (play host w turns) more := by
  induction turns generalizing w with
  | nil => rfl
  | cons t rest ih => exact congrArg ((w, t) :: ·) (ih (t.play host w))

theorem exists_of_mem_history {turns : List (Turn σ A)} {x : World σ A × Turn σ A}
    (h : x ∈ history host w turns) :
    ∃ earlier later, turns = earlier ++ x.2 :: later ∧ x.1 = play host w earlier := by
  induction turns generalizing w with
  | nil => cases h
  | cons t rest ih =>
    rw [history] at h
    rcases List.mem_cons.mp h with rfl | h
    · exact ⟨[], rest, rfl, rfl⟩
    · obtain ⟨earlier, later, hsplit, hworld⟩ := ih h
      exact ⟨t :: earlier, later, congrArg (t :: ·) hsplit, hworld⟩

/-- A quantity of every turn, added up over a run. -/
def total (host : Host σ A) (quantity : World σ A → Turn σ A → Nat) (w : World σ A)
    (turns : List (Turn σ A)) : Nat :=
  ((history host w turns).map fun p => quantity p.1 p.2).sum

theorem total_cons (quantity : World σ A → Turn σ A → Nat) (w : World σ A) (t : Turn σ A)
    (rest : List (Turn σ A)) :
    total host quantity w (t :: rest) = quantity w t + total host quantity (t.play host w) rest :=
  rfl

theorem Reachable.play (h : Reachable host w) (turns : List (Turn σ A)) :
    Reachable host (play host w turns) := by
  induction turns generalizing w with
  | nil => exact h
  | cons t rest ih => exact ih (.turn t h)

end ShareVault
