import Mathlib.Logic.Relation
import ShareVault.Proofs.Outcome

/-!
# What an operation leaves alone

While an operation is in progress the vault hands control to outside code, and outside code may
call back.  A `Frame` says what such an episode leaves alone.  It is reflexive and transitive, so
it holds of a whole operation when it holds of each step.

* `Vault.Attended` — a vault and the same vault after calls made during an operation: at most its
  sources of prices and its count of rejections differ;
* `World.Meanwhile` — the same for a vault with its store, which may have gained its record;
* `Keeps`, `KeepsOnError` — a step stays inside a frame, always or whenever it fails;
* `Frame.busy` — the frame of every operation, whatever outside code does.
-/

namespace ShareVault

variable {σ A α β : Type}

/-! ### Frames -/

/-- What may happen to a world while something is left alone. -/
structure Frame (σ A : Type) where
  /-- The second world may come after the first. -/
  rel : World σ A → World σ A → Prop
  refl : ∀ w, rel w w
  trans : ∀ {w₀ w₁ w₂}, rel w₀ w₁ → rel w₁ w₂ → rel w₀ w₂

/-- The frame of steps that change nothing. -/
def Frame.unchanged : Frame σ A where
  rel w w' := w' = w
  refl _ := rfl
  trans h h' := h'.trans h

namespace Operation

/-- The world that a step leaves, however it ends. -/
def endWorld : EStateM.Result VaultError (World σ A) α → World σ A
  | .ok _ w => w
  | .error _ w => w

/-- A step stays inside a frame. -/
def Keeps (F : Frame σ A) (m : Operation σ A α) : Prop := ∀ w, F.rel w (endWorld (m w))

/-- A step stays inside a frame whenever it fails. -/
def KeepsOnError (F : Frame σ A) (m : Operation σ A α) : Prop :=
  ∀ w e w', m w = .error e w' → F.rel w w'

variable {F : Frame σ A}

theorem Keeps.onOk {m : Operation σ A α} (hm : Keeps F m) {w w' : World σ A} {a : α}
    (h : m w = .ok a w') : F.rel w w' := by
  have hw := hm w
  rw [h] at hw
  exact hw

theorem Keeps.onError {m : Operation σ A α} (hm : Keeps F m) : KeepsOnError F m := by
  intro w e w' h
  have hw := hm w
  rw [h] at hw
  exact hw

theorem keeps_pure (a : α) : Keeps F (pure a : Operation σ A α) := fun w => F.refl w

theorem keeps_throw (e : VaultError) : Keeps F (throw e : Operation σ A α) := fun w => F.refl w

theorem keeps_get : Keeps F (get : Operation σ A (World σ A)) := fun w => F.refl w

theorem keeps_lift (x : Except VaultError α) : Keeps F (lift x : Operation σ A α) := by
  intro w
  cases x with
  | ok a => exact F.refl w
  | error e => exact F.refl w

/-- One step after another stays inside a frame when both do. -/
theorem keeps_bind {m : Operation σ A α} {f : α → Operation σ A β} (hm : Keeps F m)
    (hf : ∀ a, Keeps F (f a)) : Keeps F (m >>= f) := by
  intro w
  have hw := hm w
  show F.rel w (endWorld (EStateM.bind m f w))
  unfold EStateM.bind
  cases h : m w with
  | ok a w₁ =>
    rw [h] at hw
    exact F.trans hw (hf a w₁)
  | error e w₁ =>
    rw [h] at hw
    exact hw

/-- It is enough that the last of several steps stays inside the frame when it fails. -/
theorem keepsOnError_bind {m : Operation σ A α} {f : α → Operation σ A β} (hm : Keeps F m)
    (hf : ∀ a, KeepsOnError F (f a)) : KeepsOnError F (m >>= f) := by
  intro w e w' h
  rcases Effectful.bind_eq_error.mp h with h | ⟨a, w₁, h₁, h₂⟩
  · exact hm.onError w e w' h
  · exact F.trans (hm.onOk h₁) (hf a w₁ e w' h₂)

theorem keeps_ite {c : Prop} [Decidable c] {m m' : Operation σ A α} (hm : Keeps F m)
    (hm' : Keeps F m') : Keeps F (if c then m else m') := by
  by_cases h : c
  · rw [if_pos h]
    exact hm
  · rw [if_neg h]
    exact hm'

theorem keepsOnError_ite {c : Prop} [Decidable c] {m m' : Operation σ A α}
    (hm : KeepsOnError F m) (hm' : KeepsOnError F m') :
    KeepsOnError F (if c then m else m') := by
  by_cases h : c
  · rw [if_pos h]
    exact hm
  · rw [if_neg h]
    exact hm'

theorem keeps_adapterOf (reference : Reference) :
    Keeps F (adapterOf reference : Operation σ A A) := by
  refine keeps_bind keeps_get fun w => ?_
  cases w.vault.adapters.get? reference with
  | none => exact keeps_throw _
  | some adapter => exact keeps_pure adapter

/-! ### Outside code inside a frame -/

/-- The scripts of a host's questions stay inside a frame. -/
structure Questions (F : Frame σ A) (nested : Performer σ A) (host : Host σ A) : Prop where
  holdings : Keeps F (consult nested host.holdings)
  tvl : ∀ adapter holdings, Keeps F (consult nested (host.tvl adapter holdings))
  convert : ∀ adapter amounts, Keeps F (consult nested (host.convert adapter amounts))

variable {nested : Performer σ A} {host : Host σ A}

theorem keeps_valuation (hq : Questions F nested host) (adapter : A) :
    Keeps F (valuation nested host adapter) := by
  refine keeps_bind keeps_get fun w => ?_
  refine keeps_bind hq.holdings fun holdings => ?_
  refine keeps_bind (keeps_lift _) fun holdings => ?_
  refine keeps_bind (keeps_lift _) fun _ => ?_
  refine keeps_bind (hq.tvl adapter holdings) fun tvl => ?_
  refine keeps_bind (keeps_lift _) fun tvl => ?_
  refine keeps_bind (keeps_lift _) fun _ => ?_
  refine keeps_bind (keeps_lift _) fun _ => ?_
  exact keeps_pure _

theorem keeps_charge (hq : Questions F nested host) (adapter : A) (ledger : ShareLedger)
    (schedule : FeeSchedule) (lower : List Amount) (now : Timestamp) :
    Keeps F (charge nested host adapter ledger schedule lower now) := by
  refine keeps_bind keeps_get fun w => ?_
  refine keeps_ite ?_ ?_
  · refine keeps_bind (hq.convert adapter lower) fun value => ?_
    dsimp only
    split
    · exact keeps_pure _
    · exact keeps_throw _
  · refine keeps_bind (keeps_pure _) fun value => ?_
    dsimp only
    split
    · exact keeps_pure _
    · exact keeps_throw _

end Operation

/-! ### A vault that is busy -/

/-- The vault `v'` is the vault `v` after calls that were made while an operation was in progress:
sources of prices may have been added, and calls may have been turned away. -/
def Vault.Attended (v v' : Vault A) : Prop :=
  ∃ adapters rejected,
    v' = { v with adapters := adapters, metrics := { v.metrics with rejected := rejected } }

namespace Vault.Attended

variable {v v' v'' : Vault A}

theorem refl (v : Vault A) : v.Attended v := ⟨v.adapters, v.metrics.rejected, rfl⟩

theorem trans (h : v.Attended v') (h' : v'.Attended v'') : v.Attended v'' := by
  obtain ⟨_, _, rfl⟩ := h
  obtain ⟨adapters, rejected, rfl⟩ := h'
  exact ⟨adapters, rejected, rfl⟩

theorem config_eq (h : v.Attended v') : v'.config = v.config := by
  obtain ⟨_, _, rfl⟩ := h
  rfl

theorem entered_eq (h : v.Attended v') : v'.entered = v.entered := by
  obtain ⟨_, _, rfl⟩ := h
  rfl

theorem state_eq (h : v.Attended v') : v'.state = v.state := by
  obtain ⟨_, _, rfl⟩ := h
  rfl

/-- Such calls leave no events. -/
theorem events_commit (h : v.begin.Attended v') (state : VaultState) (now : Timestamp)
    (events : List VaultEvent) :
    (v'.commit state now events).events = v.events.emitAll v.id now events := by
  obtain ⟨_, _, rfl⟩ := h
  rfl

/-- Such calls do not change what would be written to a store. -/
theorem persist_eq (h : v.Attended v') : v'.persist = v.persist := by
  obtain ⟨_, _, rfl⟩ := h
  rfl

end Vault.Attended

/-- A store to which a vault has been written any number of times. -/
abbrev Vault.Writes (v : Vault A) : VaultStore → VaultStore → Prop :=
  Relation.ReflTransGen fun store store' => v.persist store = .ok store'

/-- What becomes of a vault and its store while an operation on the vault is in progress. -/
structure World.Meanwhile (w w' : World σ A) : Prop where
  vault : w.vault.Attended w'.vault
  store : w.vault.Writes w.store w'.store

namespace World.Meanwhile

variable {w w' w'' : World σ A}

theorem refl (w : World σ A) : w.Meanwhile w := ⟨.refl _, .refl⟩

theorem trans (h : w.Meanwhile w') (h' : w'.Meanwhile w'') : w.Meanwhile w'' := by
  refine ⟨h.vault.trans h'.vault, h.store.trans ?_⟩
  have hw := h'.store
  unfold Vault.Writes at hw
  rw [h.vault.persist_eq] at hw
  exact hw

end World.Meanwhile

/-- The frame of calls that do not work on the committed state. -/
def Frame.meanwhile : Frame σ A where
  rel := World.Meanwhile
  refl := .refl
  trans := .trans

/-- The frame of every operation: a vault that is busy is attended to, and no more. -/
def Frame.busy : Frame σ A where
  rel w w' := w.vault.entered = true → w.Meanwhile w'
  refl w _ := .refl w
  trans h h' hw := (h hw).trans (h' ((h hw).vault.entered_eq.trans hw))

/-- Calls performed in this way stay inside the frame of a busy vault. -/
def Performer.Attends (nested : Performer σ A) : Prop :=
  ∀ c w, Frame.busy.rel w (nested c w).2

/-- Outside code stays inside the frame when its calls do.  By induction on the script, call after
call. -/
theorem Script.run_attends {nested : Performer σ A} (hn : nested.Attends)
    (script : Script σ A α) (w : World σ A) :
    Frame.busy.rel w (script.run nested w.vault w.store).2 := by
  induction script generalizing w with
  | answer a host => exact fun _ => ⟨.refl _, .refl⟩
  | call c host resume ih =>
    have hcall := hn c ⟨w.vault, w.store, host⟩
    let after := nested c ⟨w.vault, w.store, host⟩
    have hrest := Frame.busy.trans hcall (ih after.1 after.2.host after.2)
    exact fun hw => ⟨(hrest hw).vault, (hrest hw).store⟩

namespace Operation

variable {nested : Performer σ A} {host : Host σ A}

theorem consult_attends (hn : nested.Attends) (script : σ → Script σ A α) :
    Keeps .busy (consult nested script) :=
  fun w => (script w.host).run_attends hn w

theorem questions_attend (hn : nested.Attends) (host : Host σ A) :
    Questions .busy nested host where
  holdings := consult_attends hn _
  tvl _ _ := consult_attends hn _
  convert _ _ := consult_attends hn _

/-- A step that leaves the committed state alone leaves it alone while the vault is busy. -/
theorem Keeps.busy {m : Operation σ A α} (hm : Keeps .meanwhile m) : Keeps .busy m :=
  fun w _ => hm w

/-! ### Calls on a busy vault -/

theorem enter_busy {w : World σ A} (hw : w.vault.entered = true) :
    enter w = .error .reentrant (w.mapVault .reject) := by
  unfold enter
  rw [if_pos hw]

theorem mutate_busy {w : World σ A} (hw : w.vault.entered = true)
    (body : VaultState → Timestamp → Operation σ A (Effect α)) :
    mutate host body w = .error .reentrant (w.mapVault .reject) := by
  unfold mutate
  rw [enter_busy hw]

theorem guarded_busy {w : World σ A} (hw : w.vault.entered = true) (body : Operation σ A α) :
    guarded body w = .error .reentrant (w.mapVault .reject) := by
  unfold guarded
  rw [enter_busy hw]

theorem meanwhile_reject (w : World σ A) : w.Meanwhile (w.mapVault .reject) :=
  ⟨⟨_, _, rfl⟩, .refl⟩

theorem mutate_attends (body : VaultState → Timestamp → Operation σ A (Effect α)) :
    Keeps .busy (mutate host body) := by
  intro w hw
  rw [mutate_busy hw]
  exact meanwhile_reject w

theorem govern_attends (body : VaultGovernance → Timestamp →
    Except GovernanceError (VaultGovernance × Reply × VaultEvent)) :
    Keeps .busy (govern host body) := by
  rw [govern]
  exact mutate_attends _

theorem guarded_attends (body : Operation σ A α) : Keeps .busy (guarded body) := by
  intro w hw
  rw [guarded_busy hw]
  exact meanwhile_reject w

/-- A registration adds a source of prices, or is refused. -/
theorem registerAdapter_end (caller : Account) (adapter : A) (w : World σ A) :
    endWorld (registerAdapter host caller adapter w) = w ∨
      endWorld (registerAdapter host caller adapter w) = w.mapVault fun v =>
        { v with adapters := v.adapters.insert (host.reference adapter) adapter } := by
  cases h : registerAdapter host caller adapter w with
  | ok reply w' =>
    unfold registerAdapter at h
    simp only [Effectful.bind_eq_ok, Effectful.get_eq_ok, lift_eq_ok, Effectful.set_eq_ok,
      Effectful.pure_eq_ok] at h
    obtain ⟨_, _, ⟨rfl, rfl⟩, _, _, _, _, _, rfl, _, rfl⟩ := h
    exact .inr rfl
  | error e w' =>
    unfold registerAdapter at h
    simp only [Effectful.bind_eq_error, Effectful.get_eq_ok, Effectful.get_eq_error,
      lift_eq_error, Effectful.set_eq_error, Effectful.pure_eq_error, and_false, exists_false,
      or_false, false_or] at h
    obtain ⟨_, _, ⟨rfl, rfl⟩, _, rfl⟩ := h
    exact .inl rfl

/-- A vault is written to the store, or cannot be. -/
theorem persist_end (w : World σ A) :
    endWorld ((persist : Operation σ A Reply) w) = w ∨
      ∃ store, w.vault.persist w.store = .ok store ∧
        endWorld ((persist : Operation σ A Reply) w) = { w with store := store } := by
  cases h : (persist : Operation σ A Reply) w with
  | ok reply w' =>
    unfold persist at h
    simp only [Effectful.bind_eq_ok, Effectful.get_eq_ok, lift_eq_ok, Effectful.set_eq_ok,
      Effectful.pure_eq_ok] at h
    obtain ⟨_, _, ⟨rfl, rfl⟩, store, _, ⟨hstore, rfl⟩, _, _, rfl, _, rfl⟩ := h
    exact .inr ⟨store, hstore, rfl⟩
  | error e w' =>
    unfold persist at h
    simp only [Effectful.bind_eq_error, Effectful.get_eq_ok, Effectful.get_eq_error,
      lift_eq_error, Effectful.set_eq_error, Effectful.pure_eq_error, and_false, exists_false,
      or_false, false_or] at h
    obtain ⟨_, _, ⟨rfl, rfl⟩, _, rfl⟩ := h
    exact .inl rfl

theorem registerAdapter_meanwhile (caller : Account) (adapter : A) :
    Keeps .meanwhile (registerAdapter host caller adapter) := by
  intro w
  rcases registerAdapter_end caller adapter w with h | h
  · rw [h]
    exact .refl w
  · rw [h]
    exact ⟨⟨_, _, rfl⟩, .refl⟩

theorem persist_meanwhile : Keeps .meanwhile (persist : Operation σ A Reply) := by
  intro w
  rcases persist_end w with h | ⟨store, hstore, h⟩
  · rw [h]
    exact .refl w
  · rw [h]
    exact ⟨.refl _, .single hstore⟩

theorem ask_meanwhile (q : Query) : Keeps .meanwhile (ask q : Operation σ A Reply) :=
  keeps_bind keeps_get fun _ => keeps_pure _

/-- Every call on a busy vault stays inside its frame: the operations and previews are turned away,
and the other calls do not touch the committed state. -/
theorem ofCall_attends (nested : Performer σ A) (host : Host σ A) (c : Call A) :
    Keeps .busy (ofCall nested host c) := by
  cases c with
  | deposit caller amounts minShares deadline =>
    rw [ofCall, deposit]
    exact mutate_attends _
  | withdraw caller shares minAmounts recipient =>
    rw [ofCall, withdraw]
    exact mutate_attends _
  | transfer caller receiver amount =>
    rw [ofCall, transfer]
    exact mutate_attends _
  | stage caller p value =>
    rw [ofCall, stage]
    exact mutate_attends _
  | commit caller p =>
    rw [ofCall, commit]
    exact govern_attends _
  | rollback caller p =>
    rw [ofCall, rollback]
    exact govern_attends _
  | grantRole caller account role =>
    rw [ofCall, grantRole]
    exact govern_attends _
  | revokeRole caller account role =>
    rw [ofCall, revokeRole]
    exact govern_attends _
  | setDepositLimits caller limits =>
    rw [ofCall, setDepositLimits]
    exact govern_attends _
  | setPrivate caller privateVault =>
    rw [ofCall, setPrivate]
    exact govern_attends _
  | setDepositorAllowed caller account allowed =>
    rw [ofCall, setDepositorAllowed]
    exact govern_attends _
  | registerAdapter caller adapter => exact (registerAdapter_meanwhile caller adapter).busy
  | previewFees =>
    rw [ofCall, preview]
    exact guarded_attends _
  | persist => exact persist_meanwhile.busy
  | ask q => exact (ask_meanwhile q).busy

end Operation

section PerformWith

variable {nested : Performer σ A} {host : Host σ A} {c : Call A} {w w' : World σ A}

theorem performWith_of_ok {reply : Reply} (h : Operation.ofCall nested host c w = .ok reply w') :
    performWith nested host c w = (.ok reply, w') := by
  have hrun : (Operation.ofCall nested host c).run w = .ok reply w' := h
  unfold performWith
  simp only [hrun]

theorem performWith_of_error {e : VaultError}
    (h : Operation.ofCall nested host c w = .error e w') :
    performWith nested host c w = (.error e, w') := by
  have hrun : (Operation.ofCall nested host c).run w = .error e w' := h
  unfold performWith
  simp only [hrun]

/-- A call that is performed leaves the world that it ends in. -/
theorem performWith_world (nested : Performer σ A) (host : Host σ A) (c : Call A)
    (w : World σ A) :
    (performWith nested host c w).2 = Operation.endWorld (Operation.ofCall nested host c w) := by
  cases h : Operation.ofCall nested host c w with
  | ok reply w' =>
    rw [performWith_of_ok h]
    rfl
  | error e w' =>
    rw [performWith_of_error h]
    rfl

end PerformWith

/-- The calls that outside code makes stay inside the frame of a busy vault. -/
theorem performWith_attends (nested : Performer σ A) (host : Host σ A) :
    (performWith nested host).Attends := by
  intro c w
  rw [performWith_world]
  exact Operation.ofCall_attends nested host c w

end ShareVault
