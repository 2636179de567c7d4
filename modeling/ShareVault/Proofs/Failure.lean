import ShareVault.Proofs.Operation

/-!
# What calls leave alone

A call that fails has done nothing but hand control to outside code, and a call that is no
operation does not touch the committed state.

* `Call.pays` — the calls that move assets;
* `Refusals` — payments that are refused leave something alone;
* `guarded_end`, `preview_eq_guarded` — calls under the guard alone, such as previews;
* `ofCall_refused`, `eq_reject_of_refused`, `ofCall_failed` — a failed operation leaves alone
  whatever outside code leaves alone, and everything if it asks nothing of outside code;
* `ofCall_meanwhile`, `ofCall_error` — every call that commits nothing, by kind and by how it ended.
-/

namespace ShareVault

variable {σ A α : Type}

/-- Whether a call that succeeds moves assets. -/
def Call.pays : Call A → Bool
  | .deposit .. => true
  | .withdraw .. => true
  | _ => false

theorem Vault.begin_abandon {v : Vault A} (h : v.entered = false) : v.begin.abandon = v := by
  cases v
  cases h
  rfl

namespace Operation

variable {F : Frame σ A} {nested : Performer σ A} {host : Host σ A} {w w' : World σ A}
  {e : VaultError}

/-! ### Operations that fail -/

/-- Payments that are refused stay inside a frame. -/
structure Refusals (F : Frame σ A) (nested : Performer σ A) (host : Host σ A) : Prop where
  pull : ∀ account amounts e (w w' : World σ A),
    (host.pull account amounts w.host).run nested w.vault w.store = (.error e, w') → F.rel w w'
  release : ∀ account amounts e (w w' : World σ A),
    (host.release account amounts w.host).run nested w.vault w.store = (.error e, w') → F.rel w w'

theorem refusals_attend (hn : nested.Attends) (host : Host σ A) : Refusals .busy nested host where
  pull account amounts e w w' h := by
    have hrun := (host.pull account amounts w.host).run_attends hn w
    rw [h] at hrun
    exact hrun
  release account amounts e w w' h := by
    have hrun := (host.release account amounts w.host).run_attends hn w
    rw [h] at hrun
    exact hrun

theorem keeps_throw_bind {β : Type} (e : VaultError) (f : α → Operation σ A β) :
    Keeps F ((throw e : Operation σ A α) >>= f) := fun w => F.refl w

/-- An operation that ends with a payment fails inside a frame when the payment is refused inside
it. -/
theorem keepsOnError_payment {script : σ → Script σ A (Except CustodyError Unit)}
    (hrefused : ∀ e (w w' : World σ A),
      (script w.host).run nested w.vault w.store = (.error e, w') → F.rel w w')
    (effect : Effect α) :
    KeepsOnError F (do
      lift ((← consult nested script).mapError .custody)
      return effect : Operation σ A (Effect α)) := by
  intro w e w' h
  simp only [Effectful.bind_eq_error, consult_eq_ok, lift_eq_error, Effectful.pure_eq_error,
    and_false, exists_false, or_false, Attempt.mapError_eq_error] at h
  obtain hnever | ⟨_, _, hpaid, ⟨_, rfl, _⟩, rfl⟩ := h
  · cases hnever
  · exact hrefused _ _ _ hpaid

/-- What an operation on an idle vault that fails leaves behind, when its body fails inside a
frame. -/
theorem mutate_failed {body : VaultState → Timestamp → Operation σ A (Effect α)}
    (hbody : ∀ s now, KeepsOnError F (body s now)) (hidle : w.vault.entered = false)
    (h : mutate host body w = .error e w') :
    ∃ w₁, F.rel (w.mapVault .begin) w₁ ∧ w' = w₁.mapVault fun v => v.abandon.reject := by
  obtain ⟨w₁, hfails, rfl⟩ := mutate_error hidle h
  exact ⟨w₁, hbody _ _ _ _ _ hfails, rfl⟩

theorem deposit_failed (hq : Questions F nested host) (hr : Refusals F nested host)
    {caller : Account} {amounts : List Amount} {minShares : Amount} {deadline : Timestamp}
    (hidle : w.vault.entered = false)
    (h : deposit nested host caller amounts minShares deadline w = .error e w') :
    ∃ w₁, F.rel (w.mapVault .begin) w₁ ∧ w' = w₁.mapVault fun v => v.abandon.reject := by
  rw [deposit] at h
  refine mutate_failed (fun s now => ?_) hidle h
  refine keepsOnError_ite (keeps_throw_bind _ _).onError ?_
  refine keepsOnError_bind keeps_get fun _ => ?_
  refine keepsOnError_bind (keeps_lift _) fun _ => ?_
  refine keepsOnError_ite ?_ (keeps_throw_bind _ _).onError
  refine keepsOnError_bind (keeps_adapterOf _) fun adapter => ?_
  refine keepsOnError_bind (keeps_valuation hq adapter) fun appraisal => ?_
  refine keepsOnError_bind (keeps_charge hq adapter _ _ _ _) fun charge => ?_
  refine keepsOnError_bind keeps_get fun _ => ?_
  refine keepsOnError_bind (keeps_lift _) fun settlement => ?_
  exact keepsOnError_payment (hr.pull caller settlement.2.amounts) _

theorem withdraw_failed (hq : Questions F nested host) (hr : Refusals F nested host)
    {caller : Account} {shares : Amount} {minAmounts : List Amount} {recipient : Account}
    (hidle : w.vault.entered = false)
    (h : withdraw nested host caller shares minAmounts recipient w = .error e w') :
    ∃ w₁, F.rel (w.mapVault .begin) w₁ ∧ w' = w₁.mapVault fun v => v.abandon.reject := by
  rw [withdraw] at h
  refine mutate_failed (fun s now => ?_) hidle h
  refine keepsOnError_bind keeps_get fun _ => ?_
  refine keepsOnError_bind (keeps_lift _) fun _ => ?_
  refine keepsOnError_bind (keeps_adapterOf _) fun adapter => ?_
  refine keepsOnError_bind (keeps_valuation hq adapter) fun appraisal => ?_
  refine keepsOnError_bind (keeps_charge hq adapter _ _ _ _) fun charge => ?_
  refine keepsOnError_bind (keeps_lift _) fun settlement => ?_
  exact keepsOnError_payment (hr.release recipient settlement.2) _

theorem transfer_failed {caller receiver : Account} {amount : Amount}
    (hidle : w.vault.entered = false) (h : transfer host caller receiver amount w = .error e w') :
    ∃ w₁, F.rel (w.mapVault .begin) w₁ ∧ w' = w₁.mapVault fun v => v.abandon.reject := by
  rw [transfer] at h
  refine mutate_failed (fun s now => Keeps.onError ?_) hidle h
  exact keeps_bind (keeps_lift _) fun _ => keeps_pure _

theorem keeps_checkReference (value : ParamValue) :
    Keeps F (checkReference value : Operation σ A Unit) := by
  cases value with
  | reference r => exact keeps_bind (keeps_adapterOf r) fun _ => keeps_pure _
  | rate r => exact keeps_pure _
  | seconds t => exact keeps_pure _
  | account a => exact keeps_pure _

theorem stage_failed {caller : Account} {p : Param} {value : ParamValue}
    (hidle : w.vault.entered = false) (h : stage host caller p value w = .error e w') :
    ∃ w₁, F.rel (w.mapVault .begin) w₁ ∧ w' = w₁.mapVault fun v => v.abandon.reject := by
  rw [stage] at h
  refine mutate_failed (fun s now => Keeps.onError ?_) hidle h
  refine keeps_bind (keeps_checkReference value) fun _ => ?_
  exact keeps_bind (keeps_lift _) fun _ => keeps_pure _

theorem govern_failed {body : VaultGovernance → Timestamp →
      Except GovernanceError (VaultGovernance × Reply × VaultEvent)}
    (hidle : w.vault.entered = false) (h : govern host body w = .error e w') :
    ∃ w₁, F.rel (w.mapVault .begin) w₁ ∧ w' = w₁.mapVault fun v => v.abandon.reject := by
  rw [govern] at h
  refine mutate_failed (fun s now => Keeps.onError ?_) hidle h
  exact keeps_bind (keeps_lift _) fun _ => keeps_pure _

/-- A call that asks nothing of outside code has done nothing when it fails on an idle vault, until
the vault takes note of the failure. -/
theorem ofCall_refused {c : Call A} (hc : c.mutates = true) (hp : c.pays = false)
    (hidle : w.vault.entered = false) (h : ofCall nested host c w = .error e w') :
    ∃ w₁, F.rel (w.mapVault .begin) w₁ ∧ w' = w₁.mapVault fun v => v.abandon.reject := by
  cases c with
  | transfer caller receiver amount => exact transfer_failed hidle h
  | stage caller p value => exact stage_failed hidle h
  | commit caller p =>
    rw [ofCall, commit] at h
    exact govern_failed hidle h
  | rollback caller p =>
    rw [ofCall, rollback] at h
    exact govern_failed hidle h
  | grantRole caller account role =>
    rw [ofCall, grantRole] at h
    exact govern_failed hidle h
  | revokeRole caller account role =>
    rw [ofCall, revokeRole] at h
    exact govern_failed hidle h
  | setDepositLimits caller limits =>
    rw [ofCall, setDepositLimits] at h
    exact govern_failed hidle h
  | setPrivate caller privateVault =>
    rw [ofCall, setPrivate] at h
    exact govern_failed hidle h
  | setDepositorAllowed caller account allowed =>
    rw [ofCall, setDepositorAllowed] at h
    exact govern_failed hidle h
  | deposit caller amounts minShares deadline => cases hp
  | withdraw caller shares minAmounts recipient => cases hp
  | registerAdapter caller adapter => cases hc
  | previewFees => cases hc
  | persist => cases hc
  | ask q => cases hc

/-- All that is left of it is that note. -/
theorem eq_reject_of_refused {c : Call A} (hc : c.mutates = true) (hp : c.pays = false)
    (hidle : w.vault.entered = false) (h : ofCall nested host c w = .error e w') :
    w' = w.mapVault .reject := by
  obtain ⟨w₁, hsame, rfl⟩ := ofCall_refused (F := .unchanged) hc hp hidle h
  rw [show w₁ = w.mapVault .begin from hsame]
  show World.mk w.vault.begin.abandon.reject w.store w.host = _
  rw [Vault.begin_abandon hidle]
  rfl

/-- A call on the committed state that fails on an idle vault has stayed inside every frame that
outside code stays inside, until the vault takes note of the failure. -/
theorem ofCall_failed (hq : Questions F nested host) (hr : Refusals F nested host) {c : Call A}
    (hc : c.mutates = true) (hidle : w.vault.entered = false)
    (h : ofCall nested host c w = .error e w') :
    ∃ w₁, F.rel (w.mapVault .begin) w₁ ∧ w' = w₁.mapVault fun v => v.abandon.reject := by
  cases hp : c.pays with
  | false => exact ofCall_refused hc hp hidle h
  | true =>
    cases c with
    | deposit caller amounts minShares deadline => exact deposit_failed hq hr hidle h
    | withdraw caller shares minAmounts recipient => exact withdraw_failed hq hr hidle h
    | _ => cases hp

end Operation

/-! ### Calls and the committed state -/

namespace World.Meanwhile

variable {w w₁ : World σ A}

/-- A vault that has begun, been attended to and given up has been attended to. -/
theorem abandon (hidle : w.vault.entered = false) (h : (w.mapVault .begin).Meanwhile w₁) :
    w.Meanwhile (w₁.mapVault .abandon) := by
  obtain ⟨adapters, rejected, hvault⟩ := h.vault
  refine ⟨⟨adapters, rejected, ?_⟩, h.store⟩
  show w₁.vault.abandon = _
  rw [hvault]
  show { w.vault with
    entered := false
    adapters := adapters
    metrics := { w.vault.metrics with rejected := rejected } } = _
  rw [← hidle]

/-- It has been attended to as well when a failure is noted. -/
theorem reject (hidle : w.vault.entered = false) (h : (w.mapVault .begin).Meanwhile w₁) :
    w.Meanwhile (w₁.mapVault fun v => v.abandon.reject) :=
  (h.abandon hidle).trans (Operation.meanwhile_reject _)

end World.Meanwhile

namespace Operation

variable {nested : Performer σ A} {host : Host σ A} {w w' : World σ A} {e : VaultError}

/-- What a preview of an idle vault comes to. -/
theorem guarded_idle (hw : w.vault.entered = false) (body : Operation σ A α) :
    guarded body w =
      match body (w.mapVault .begin) with
      | .ok a w₁ => .ok a (w₁.mapVault .abandon)
      | .error e w₁ => .error e (w₁.mapVault .abandon) := by
  have henter := enter_idle hw
  unfold guarded
  generalize enter w = entered at henter
  subst henter
  rfl

theorem guarded_ok {body : Operation σ A α} {a : α} {w₁ : World σ A} (hw : w.vault.entered = false)
    (h : body (w.mapVault .begin) = .ok a w₁) : guarded body w = .ok a (w₁.mapVault .abandon) := by
  rw [guarded_idle hw, h]

/-- A call under the guard ends in a world that its body has led to. -/
theorem guarded_end {F : Frame σ A} {body : Operation σ A α} (hbody : Keeps F body)
    (hw : w.vault.entered = false) :
    ∃ w₁, endWorld (guarded body w) = w₁.mapVault .abandon ∧ F.rel (w.mapVault .begin) w₁ := by
  have hdone := hbody (w.mapVault .begin)
  rw [guarded_idle hw]
  cases h : body (w.mapVault .begin) with
  | ok a w₁ =>
    rw [h] at hdone
    exact ⟨w₁, rfl, hdone⟩
  | error e w₁ =>
    rw [h] at hdone
    exact ⟨w₁, rfl, hdone⟩

/-- A preview is a call under the guard that does nothing but ask. -/
theorem preview_eq_guarded {F : Frame σ A} (hq : Questions F nested host) :
    ∃ body : Operation σ A Reply, preview nested host = guarded body ∧ Keeps F body := by
  refine ⟨_, rfl, ?_⟩
  refine keeps_bind keeps_get fun _ => ?_
  refine keeps_bind (keeps_adapterOf _) fun adapter => ?_
  refine keeps_bind (keeps_valuation hq adapter) fun appraisal => ?_
  refine keeps_bind keeps_get fun _ => ?_
  exact keeps_bind (keeps_charge hq adapter _ _ _ _) fun _ => keeps_pure _

/-- A call under the guard leaves the committed state alone. -/
theorem guarded_meanwhile {body : Operation σ A α} (hbody : Keeps .busy body) :
    Keeps .meanwhile (guarded body) := by
  intro w
  cases hw : w.vault.entered with
  | true =>
    rw [guarded_busy hw]
    exact meanwhile_reject w
  | false =>
    obtain ⟨w₁, hend, hrel⟩ := guarded_end hbody hw
    rw [hend]
    exact (hrel rfl).abandon hw

theorem preview_meanwhile (hn : nested.Attends) : Keeps .meanwhile (preview nested host) := by
  obtain ⟨body, hpreview, hbody⟩ := preview_eq_guarded (questions_attend hn host)
  rw [hpreview]
  exact guarded_meanwhile hbody

/-- Every other call leaves the committed state alone, however it ends. -/
theorem ofCall_meanwhile (hn : nested.Attends) {c : Call A} (hc : c.mutates = false) :
    Keeps .meanwhile (ofCall nested host c) := by
  cases c with
  | registerAdapter caller adapter => exact registerAdapter_meanwhile caller adapter
  | previewFees => exact preview_meanwhile hn
  | persist => exact persist_meanwhile
  | ask q => exact ask_meanwhile q
  | _ => cases hc

/-- A call that fails leaves the committed state alone. -/
theorem ofCall_error (hn : nested.Attends) {c : Call A}
    (h : ofCall nested host c w = .error e w') : w.Meanwhile w' := by
  cases hc : c.mutates with
  | false => exact (ofCall_meanwhile hn hc).onError w e w' h
  | true =>
    cases hw : w.vault.entered with
    | true =>
      have hbusy := ofCall_attends nested host c w hw
      rw [h] at hbusy
      exact hbusy
    | false =>
      obtain ⟨w₁, hdone, rfl⟩ :=
        ofCall_failed (questions_attend hn host) (refusals_attend hn host) hc hw h
      exact (hdone rfl).reject hw

end Operation

end ShareVault
