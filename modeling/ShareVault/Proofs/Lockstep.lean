import ShareVault.Proofs.Accounting

/-!
# Two vaults in lockstep

The same call on two vaults that are alike, among two kinds of collaborators.  If every question is
answered alike on both sides, the call ends alike on both sides.

* `Vault.Twin` — vaults that differ in their logs and counters at most, which no call reads;
* `SameEnd`, `Lockstep` — two steps that end alike, in worlds that are related;
* `InStep` — two hosts that answer every question alike, as far as a relation between the worlds
  can tell;
* `Closes` — a relation that holds during a call gives one that holds after it;
* `Call.guarded`, `performWith_lockstep` — a call that goes through the guard, among two hosts that
  are in step.
-/

namespace ShareVault

variable {σ σ' A α β : Type}

/-- Whether a call goes through the guard. -/
def Call.guarded : Call A → Bool
  | .registerAdapter .. => false
  | .persist => false
  | .ask _ => false
  | _ => true

theorem Call.guarded_of_priced {c : Call A} (hc : c.priced = true) : c.guarded = true := by
  cases c with
  | registerAdapter caller adapter => cases hc
  | persist => cases hc
  | ask q => cases hc
  | _ => rfl

/-! ### Vaults that are alike -/

/-- Two vaults that differ in their logs and counters at most. -/
structure Vault.Twin (v v' : Vault A) : Prop where
  id : v.id = v'.id
  config : v.config = v'.config
  entered : v.entered = v'.entered
  state : v.state = v'.state
  adapters : v.adapters = v'.adapters

namespace Vault.Twin

variable {v v' : Vault A}

theorem refl (v : Vault A) : v.Twin v := ⟨rfl, rfl, rfl, rfl, rfl⟩

theorem begin (h : v.Twin v') : v.begin.Twin v'.begin := ⟨h.id, h.config, rfl, h.state, h.adapters⟩

theorem tokenCount_eq (h : v.Twin v') : v.tokenCount = v'.tokenCount :=
  congrArg VaultConfig.tokenCount h.config

end Vault.Twin

/-! ### Steps in lockstep -/

/-- Two steps end with the same result or the same error, in related worlds. -/
inductive SameEnd (Q : World σ A → World σ' A → Prop) :
    EStateM.Result VaultError (World σ A) α → EStateM.Result VaultError (World σ' A) α → Prop where
  | ok {a : α} {x : World σ A} {y : World σ' A} (related : Q x y) : SameEnd Q (.ok a x) (.ok a y)
  | error {e : VaultError} {x : World σ A} {y : World σ' A} (related : Q x y) :
      SameEnd Q (.error e x) (.error e y)

/-- From worlds that are related in one way, two steps end alike in worlds that are related in
another way. -/
def Lockstep (P Q : World σ A → World σ' A → Prop) (m : Operation σ A α) (m' : Operation σ' A α) :
    Prop :=
  ∀ x y, P x y → SameEnd Q (m x) (m' y)

namespace Operation

variable {P P' Q R : World σ A → World σ' A → Prop}

theorem lockstep_pure (a : α) : Lockstep Q Q (pure a) (pure a) := fun _ _ h => .ok h

theorem lockstep_throw (e : VaultError) :
    Lockstep Q Q (throw e : Operation σ A α) (throw e) := fun _ _ h => .error h

theorem lockstep_throw_bind (e : VaultError) (f : α → Operation σ A β) (f' : α → Operation σ' A β)
    (h : ∀ x y, P x y → Q x y) :
    Lockstep P Q ((throw e : Operation σ A α) >>= f) ((throw e : Operation σ' A α) >>= f') :=
  fun x y hxy => .error (h x y hxy)

theorem lockstep_lift (x : Except VaultError α) : Lockstep Q Q (lift x) (lift x) := by
  intro w w' h
  cases x with
  | ok a => exact .ok h
  | error e => exact .error h

/-- Steps in lockstep one after another, when the relation in between implies the last one. -/
theorem lockstep_bind {m : Operation σ A α} {m' : Operation σ' A α} {f : α → Operation σ A β}
    {f' : α → Operation σ' A β} (hm : Lockstep P P' m m') (hweaker : ∀ x y, P' x y → Q x y)
    (hf : ∀ a, Lockstep P' Q (f a) (f' a)) : Lockstep P Q (m >>= f) (m' >>= f') := by
  intro x y h
  have hend := hm x y h
  show SameEnd Q (EStateM.bind m f x) (EStateM.bind m' f' y)
  unfold EStateM.bind
  cases hx : m x with
  | ok a x₁ =>
    rw [hx] at hend
    cases hy : m' y with
    | ok b y₁ =>
      rw [hy] at hend
      cases hend with
      | ok related => exact hf a x₁ y₁ related
    | error e y₁ =>
      rw [hy] at hend
      cases hend
  | error e x₁ =>
    rw [hx] at hend
    cases hy : m' y with
    | ok b y₁ =>
      rw [hy] at hend
      cases hend
    | error e' y₁ =>
      rw [hy] at hend
      cases hend with
      | error related => exact .error (hweaker _ _ related)

/-- Steps that go on in lockstep from the worlds they are in. -/
theorem lockstep_get {f : World σ A → Operation σ A α} {f' : World σ' A → Operation σ' A α}
    (h : ∀ x y, P x y → Lockstep P Q (f x) (f' y)) : Lockstep P Q (get >>= f) (get >>= f') :=
  fun x y hxy => h x y hxy x y hxy

theorem lockstep_ite {c : Prop} [Decidable c] {m₁ m₂ : Operation σ A α}
    {m₁' m₂' : Operation σ' A α} (h₁ : Lockstep P Q m₁ m₁') (h₂ : Lockstep P Q m₂ m₂') :
    Lockstep P Q (if c then m₁ else m₂) (if c then m₁' else m₂') := by
  by_cases h : c
  · rw [if_pos h, if_pos h]
    exact h₁
  · rw [if_neg h, if_neg h]
    exact h₂

/-- A source of prices is looked up among those that the vault knows. -/
theorem adapterOf_eq (reference : Reference) (w : World σ A) :
    adapterOf reference w = match w.vault.adapters.get? reference with
      | some adapter => .ok adapter w
      | none => .error (.unknownAdapter reference) w := by
  show (match w.vault.adapters.get? reference with
    | some adapter => pure adapter
    | none => throw (.unknownAdapter reference) : Operation σ A A) w = _
  cases w.vault.adapters.get? reference with
  | some adapter => rfl
  | none => rfl

/-- Vaults that are alike know the same sources of prices, and the steps go on with the one
found. -/
theorem lockstep_adapterOf {v : Vault A} {reference : Reference} {f : A → Operation σ A β}
    {f' : A → Operation σ' A β} (hsame : ∀ x y, P x y → x.vault.Twin v ∧ y.vault.Twin v)
    (hweaker : ∀ x y, P x y → Q x y)
    (hf : ∀ adapter, v.adapters.get? reference = some adapter →
      Lockstep P Q (f adapter) (f' adapter)) :
    Lockstep P Q (adapterOf reference >>= f) (adapterOf reference >>= f') := by
  intro x y h
  obtain ⟨hx, hy⟩ := hsame x y h
  show SameEnd Q (EStateM.bind (adapterOf reference) f x) (EStateM.bind (adapterOf reference) f' y)
  unfold EStateM.bind
  rw [adapterOf_eq, adapterOf_eq, hx.adapters, hy.adapters]
  cases hfound : v.adapters.get? reference with
  | none => exact .error (hweaker x y h)
  | some adapter => exact hf adapter hfound x y h

end Operation

/-! ### Hosts in step -/

/-- Two hosts, each with a way to perform the calls of outside code, answer every question alike
and stay in related worlds.  Questions to a source of prices count only if it is one that is
asked. -/
structure InStep (asked : A → Prop) (Q : World σ A → World σ' A → Prop) (nested : Performer σ A)
    (host : Host σ A) (nested' : Performer σ' A) (host' : Host σ' A) : Prop where
  now : ∀ x y, Q x y → host.now x.host = host'.now y.host
  config : ∀ x y, Q x y → x.vault.config = y.vault.config
  holdings : Lockstep Q Q (Operation.consult nested host.holdings)
    (Operation.consult nested' host'.holdings)
  tvl : ∀ adapter holdings, asked adapter →
    Lockstep Q Q (Operation.consult nested (host.tvl adapter holdings))
      (Operation.consult nested' (host'.tvl adapter holdings))
  convert : ∀ adapter amounts, asked adapter →
    Lockstep Q Q (Operation.consult nested (host.convert adapter amounts))
      (Operation.consult nested' (host'.convert adapter amounts))
  pull : ∀ account amounts, Lockstep Q Q (Operation.consult nested (host.pull account amounts))
    (Operation.consult nested' (host'.pull account amounts))
  release : ∀ account amounts,
    Lockstep Q Q (Operation.consult nested (host.release account amounts))
      (Operation.consult nested' (host'.release account amounts))

namespace Operation

variable {asked : A → Prop} {P Q R : World σ A → World σ' A → Prop} {nested : Performer σ A}
  {host : Host σ A} {nested' : Performer σ' A} {host' : Host σ' A}

theorem lockstep_valuation (hs : InStep asked Q nested host nested' host') {adapter : A}
    (hasked : asked adapter) :
    Lockstep Q Q (valuation nested host adapter) (valuation nested' host' adapter) := by
  have hsame : ∀ x y, Q x y → Q x y := fun _ _ h => h
  refine lockstep_get fun x y hxy => ?_
  have hcount : x.vault.tokenCount = y.vault.tokenCount :=
    congrArg VaultConfig.tokenCount (hs.config x y hxy)
  rw [hcount]
  refine lockstep_bind hs.holdings hsame fun answer => ?_
  refine lockstep_bind (lockstep_lift _) hsame fun holdings => ?_
  refine lockstep_bind (lockstep_lift _) hsame fun _ => ?_
  refine lockstep_bind (hs.tvl adapter holdings hasked) hsame fun answer => ?_
  refine lockstep_bind (lockstep_lift _) hsame fun tvl => ?_
  refine lockstep_bind (lockstep_lift _) hsame fun _ => ?_
  refine lockstep_bind (lockstep_lift _) hsame fun _ => ?_
  exact lockstep_pure _

theorem lockstep_charge (hs : InStep asked Q nested host nested' host') {adapter : A}
    (hasked : asked adapter) (ledger : ShareLedger) (schedule : FeeSchedule) (lower : List Amount)
    (now : Timestamp) :
    Lockstep Q Q (charge nested host adapter ledger schedule lower now)
      (charge nested' host' adapter ledger schedule lower now) := by
  have hsame : ∀ x y, Q x y → Q x y := fun _ _ h => h
  refine lockstep_get fun x y hxy => ?_
  rw [hs.config x y hxy]
  refine lockstep_ite ?_ ?_
  · refine lockstep_bind (hs.convert adapter lower hasked) hsame fun value => ?_
    dsimp only
    split
    · exact lockstep_pure _
    · exact lockstep_throw _
  · refine lockstep_bind (lockstep_pure _) hsame fun value => ?_
    dsimp only
    split
    · exact lockstep_pure _
    · exact lockstep_throw _

/-! ### Whole calls -/

/-- A relation that holds while a call is in progress gives another one when the call ends. -/
structure Closes (Q R : World σ A → World σ' A → Prop) : Prop where
  commit : ∀ x y state now events, Q x y →
    R (x.mapVault fun v => v.commit state now events)
      (y.mapVault fun v => v.commit state now events)
  reject : ∀ x y, Q x y →
    R (x.mapVault fun v => v.abandon.reject) (y.mapVault fun v => v.abandon.reject)
  abandon : ∀ x y, Q x y → R (x.mapVault .abandon) (y.mapVault .abandon)

/-- The worlds in which the same call begins on both sides: idle vaults that are alike, and related
worlds as soon as they are busy. -/
structure Begins (Q : World σ A → World σ' A → Prop) (host : Host σ A) (host' : Host σ' A)
    (x : World σ A) (y : World σ' A) : Prop where
  same : x.vault.Twin y.vault
  idle : x.vault.entered = false
  now : host.now x.host = host'.now y.host
  related : Q (x.mapVault .begin) (y.mapVault .begin)

/-- Vaults like this one in related worlds. -/
def Alike (v : Vault A) (Q : World σ A → World σ' A → Prop) (x : World σ A) (y : World σ' A) :
    Prop :=
  x.vault.Twin v ∧ y.vault.Twin v ∧ Q x y

variable {v : Vault A} {x : World σ A} {y : World σ' A}

theorem lockstep_alike {m : Operation σ A α} {m' : Operation σ' A α} (h : Lockstep Q Q m m') :
    Lockstep (Alike v Q) Q m m' := fun x y hxy => h x y hxy.2.2

/-- Vaults that are alike look up a source of prices by its name, and value what they hold by it. -/
theorem lockstep_valued (hs : InStep asked Q nested host nested' host') {reference : Reference}
    {f : A → List Amount × Tvl → Operation σ A α} {f' : A → List Amount × Tvl → Operation σ' A α}
    (hasked : ∀ adapter, v.adapters.get? reference = some adapter → asked adapter)
    (hf : ∀ adapter, asked adapter → ∀ valued,
      Lockstep Q Q (f adapter valued) (f' adapter valued)) :
    Lockstep (Alike v Q) Q
      (adapterOf reference >>= fun adapter => valuation nested host adapter >>= f adapter)
      (adapterOf reference >>= fun adapter => valuation nested' host' adapter >>= f' adapter) := by
  have hsame : ∀ x y, Q x y → Q x y := fun _ _ h => h
  refine lockstep_adapterOf (fun _ _ h => ⟨h.1, h.2.1⟩) (fun _ _ h => h.2.2)
    fun adapter hadapter => ?_
  have hprices : asked adapter := hasked adapter hadapter
  exact lockstep_bind (lockstep_alike (lockstep_valuation hs hprices)) hsame (hf adapter hprices)

theorem Begins.alike (h : Begins Q host host' x y) :
    Alike y.vault.begin Q (x.mapVault .begin) (y.mapVault .begin) :=
  ⟨h.same.begin, .refl _, h.related⟩

theorem mutate_lockstep {body : VaultState → Timestamp → Operation σ A (Effect α)}
    {body' : VaultState → Timestamp → Operation σ' A (Effect α)} (hclose : Closes Q R)
    (hbegin : Begins Q host host' x y)
    (hbody : ∀ now, Lockstep (Alike y.vault.begin Q) Q (body y.vault.state now)
      (body' y.vault.state now)) :
    SameEnd R (mutate host body x) (mutate host' body' y) := by
  have hend := hbody (host.now x.host) _ _ hbegin.alike
  have hidle : y.vault.entered = false := hbegin.same.entered.symm.trans hbegin.idle
  rw [mutate_idle hbegin.idle, mutate_idle hidle, ← hbegin.now, hbegin.same.state]
  generalize body y.vault.state (host.now x.host) (x.mapVault .begin) = ended at hend
  generalize body' y.vault.state (host.now x.host) (y.mapVault .begin) = ended' at hend
  cases hend with
  | ok related => exact .ok (hclose.commit _ _ _ _ _ related)
  | error related => exact .error (hclose.reject _ _ related)

theorem guarded_lockstep {body : Operation σ A α} {body' : Operation σ' A α}
    (hclose : Closes Q R) (hbegin : Begins Q host host' x y)
    (hbody : Lockstep (Alike y.vault.begin Q) Q body body') :
    SameEnd R (guarded body x) (guarded body' y) := by
  have hend := hbody _ _ hbegin.alike
  have hidle : y.vault.entered = false := hbegin.same.entered.symm.trans hbegin.idle
  rw [guarded_idle hbegin.idle, guarded_idle hidle]
  generalize body (x.mapVault .begin) = ended at hend
  generalize body' (y.mapVault .begin) = ended' at hend
  cases hend with
  | ok related => exact .ok (hclose.abandon _ _ related)
  | error related => exact .error (hclose.abandon _ _ related)

/-- An operation on the governance alone asks nobody. -/
theorem govern_lockstep (hclose : Closes Q R) (hbegin : Begins Q host host' x y)
    (body : VaultGovernance → Timestamp →
      Except GovernanceError (VaultGovernance × Reply × VaultEvent)) :
    SameEnd R (govern host body x) (govern host' body y) := by
  rw [govern, govern]
  refine mutate_lockstep hclose hbegin fun now => lockstep_alike ?_
  exact lockstep_bind (lockstep_lift _) (fun _ _ h => h) fun _ => lockstep_pure _

theorem lockstep_checkReference (value : ParamValue) :
    Lockstep (Alike v Q) Q (checkReference value) (checkReference value) := by
  cases value with
  | reference r =>
    refine lockstep_adapterOf (fun _ _ h => ⟨h.1, h.2.1⟩) (fun _ _ h => h.2.2) fun _ _ => ?_
    exact lockstep_alike (lockstep_pure ())
  | _ => exact lockstep_alike (lockstep_pure ())

/-- A call that goes through the guard ends alike on both sides.  The vaults are alike until the
source of prices has been looked up; from then on the relation is all that is left. -/
theorem ofCall_lockstep (hs : InStep asked Q nested host nested' host') (hclose : Closes Q R)
    (hbegin : Begins Q host host' x y) {c : Call A} (hc : c.guarded = true)
    (hasked : ∀ adapter, y.vault.source? = some adapter → asked adapter) :
    SameEnd R (ofCall nested host c x) (ofCall nested' host' c y) := by
  have hfirst : ∀ x₁ y₁, Alike y.vault.begin Q x₁ y₁ → Q x₁ y₁ := fun _ _ h => h.2.2
  have hsame : ∀ x y, Q x y → Q x y := fun _ _ h => h
  cases c with
  | deposit caller amounts minShares deadline =>
    rw [ofCall, ofCall, deposit, deposit]
    refine mutate_lockstep hclose hbegin fun now => ?_
    refine lockstep_ite (lockstep_throw_bind _ _ _ hfirst) ?_
    refine lockstep_get fun x₁ y₁ hxy => ?_
    rw [hxy.1.tokenCount_eq, hxy.2.1.tokenCount_eq]
    refine lockstep_bind (lockstep_lift _) hfirst fun _ => ?_
    refine lockstep_ite ?_ (lockstep_throw_bind _ _ _ hfirst)
    refine lockstep_valued hs hasked fun adapter hprices valued => ?_
    refine lockstep_bind (lockstep_charge hs hprices _ _ _ _) hsame fun charge => ?_
    refine lockstep_get fun x y hxy => ?_
    rw [hs.config x y hxy]
    refine lockstep_bind (lockstep_lift _) hsame fun settlement => ?_
    refine lockstep_bind (hs.pull caller settlement.2.amounts) hsame fun answer => ?_
    refine lockstep_bind (lockstep_lift _) hsame fun _ => ?_
    exact lockstep_pure _
  | withdraw caller shares minAmounts recipient =>
    rw [ofCall, ofCall, withdraw, withdraw]
    refine mutate_lockstep hclose hbegin fun now => ?_
    refine lockstep_get fun x₁ y₁ hxy => ?_
    rw [hxy.1.tokenCount_eq, hxy.2.1.tokenCount_eq]
    refine lockstep_bind (lockstep_lift _) hfirst fun _ => ?_
    refine lockstep_valued hs hasked fun adapter hprices valued => ?_
    refine lockstep_bind (lockstep_charge hs hprices _ _ _ _) hsame fun charge => ?_
    refine lockstep_bind (lockstep_lift _) hsame fun settlement => ?_
    refine lockstep_bind (hs.release recipient settlement.2) hsame fun answer => ?_
    refine lockstep_bind (lockstep_lift _) hsame fun _ => ?_
    exact lockstep_pure _
  | transfer caller receiver amount =>
    rw [ofCall, ofCall, transfer, transfer]
    refine mutate_lockstep hclose hbegin fun now => lockstep_alike ?_
    exact lockstep_bind (lockstep_lift _) hsame fun _ => lockstep_pure _
  | stage caller p value =>
    rw [ofCall, ofCall, stage, stage]
    refine mutate_lockstep hclose hbegin fun now => ?_
    refine lockstep_bind (lockstep_checkReference value) hsame fun _ => ?_
    exact lockstep_bind (lockstep_lift _) hsame fun _ => lockstep_pure _
  | previewFees =>
    rw [ofCall, ofCall, preview, preview]
    refine guarded_lockstep hclose hbegin ?_
    refine lockstep_get fun x₁ y₁ hxy => ?_
    rw [hxy.1.state, hxy.2.1.state]
    refine lockstep_valued hs hasked fun adapter hprices valued => ?_
    refine lockstep_get fun x y hxy => ?_
    rw [hs.now x y hxy]
    refine lockstep_bind (lockstep_charge hs hprices _ _ _ _) hsame fun charge => ?_
    exact lockstep_pure _
  | registerAdapter caller adapter => cases hc
  | persist => cases hc
  | ask q => cases hc
  | commit caller p =>
    rw [ofCall, ofCall, commit, commit]
    exact govern_lockstep hclose hbegin _
  | rollback caller p =>
    rw [ofCall, ofCall, rollback, rollback]
    exact govern_lockstep hclose hbegin _
  | grantRole caller account role =>
    rw [ofCall, ofCall, grantRole, grantRole]
    exact govern_lockstep hclose hbegin _
  | revokeRole caller account role =>
    rw [ofCall, ofCall, revokeRole, revokeRole]
    exact govern_lockstep hclose hbegin _
  | setDepositLimits caller limits =>
    rw [ofCall, ofCall, setDepositLimits, setDepositLimits]
    exact govern_lockstep hclose hbegin _
  | setPrivate caller privateVault =>
    rw [ofCall, ofCall, setPrivate, setPrivate]
    exact govern_lockstep hclose hbegin _
  | setDepositorAllowed caller account allowed =>
    rw [ofCall, ofCall, setDepositorAllowed, setDepositorAllowed]
    exact govern_lockstep hclose hbegin _

end Operation

/-- Calls whose steps end alike have the same outcome. -/
theorem performWith_of_sameEnd {R : World σ A → World σ' A → Prop} {nested : Performer σ A}
    {host : Host σ A} {nested' : Performer σ' A} {host' : Host σ' A} {c : Call A} {x : World σ A}
    {y : World σ' A}
    (h : SameEnd R (Operation.ofCall nested host c x) (Operation.ofCall nested' host' c y)) :
    (performWith nested host c x).1 = (performWith nested' host' c y).1 ∧
      R (performWith nested host c x).2 (performWith nested' host' c y).2 := by
  generalize hx : Operation.ofCall nested host c x = ended at h
  generalize hy : Operation.ofCall nested' host' c y = ended' at h
  cases h with
  | ok related =>
    rw [performWith_of_ok hx, performWith_of_ok hy]
    exact ⟨rfl, related⟩
  | error related =>
    rw [performWith_of_error hx, performWith_of_error hy]
    exact ⟨rfl, related⟩

/-- A call that goes through the guard has the same outcome among hosts that are in step. -/
theorem performWith_lockstep {asked : A → Prop} {Q R : World σ A → World σ' A → Prop}
    {nested : Performer σ A} {host : Host σ A} {nested' : Performer σ' A} {host' : Host σ' A}
    {x : World σ A} {y : World σ' A} (hs : InStep asked Q nested host nested' host')
    (hclose : Operation.Closes Q R) (hbegin : Operation.Begins Q host host' x y) {c : Call A}
    (hc : c.guarded = true)
    (hasked : ∀ adapter, y.vault.source? = some adapter → asked adapter) :
    (performWith nested host c x).1 = (performWith nested' host' c y).1 ∧
      R (performWith nested host c x).2 (performWith nested' host' c y).2 :=
  performWith_of_sameEnd (Operation.ofCall_lockstep hs hclose hbegin hc hasked)

end ShareVault
