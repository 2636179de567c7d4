import ShareVault.Proofs.Pricing
import ShareVault.Proofs.Timelock

/-!
# Which source of prices is in force

The name of the source in force is a parameter like any other, and waits for the timelock.  What the
name stands for does not: an admin may register another source of prices by the same name, and from
then on that one is in force.

* `Turn.calls`, `Turn.Registers` — the calls of a turn, and the registrations among them;
* `Turn.adapters_eq` — a turn adds the sources of prices that are registered in it, and no other;
* `Turn.source?_eq`, `source?_play` — what leaves the source in force alone;
* `source_in_force` — between two calls that go by different sources there is a commit that has
  waited, or a registration by the name in force.
-/

namespace ShareVault

variable {σ A : Type} {host : Host σ A} {nested : Performer σ A} {w w' start : World σ A}
  {c : Call A} {t : Turn σ A} {caller : Account} {adapter : A}

/-! ### Calls that hand no control to outside code -/

/-- The frame of calls that hand no control to outside code, and register nothing. -/
def Frame.inner : Frame σ A where
  rel w w' := w'.vault.adapters = w.vault.adapters ∧ w'.host = w.host
  refl _ := ⟨rfl, rfl⟩
  trans h h' := ⟨h'.1.trans h.1, h'.2.trans h.2⟩

namespace Operation

variable {α : Type}

theorem mutate_inner {body : VaultState → Timestamp → Operation σ A (Effect α)}
    (hbody : ∀ s now, Keeps .inner (body s now)) : Keeps .inner (mutate host body) := by
  intro w
  cases hw : w.vault.entered with
  | true =>
    rw [mutate_busy hw]
    exact ⟨rfl, rfl⟩
  | false =>
    have hdone := hbody w.vault.state (host.now w.host) (w.mapVault .begin)
    rw [mutate_idle hw]
    cases h : body w.vault.state (host.now w.host) (w.mapVault .begin) with
    | ok effect w₁ =>
      rw [h] at hdone
      exact hdone
    | error e w₁ =>
      rw [h] at hdone
      exact hdone

theorem govern_inner (body : VaultGovernance → Timestamp →
    Except GovernanceError (VaultGovernance × Reply × VaultEvent)) :
    Keeps .inner (govern host body) := by
  rw [govern]
  exact mutate_inner fun _ _ => keeps_bind (keeps_lift _) fun _ => keeps_pure _

theorem ofCall_inner (hg : c.guarded = true) (hp : c.priced = false) :
    Keeps .inner (ofCall nested host c) := by
  cases c with
  | transfer caller receiver amount =>
    rw [ofCall, transfer]
    exact mutate_inner fun _ _ => keeps_bind (keeps_lift _) fun _ => keeps_pure _
  | stage caller p value =>
    rw [ofCall, stage]
    refine mutate_inner fun _ _ => keeps_bind (keeps_checkReference value) fun _ => ?_
    exact keeps_bind (keeps_lift _) fun _ => keeps_pure _
  | commit caller p =>
    rw [ofCall, commit]
    exact govern_inner _
  | rollback caller p =>
    rw [ofCall, rollback]
    exact govern_inner _
  | grantRole caller account role =>
    rw [ofCall, grantRole]
    exact govern_inner _
  | revokeRole caller account role =>
    rw [ofCall, revokeRole]
    exact govern_inner _
  | setDepositLimits caller limits =>
    rw [ofCall, setDepositLimits]
    exact govern_inner _
  | setPrivate caller privateVault =>
    rw [ofCall, setPrivate]
    exact govern_inner _
  | setDepositorAllowed caller account allowed =>
    rw [ofCall, setDepositorAllowed]
    exact govern_inner _
  | deposit caller amounts minShares deadline => cases hp
  | withdraw caller shares minAmounts recipient => cases hp
  | previewFees => cases hp
  | registerAdapter caller adapter => cases hg
  | persist => cases hg
  | ask q => cases hg

end Operation

theorem performWith_inner (hg : c.guarded = true) (hp : c.priced = false) :
    Frame.inner.rel w (performWith nested host c w).2 := by
  rw [performWith_world]
  exact Operation.ofCall_inner hg hp w

/-- A call that is not priced hands no control to outside code. -/
theorem journal_eq_nil (hp : c.priced = false) : journal host c w = [] := by
  unfold journal performJournaled
  cases hg : c.guarded with
  | true => rw [(performWith_inner hg hp).2]; rfl
  | false =>
    have hcall : NestedCall.WhileBusy host.journaled ⟨c, w.beside [],
        (performWith host.nested.journaled host.journaled c (w.beside [])).1,
        (performWith host.nested.journaled host.journaled c (w.beside [])).2⟩ :=
      performWith_whileBusy fun h => by rw [hg] at h; cases h
    exact congrArg Prod.snd hcall.host_eq

/-! ### The calls of a turn -/

/-- The calls on the vault in a turn: those of outside code, then the call itself. -/
def Turn.calls (host : Host σ A) (w : World σ A) : Turn σ A → Journal σ A
  | .call c => journal host c w ++ [⟨c, w, (perform host c w).1, (perform host c w).2⟩]
  | _ => []

/-- In the turn the account registers this source of prices, by a call of its own or from inside
another call. -/
def Turn.Registers (host : Host σ A) (w : World σ A) (t : Turn σ A) (caller : Account)
    (adapter : A) : Prop :=
  (caller, adapter) ∈ (t.calls host w).registrations

theorem NestedCall.registration?_eq_none {e : NestedCall σ A} (h : e.call.guarded = true) :
    e.registration? = none := by
  obtain ⟨c, before, outcome, after⟩ := e
  cases c with
  | registerAdapter caller adapter => cases h
  | _ => rfl

theorem NestedCall.registration?_eq_some {e : NestedCall σ A} :
    e.registration? = some (caller, adapter) ↔
      e.call = .registerAdapter caller adapter ∧ ∃ reply, e.outcome = .ok reply := by
  obtain ⟨c, before, outcome, after⟩ := e
  unfold registration?
  split
  next => simp_all
  next h =>
    constructor
    · rintro ⟨⟩
    · rintro ⟨hc, reply, ho⟩
      exact (h _ _ _ hc ho).elim

/-- The calls of a call that is not priced: itself. -/
theorem Turn.calls_unpriced (hp : c.priced = false) : (Turn.call c).calls host w =
    [⟨c, w, (perform host c w).1, (perform host c w).2⟩] := by
  rw [calls, journal_eq_nil hp]
  rfl

/-- A call that goes through the guard registers what outside code registers meanwhile. -/
theorem Turn.registrations_guarded (hg : c.guarded = true) :
    ((Turn.call c).calls host w).registrations = (journal host c w).registrations := by
  unfold calls Journal.registrations
  rw [List.filterMap_append, List.filterMap_cons_none (NestedCall.registration?_eq_none hg),
    List.filterMap_nil, List.append_nil]

/-- A turn adds the sources of prices that are registered in it, and no other. -/
theorem Turn.adapters_eq (hidle : w.vault.entered = false) (hkept : t.restores = false) :
    (t.play host w).vault.adapters =
      addSources host.reference w.vault.adapters (t.calls host w).registrations := by
  cases t with
  | outside s => rfl
  | restore id adapters => cases hkept
  | call c =>
    show (perform host c w).2.vault.adapters = _
    cases hg : c.guarded with
    | false =>
      have hcall : NestedCall.WhileBusy host ⟨c, w, (perform host c w).1, (perform host c w).2⟩ :=
        performWith_whileBusy fun h => by rw [hg] at h; cases h
      have hp : c.priced = false := by
        cases c with
        | registerAdapter caller adapter => rfl
        | persist => rfl
        | ask q => rfl
        | _ => cases hg
      rw [calls_unpriced hp]
      exact congrArg Vault.adapters hcall.attend_eq
    | true =>
      rw [registrations_guarded hg]
      cases hp : c.priced with
      | false =>
        rw [journal_eq_nil hp]
        exact (performWith_inner hg hp).1
      | true =>
        obtain ⟨_, hended⟩ := perform_silenced host hidle hp
        rw [← (perform_journaled host hidle hp).2, ← hended.adapters]
        exact congrArg Vault.adapters hended.attended

/-- A call in a turn is one that outside code makes meanwhile, or the call that the turn is. -/
theorem Turn.mem_calls (hidle : w.vault.entered = false) {e : NestedCall σ A}
    (he : e ∈ t.calls host w) :
    (e.WhileBusy host ∧ w.vault.begin.Attended e.before.vault) ∨
      ∃ c, e = ⟨c, w, (perform host c w).1, (perform host c w).2⟩ := by
  cases t with
  | outside s => cases he
  | restore id adapters => cases he
  | call c =>
    rcases List.mem_append.mp he with he | he
    · cases hp : c.priced with
      | true => exact .inl ((perform_silenced host hidle hp).2.entries e he)
      | false =>
        rw [journal_eq_nil hp] at he
        cases he
    · exact .inr ⟨c, List.mem_singleton.mp he⟩

/-- A registration is made in the state that was committed before the turn. -/
theorem Turn.Registers.entry (hidle : w.vault.entered = false)
    (h : t.Registers host w caller adapter) :
    ∃ e : NestedCall σ A, e.WhileBusy host ∧ e.before.vault.state = w.vault.state ∧
      e.registration? = some (caller, adapter) := by
  obtain ⟨e, he, hregisters⟩ := List.mem_filterMap.mp h
  rcases Turn.mem_calls hidle he with ⟨hbusy, hattended⟩ | ⟨c, rfl⟩
  · exact ⟨e, hbusy, hattended.state_eq, hregisters⟩
  · refine ⟨_, performWith_whileBusy fun hg => ?_, rfl, hregisters⟩
    rw [NestedCall.registration?_eq_none hg] at hregisters
    cases hregisters

/-- Only an admin registers. -/
theorem Turn.Registers.admin (hidle : w.vault.entered = false)
    (h : t.Registers host w caller adapter) :
    w.vault.state.governance.access.hasRole caller .admin = true := by
  obtain ⟨e, hbusy, hstate, hregisters⟩ := h.entry hidle
  obtain ⟨hc, reply, ho⟩ := NestedCall.registration?_eq_some.mp hregisters
  cases hbusy with
  | registered admin =>
    cases hc
    dsimp only at hstate
    rw [hstate] at admin
    obtain ⟨role, hrole, hhas⟩ := VaultGovernance.requireRole_eq_ok.mp admin
    rwa [List.mem_singleton.mp hrole] at hhas
  | rejected guarded => cases ho
  | refused fails => cases ho
  | persisted writes => cases hc
  | unwritten fails => cases hc
  | answered => cases hc

/-! ### The source in force -/

theorem get?_addSources {reference : A → Reference} {name : Reference}
    {known : SortedMap Reference A} {added : List (Account × A)}
    (h : ∀ r ∈ added, reference r.2 ≠ name) :
    (addSources reference known added).get? name = known.get? name := by
  induction added generalizing known with
  | nil => rfl
  | cons r rest ih =>
    rw [List.forall_mem_cons] at h
    exact (ih h.2).trans (SortedMap.get?_insert_of_ne h.1.symm _)

/-- A turn that keeps the name in force, and registers nothing by it, keeps the source in force. -/
theorem Turn.source?_eq (hidle : w.vault.entered = false) (hkept : t.restores = false)
    (hname : (t.play host w).vault.state.governance.schedule.valuationReference =
      w.vault.state.governance.schedule.valuationReference)
    (hother : ∀ caller adapter, t.Registers host w caller adapter →
      host.reference adapter ≠ w.vault.state.governance.schedule.valuationReference) :
    (t.play host w).vault.source? = w.vault.source? := by
  unfold Vault.source?
  rw [hname, adapters_eq hidle hkept]
  exact get?_addSources fun r hr => hother r.1 r.2 hr

/-- The turn puts another name in force. -/
def Turn.Renames (host : Host σ A) (w : World σ A) (t : Turn σ A) : Prop :=
  ((t.play host w).timelock .valuationReference).active ≠ (w.timelock .valuationReference).active

/-- In the turn a source of prices is registered by the name in force. -/
def Turn.Replaces (host : Host σ A) (w : World σ A) (t : Turn σ A) : Prop :=
  ∃ caller adapter, t.Registers host w caller adapter ∧
    w.vault.state.governance.access.hasRole caller .admin = true ∧
    host.reference adapter = w.vault.state.governance.schedule.valuationReference

/-- The source in force is the same after turns that neither put another name in force nor register
a source of prices by the name in force. -/
theorem source?_play (hw : Reachable host w) {turns : List (Turn σ A)}
    (hkept : ∀ t ∈ turns, t.restores = false)
    (h : ∀ x ∈ history host w turns, ¬ x.2.Renames host x.1 ∧ ¬ x.2.Replaces host x.1) :
    (play host w turns).vault.source? = w.vault.source? := by
  induction turns generalizing w with
  | nil => rfl
  | cons t rest ih =>
    rw [List.forall_mem_cons] at hkept
    rw [history, List.forall_mem_cons] at h
    obtain ⟨⟨hname, hreplaces⟩, hrest⟩ := h
    refine (ih (.turn t hw) hkept.2 hrest).trans ?_
    refine Turn.source?_eq hw.idle hkept.1 (Classical.not_not.mp hname) ?_
    exact fun caller adapter hr heq => hreplaces ⟨caller, adapter, hr, hr.admin hw.idle, heq⟩

/-! ### The result -/

/-- When the source in force has changed in some turns, one of them has put another name in force or
registered a source of prices by the name in force. -/
theorem exists_change (hw : Reachable host w) {turns : List (Turn σ A)}
    (hkept : ∀ t ∈ turns, t.restores = false)
    (hchanged : (play host w turns).vault.source? ≠ w.vault.source?) :
    ∃ earlier t later, turns = earlier ++ t :: later ∧
      (t.Renames host (play host w earlier) ∨ t.Replaces host (play host w earlier)) := by
  refine Classical.byContradiction fun hnever => hchanged (source?_play hw hkept fun x hx => ?_)
  obtain ⟨earlier, later, hturns, hworld⟩ := exists_of_mem_history hx
  rw [hworld]
  constructor
  · exact fun hrenames => hnever ⟨earlier, x.2, later, hturns, .inl hrenames⟩
  · exact fun hreplaces => hnever ⟨earlier, x.2, later, hturns, .inr hreplaces⟩

/-- What decides which source of prices is in force in the course of a run. -/
structure SourceKept (host : Host σ A) (start : World σ A) (turns : List (Turn σ A))
    (delay : Timestamp) : Prop where
  /-- A call depends on no source of prices but the one it goes by. -/
  prices : ∀ before c after a host', turns = before ++ .call c :: after →
    c.PricedBy (play host start before) a → host.AgreesOn host' a →
    perform host' c (play host start before) = perform host c (play host start before)
  /-- Between two calls that go by different sources of prices another name was put in force, after
  it had waited, or an admin has registered a source of prices by the name in force. -/
  changes : ∀ front first between second after a b,
    turns = front ++ .call first :: between ++ .call second :: after →
    first.PricedBy (play host start front) a →
    second.PricedBy (play host start (front ++ .call first :: between)) b → a ≠ b →
    ∃ earlier t later, .call first :: between = earlier ++ t :: later ∧
      (CommitsInTime host start (front ++ earlier) t .valuationReference delay ∨
        t.Replaces host (play host start (front ++ earlier)))
  /-- A registration leaves the committed state alone, and with it the name in force.  It changes
  the source in force only if it is made by that name. -/
  registers : ∀ before caller adapter after reply,
    turns = before ++ .call (.registerAdapter caller adapter) :: after →
    (perform host (.registerAdapter caller adapter) (play host start before)).1 = .ok reply →
    (play host start (before ++ [.call (.registerAdapter caller adapter)])).vault.state =
        (play host start before).vault.state ∧
      (play host start (before ++ [.call (.registerAdapter caller adapter)])).vault.source? =
        if (play host start before).vault.state.governance.schedule.valuationReference =
            host.reference adapter then
          some adapter
        else (play host start before).vault.source?

/-- A registration that succeeds adds its source of prices, and that is all. -/
theorem registerAdapter_ok {reply : Reply}
    (h : (perform host (.registerAdapter caller adapter) w).1 = .ok reply) :
    (perform host (.registerAdapter caller adapter) w).2 = w.mapVault fun v =>
      { v with adapters := v.adapters.insert (host.reference adapter) adapter } := by
  have hcall : NestedCall.WhileBusy host ⟨.registerAdapter caller adapter, w,
      (perform host (.registerAdapter caller adapter) w).1,
      (perform host (.registerAdapter caller adapter) w).2⟩ :=
    performWith_whileBusy nofun
  generalize (perform host (.registerAdapter caller adapter) w).1 = outcome at h hcall
  generalize (perform host (.registerAdapter caller adapter) w).2 = w' at hcall ⊢
  cases hcall with
  | rejected guarded => cases guarded
  | registered admin => rfl
  | refused fails => cases h

/-- It changes the source in force only if it is made by the name in force. -/
theorem registerAdapter_source {reply : Reply}
    (h : (perform host (.registerAdapter caller adapter) w).1 = .ok reply) :
    (perform host (.registerAdapter caller adapter) w).2.vault.state = w.vault.state ∧
      (perform host (.registerAdapter caller adapter) w).2.vault.source? =
        if w.vault.state.governance.schedule.valuationReference = host.reference adapter then
          some adapter
        else w.vault.source? := by
  rw [registerAdapter_ok h]
  refine ⟨rfl, ?_⟩
  unfold Vault.source?
  exact SortedMap.get?_insert _ _ _ _

/-- Between two calls that go by different sources of prices some turn has put another name in
force, or registered a source of prices by the name in force. -/
theorem exists_change_between (hstart : Reachable host start) {front between : List (Turn σ A)}
    {first second : Call A} {a b : A}
    (hkept : ∀ t ∈ .call first :: between, t.restores = false)
    (hfirst : first.PricedBy (play host start front) a)
    (hsecond : second.PricedBy (play host start (front ++ .call first :: between)) b)
    (hdiffers : a ≠ b) :
    ∃ earlier t later, .call first :: between = earlier ++ t :: later ∧
      (t.Renames host (play host start (front ++ earlier)) ∨
        t.Replaces host (play host start (front ++ earlier))) := by
  have hchanged : (play host (play host start front) (.call first :: between)).vault.source? ≠
      (play host start front).vault.source? := by
    rw [← play_append, hsecond.2, hfirst.2]
    exact fun hsame => hdiffers (Option.some.inj hsame).symm
  obtain ⟨earlier, t, later, hturns, hchanges⟩ :=
    exists_change (hstart.play front) hkept hchanged
  rw [← play_append] at hchanges
  exact ⟨earlier, t, later, hturns, hchanges⟩

/-- In every run of a new vault the source of prices in force changes in two ways only: with the
name in force, which waits for the timelock, or by a registration by that name, which does not. -/
theorem source_in_force {id : Uuid} {config : VaultConfig} {admin : Account}
    {schedule : FeeSchedule} {s : σ} {v : Vault A} {turns : List (Turn σ A)}
    (created : Vault.create id config admin schedule (host.reference adapter, adapter)
      (host.now s) = .ok v)
    (hkept : ∀ t ∈ turns, t.restores = false) :
    SourceKept host ⟨v, .empty, s⟩ turns config.settings.delay := by
  have hstart : Reachable host ⟨v, .empty, s⟩ := .create created
  have hlock : TimelockKept host ⟨v, .empty, s⟩ turns .valuationReference _ :=
    timelockKept (.create created) hkept (create_staged_eq_none created s _)
  rw [← (create_governance created).1]
  refine ⟨?_, ?_, ?_⟩
  · intro before c after a host' _ hpriced hagrees
    exact perform_eq_of_agreesOn (hstart.play before).idle hpriced hagrees
  · intro front first between second after a b hsplit hfirst hsecond hdiffers
    have hpart : ∀ t ∈ .call first :: between, t.restores = false := by
      intro t ht
      refine hkept t ?_
      rw [hsplit]
      exact List.mem_append_left _ (List.mem_append_right _ ht)
    obtain ⟨earlier, t, later, hturns, hchanges⟩ :=
      exists_change_between hstart hpart hfirst hsecond hdiffers
    refine ⟨earlier, t, later, hturns, hchanges.imp_left fun hrenames => ?_⟩
    have hwhole : turns = (front ++ earlier) ++ t :: (later ++ .call second :: after) := by
      rw [hsplit, hturns]
      simp
    exact hlock.changes _ _ _ hwhole hrenames
  · intro before caller adapter after reply _ hok
    rw [play_append]
    exact registerAdapter_source hok

namespace SmallVault

/-- The small vault, with another source of prices by this name that takes a haircut of one half. -/
def besideAnother (reference : Reference) : World InMemory Handle :=
  { SmallVault.start with host := { SmallVault.start.host with
    adapters := [.atPar "par" 1 0, .atPar reference 1 5000] } }

theorem createdBeside (reference : Reference) : Vault.create ⟨0⟩ config "admin" schedule
    (InMemory.host.reference ⟨"par", 0⟩, ⟨"par", 0⟩)
    (InMemory.host.now (besideAnother reference).host) = .ok vault := rfl

/-- Another name is put in force between two previews. -/
def newName : List (Turn InMemory Handle) :=
  [.call .previewFees,
    .call (.registerAdapter "admin" ⟨"half", 1⟩),
    .call (.stage "admin" .valuationReference (.reference "half")),
    .outside { (besideAnother "half").host with clock := (surroundings 1 0 0).clock },
    .call (.commit "admin" .valuationReference),
    .call .previewFees]

/-- Alice deposits and withdraws, and between the two the admin registers another source of prices
by the name in force. -/
def newSource : List (Turn InMemory Handle) :=
  [.call (.deposit "alice" [.saturate 128 1000] 0 0),
    .call (.registerAdapter "admin" ⟨"par", 1⟩),
    .call (.withdraw "alice" (.saturate 128 1000) [0] "alice")]

/-- The vault after so many of these turns. -/
def newSourceAfter (n : Nat) : World InMemory Handle :=
  play InMemory.host (besideAnother "par") (newSource.take n)

end SmallVault

theorem source_in_force_renamed :
    SourceKept InMemory.host (SmallVault.besideAnother "half") SmallVault.newName
        SmallVault.config.settings.delay ∧
      ∃ earlier t later, SmallVault.newName.take 5 = earlier ++ t :: later ∧
        (CommitsInTime InMemory.host (SmallVault.besideAnother "half") earlier t
            .valuationReference SmallVault.config.settings.delay ∨
          t.Replaces InMemory.host
            (play InMemory.host (SmallVault.besideAnother "half") earlier)) := by
  have hkept : ∀ t ∈ SmallVault.newName, t.restores = false := by decide
  have hsource : SourceKept InMemory.host (SmallVault.besideAnother "half") SmallVault.newName
      SmallVault.config.settings.delay := source_in_force (SmallVault.createdBeside "half") hkept
  refine ⟨hsource, ?_⟩
  have hfirst : Call.PricedBy (SmallVault.besideAnother "half") .previewFees ⟨"par", 0⟩ :=
    ⟨rfl, by decide +kernel⟩
  have hsecond : Call.PricedBy (play InMemory.host (SmallVault.besideAnother "half")
      (SmallVault.newName.take 5)) .previewFees ⟨"half", 1⟩ := ⟨rfl, by decide +kernel⟩
  exact hsource.changes [] .previewFees _ .previewFees [] _ _ rfl hfirst hsecond (by decide)

/-- Alice's withdrawal goes by another source of prices than her deposit, and pays her half,
although nothing has been put in force in between. -/
theorem source_replaced_without_commit :
    Reachable InMemory.host (SmallVault.newSourceAfter 2) ∧
      (Call.deposit "alice" [.saturate 128 1000] 0 0).PricedBy (SmallVault.newSourceAfter 0)
        ⟨"par", 0⟩ ∧
      (Call.withdraw "alice" (.saturate 128 1000) [0] "alice").PricedBy
        (SmallVault.newSourceAfter 2) ⟨"par", 1⟩ ∧
      (∀ x ∈ history InMemory.host (SmallVault.besideAnother "par") (SmallVault.newSource.take 2),
        ¬ x.2.PutsInForce InMemory.host x.1 .valuationReference) ∧
      (perform InMemory.host (.withdraw "alice" (.saturate 128 1000) [0] "alice")
        (SmallVault.newSourceAfter 1)).1 = .ok (.withdrawn [.saturate 128 1000]) ∧
      (perform InMemory.host (.withdraw "alice" (.saturate 128 1000) [0] "alice")
        (SmallVault.newSourceAfter 2)).1 = .ok (.withdrawn [.saturate 128 500]) := by
  have hcreated : Reachable InMemory.host (SmallVault.besideAnother "par") :=
    .create (SmallVault.createdBeside "par")
  refine ⟨hcreated.play _, ⟨rfl, by decide +kernel⟩, ⟨rfl, by decide +kernel⟩, ?_, rfl, rfl⟩
  intro x hx
  obtain ⟨earlier, later, hsplit, _⟩ := exists_of_mem_history hx
  rintro ⟨caller, reply, hcall, _⟩
  have hmem : .call (.commit caller .valuationReference) ∈ SmallVault.newSource.take 2 := by
    rw [hsplit, hcall]
    exact List.mem_append_right _ List.mem_cons_self
  simp [SmallVault.newSource] at hmem

end ShareVault
