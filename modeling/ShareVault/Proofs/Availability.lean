import ShareVault.Proofs.Sources

/-!
# A source of prices is available

A vault that knows a source of prices by the name in force can price every call.  The name in force
is looked up when the vault comes into being, and so is every name when it is staged, but a vault
that is restored looks up the name in force only.  Hence the invariant is about both names, and a
restore keeps it only if it also brings a source of prices for the name that waits.

* `World.Supplied` — the vault knows the name in force and the name that waits;
* `Turn.BringsStaged` — a restore that brings a source of prices for the name that waits;
* `World.Supplied.turn`, `World.Supplied.play` — the invariant over a turn and over a run;
* `source_available` — no priced call fails for an unknown source.
-/

namespace ShareVault

variable {σ A : Type} {host : Host σ A} {w : World σ A} {t : Turn σ A} {name : Reference}

/-! ### Known names -/

/-- The vault knows a source of prices by this name. -/
def Vault.Knows (v : Vault A) (name : Reference) : Prop :=
  ∃ adapter, v.adapters.get? name = some adapter

/-- More sources of prices make no name unknown. -/
theorem knows_addSources {reference : A → Reference} {known : SortedMap Reference A}
    {added : List (Account × A)} (h : ∃ adapter, known.get? name = some adapter) :
    ∃ adapter, (addSources reference known added).get? name = some adapter := by
  induction added generalizing known with
  | nil => exact h
  | cons r rest ih =>
    refine ih ?_
    rw [SortedMap.get?_insert]
    split
    · exact ⟨_, rfl⟩
    · exact h

theorem Vault.Knows.turn (h : w.vault.Knows name) (hidle : w.vault.entered = false)
    (hkept : t.restores = false) : (t.play host w).vault.Knows name := by
  unfold Knows
  rw [Turn.adapters_eq hidle hkept]
  exact knows_addSources h

/-- A vault knows the names of the sources of prices that it is given. -/
theorem knows_ofParts {id : Uuid} {config : VaultConfig} {state : VaultState}
    {adapters : List (Reference × A)} (h : ∃ a ∈ adapters, a.1 = name) :
    (Vault.ofParts id config state adapters).Knows name := by
  obtain ⟨a, ha, rfl⟩ := h
  show ∃ adapter, (SortedMap.ofList adapters).get? a.1 = some adapter
  rw [SortedMap.get?_ofList]
  cases hfound : adapters.reverse.find? fun e => e.1 = a.1 with
  | none =>
    have hnone := List.find?_eq_none.mp hfound a (List.mem_reverse.mpr ha)
    simp at hnone
  | some e => exact ⟨e.2, rfl⟩

/-- A name that is staged with success is known. -/
theorem knows_of_stage {caller : Account} {p : Param} {reply : Reply}
    (h : (perform host (.stage caller p (.reference name)) w).1 = .ok reply) :
    w.vault.Knows name := by
  rcases hperformed : perform host (.stage caller p (.reference name)) w with ⟨outcome, w'⟩
  rw [hperformed] at h
  obtain rfl : outcome = .ok reply := h
  have hstages := perform_eq_ok.mp hperformed
  rw [Operation.ofCall, Operation.stage] at hstages
  obtain ⟨_, effect, w₁, hbody, _, _⟩ := Operation.mutate_ok hstages
  obtain ⟨_, _, hchecks, _⟩ := Effectful.bind_eq_ok.mp hbody
  exact (Operation.checkReference_ok hchecks).2 name rfl

/-- A vault is restored only with a source of prices for the name in force. -/
theorem restore_brings {store : VaultStore} {id : Uuid} {adapters : List (Reference × A)}
    {v : Vault A} (h : Vault.restore store id adapters = .ok v) :
    ∃ a ∈ adapters, a.1 = v.state.governance.schedule.valuationReference := by
  unfold Vault.restore at h
  simp only [Attempt.bind_eq_ok, Attempt.mapError_eq_ok] at h
  obtain ⟨stored, _, h⟩ := h
  cases stored with
  | none => cases h
  | some record =>
    simp only [Attempt.bind_eq_ok, Attempt.mapError_eq_ok] at h
    obtain ⟨_, _, _, _, h⟩ := h
    split at h
    next => cases h
    next hbrings =>
      obtain rfl := Attempt.pure_eq_ok.mp h
      simpa [Vault.ofParts] using hbrings

/-! ### The invariant -/

/-- The vault knows a source of prices by the name in force, and by the name that waits. -/
structure World.Supplied (w : World σ A) : Prop where
  active : w.vault.Knows (w.timelock .valuationReference).active
  staged : ∀ name, (w.timelock .valuationReference).staged = some name → w.vault.Knows name

/-- If the turn restores a vault in which a name waits, it brings a source of prices for it. -/
def Turn.BringsStaged (host : Host σ A) (w : World σ A) : Turn σ A → Prop
  | .restore id adapters => ∀ v name,
      Vault.restore w.store id (adapters.map fun a => (host.reference a, a)) = .ok v →
      (v.state.governance.params.get .valuationReference).staged = some name →
      ∃ adapter ∈ adapters, host.reference adapter = name
  | _ => True

namespace World.Supplied

/-- A turn that restores no vault: names are staged only when they are known, and a commit puts in
force the one that waited. -/
theorem kept (h : w.Supplied) (hidle : w.vault.entered = false) (hkept : t.restores = false) :
    (t.play host w).Supplied := by
  have hknown {name : Reference} (hname : w.vault.Knows name) :
      (t.play host w).vault.Knows name := hname.turn hidle hkept
  by_cases hacts : t.ActsOn host w .valuationReference
  · obtain ⟨c, reply, rfl, hok, hmoves⟩ := Turn.moves hacts
    generalize hlock : ((Turn.call c).play host w).timelock .valuationReference = lock at hmoves
    cases hmoves with
    | stages authorized =>
      constructor
      · rw [hlock]
        exact hknown h.active
      · rw [hlock]
        rintro name ⟨⟩
        exact hknown (knows_of_stage hok)
    | commits authorized waits ready =>
      constructor
      · rw [hlock]
        exact hknown (h.staged _ waits)
      · rw [hlock]
        rintro name ⟨⟩
    | drops authorized =>
      constructor
      · rw [hlock]
        exact hknown h.active
      · rw [hlock]
        rintro name ⟨⟩
  · have hlock := Turn.timelock_eq hkept hacts
    constructor
    · rw [hlock]
      exact hknown h.active
    · rw [hlock]
      exact fun name hname => hknown (h.staged name hname)

/-- A turn that restores a vault. -/
theorem restored (h : w.Supplied) {id : Uuid} {adapters : List A}
    (hbrings : (Turn.restore id adapters : Turn σ A).BringsStaged host w) :
    ((Turn.restore id adapters).play host w).Supplied := by
  rw [Turn.play]
  cases hrestored : Vault.restore w.store id (adapters.map fun a => (host.reference a, a)) with
  | error e => exact h
  | ok v =>
    obtain ⟨a, ha, hactive⟩ := restore_brings hrestored
    have hstaged := hbrings v
    obtain ⟨record, _, rfl⟩ := restore_ok hrestored
    constructor
    · exact knows_ofParts ⟨a, ha, hactive⟩
    · intro name hname
      obtain ⟨adapter, hadapter, rfl⟩ := hstaged name hrestored hname
      exact knows_ofParts ⟨_, List.mem_map_of_mem hadapter, rfl⟩

theorem turn (h : w.Supplied) (hidle : w.vault.entered = false)
    (hbrings : t.BringsStaged host w) : (t.play host w).Supplied := by
  cases t with
  | restore id adapters => exact h.restored hbrings
  | call c => exact h.kept hidle rfl
  | outside s => exact h.kept hidle rfl

theorem play (h : w.Supplied) (hw : Reachable host w) {turns : List (Turn σ A)}
    (hbrings : ∀ x ∈ history host w turns, x.2.BringsStaged host x.1) :
    (play host w turns).Supplied := by
  induction turns generalizing w with
  | nil => exact h
  | cons t rest ih =>
    rw [history, List.forall_mem_cons] at hbrings
    exact ih (h.turn hw.idle hbrings.1) (.turn t hw) hbrings.2

/-- A new vault knows the name in force, and no name waits. -/
theorem create {id : Uuid} {config : VaultConfig} {admin : Account} {schedule : FeeSchedule}
    {adapter : Reference × A} {now : Timestamp} {v : Vault A}
    (created : Vault.create id config admin schedule adapter now = .ok v) (s : σ) :
    (⟨v, .empty, s⟩ : World σ A).Supplied := by
  have hparams := (create_governance created).2
  have hnone := create_staged_eq_none created s .valuationReference
  obtain ⟨governance, _, _, hreference, rfl⟩ := create_ok created
  constructor
  · refine knows_ofParts ⟨adapter, List.mem_singleton_self _, ?_⟩
    rw [← hreference]
    exact congrArg Timelocked.active (hparams .valuationReference).symm
  · intro name hname
    rw [hnone] at hname
    cases hname

end World.Supplied

/-! ### The result -/

/-- The name by which a priced call looks for its source of prices is the one in force. -/
theorem Call.lookup?_of_priced {c : Call A} (hc : c.priced = true) (v : Vault A) :
    c.lookup? v = some v.state.governance.schedule.valuationReference := by
  cases c with
  | deposit caller amounts minShares deadline => rfl
  | withdraw caller shares minAmounts recipient => rfl
  | previewFees => rfl
  | _ => cases hc

/-- A priced call does not fail for an unknown source of prices, if there is one in force. -/
theorem perform_ne_unknown {c : Call A} {source : A} (hidle : w.vault.entered = false)
    (hc : c.priced = true) (hsource : w.vault.source? = some source) :
    (perform host c w).1 ≠ .error (.unknownAdapter name) := by
  intro hfails
  obtain ⟨hlookup, hnone⟩ := (perform_error_idle hidle hfails).unknown name rfl
  rw [Call.lookup?_of_priced hc] at hlookup
  cases hlookup
  exact Option.some_ne_none _ (hsource.symm.trans hnone)

/-- In every run of a new vault in which restores bring a source of prices for the name that waits,
there is a source of prices in force, and no priced call fails because it is unknown. -/
theorem source_available {id : Uuid} {config : VaultConfig} {admin : Account}
    {schedule : FeeSchedule} {adapter : A} {s : σ} {v : Vault A} {turns : List (Turn σ A)}
    (created : Vault.create id config admin schedule (host.reference adapter, adapter)
      (host.now s) = .ok v)
    (hbrings : ∀ x ∈ history host ⟨v, .empty, s⟩ turns, x.2.BringsStaged host x.1) :
    (∃ source, (play host ⟨v, .empty, s⟩ turns).vault.source? = some source) ∧
      ∀ c : Call A, c.priced = true → ∀ name,
        (perform host c (play host ⟨v, .empty, s⟩ turns)).1 ≠ .error (.unknownAdapter name) := by
  have hstart : Reachable host ⟨v, .empty, s⟩ := .create created
  obtain ⟨source, hsource⟩ := ((World.Supplied.create created s).play hstart hbrings).active
  exact ⟨⟨source, hsource⟩,
    fun c hc name => perform_ne_unknown (hstart.play turns).idle hc hsource⟩

namespace SmallVault

/-- The admin stages another name, the vault is stored and restored with these sources of prices,
and the name is put in force. -/
def renamedAfterRestore (adapters : List Handle) : List (Turn InMemory Handle) :=
  [.call (.registerAdapter "admin" ⟨"half", 1⟩),
    .call (.stage "admin" .valuationReference (.reference "half")),
    .call .persist,
    .restore ⟨0⟩ adapters,
    .outside { (besideAnother "half").host with clock := (surroundings 1 0 0).clock },
    .call (.commit "admin" .valuationReference)]

/-- The vault after these turns. -/
def restoredAmong (adapters : List Handle) : World InMemory Handle :=
  play InMemory.host (besideAnother "half") (renamedAfterRestore adapters)

/-- The vault before it is restored. -/
def stored : World InMemory Handle :=
  play InMemory.host (besideAnother "half") ((renamedAfterRestore []).take 3)

/-- The name that waits in the vault when it is restored with these sources of prices. -/
def waitingName (adapters : List Handle) : Option Reference :=
  match Vault.restore stored.store ⟨0⟩ (adapters.map fun a => (InMemory.host.reference a, a)) with
  | .ok v => (v.state.governance.params.get .valuationReference).staged
  | .error _ => none

end SmallVault

theorem source_available_renamed :
    (∃ source, (SmallVault.restoredAmong [⟨"par", 0⟩, ⟨"half", 1⟩]).vault.source? =
        some source) ∧
      (perform InMemory.host .previewFees
        (SmallVault.restoredAmong [⟨"par", 0⟩, ⟨"half", 1⟩])).1 ≠
          .error (.unknownAdapter "half") := by
  have hwaiting : SmallVault.waitingName [⟨"par", 0⟩, ⟨"half", 1⟩] = some "half" := by
    decide +kernel
  have hrestore : Turn.BringsStaged InMemory.host SmallVault.stored
      (.restore ⟨0⟩ [⟨"par", 0⟩, ⟨"half", 1⟩]) := by
    intro v name hrestored hname
    unfold SmallVault.waitingName at hwaiting
    rw [hrestored] at hwaiting
    obtain rfl := Option.some.inj (hname.symm.trans hwaiting)
    exact ⟨⟨"half", 1⟩, by simp, rfl⟩
  have hbrings : ∀ x ∈ history InMemory.host (SmallVault.besideAnother "half")
      (SmallVault.renamedAfterRestore [⟨"par", 0⟩, ⟨"half", 1⟩]),
      x.2.BringsStaged InMemory.host x.1 := by
    simp only [SmallVault.renamedAfterRestore, history, List.forall_mem_cons]
    exact ⟨trivial, trivial, trivial, hrestore, trivial, trivial, fun x hx => by cases hx⟩
  obtain ⟨hsource, havailable⟩ :=
    source_available (SmallVault.createdBeside "half") hbrings
  exact ⟨hsource, havailable .previewFees rfl "half"⟩

/-- When the restore brings a source of prices for the name in force only, the commit of the name
that waits leaves the vault without one. -/
theorem source_missing_after_restore :
    Reachable InMemory.host (SmallVault.restoredAmong [⟨"par", 0⟩]) ∧
      (Vault.restore SmallVault.stored.store ⟨0⟩ [("par", (⟨"par", 0⟩ : Handle))]).isOk = true ∧
      (SmallVault.restoredAmong [⟨"par", 0⟩]).vault.source? = none ∧
      (perform InMemory.host .previewFees (SmallVault.restoredAmong [⟨"par", 0⟩])).1 =
        .error (.unknownAdapter "half") := by
  have hcreated : Reachable InMemory.host (SmallVault.besideAnother "half") :=
    .create (SmallVault.createdBeside "half")
  exact ⟨hcreated.play _, by decide +kernel, by decide +kernel, by decide +kernel⟩

end ShareVault
