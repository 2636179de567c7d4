import ShareVault.Proofs.Availability
import ShareVault.Proofs.FeeCaps
import ShareVault.Proofs.Past

/-!
# Restoring a vault

A vault that is written to a store and restored from there goes on as if nothing had happened.  The
record keeps the setup, the ledger and the governance, with what waits in it; between two calls
there is nothing else to a vault but its sources of prices, which come with the restore, and its log
and counters, which start afresh and are never read.

* `Vault.AtRest`, `Reachable.atRest` — what a vault is like between calls;
* `ofList_eq_adapters` — the sources of prices, given in any order, are those that were registered;
* `restore_of_valid` — a valid record with a source of prices for the name in force is restored;
* `Vault.AtRest.restored_after` — what is restored, with the past of the original, is the original;
* `Resumed`, `restored_vault_resumes` — the result.
-/

namespace ShareVault

variable {σ A : Type} {host : Host σ A} {w : World σ A} {name : Reference}

/-! ### A vault between calls -/

/-- No operation is in progress, the gauge shows the supply, and every source of prices is known by
its own name. -/
structure Vault.AtRest (reference : A → Reference) (v : Vault A) : Prop where
  idle : v.entered = false
  gauge : v.metrics.supply = Word.saturate 63 v.state.ledger.totalSupply.toNat
  named : ∀ name adapter, v.adapters.get? name = some adapter → reference adapter = name

/-- What is found in a map of sources of prices by their names. -/
theorem get?_ofList_eq_some {reference : A → Reference} {adapters : List A} {adapter : A}
    (h : (SortedMap.ofList (adapters.map fun a => (reference a, a))).get? name = some adapter) :
    adapter ∈ adapters ∧ reference adapter = name := by
  rw [SortedMap.get?_ofList] at h
  obtain ⟨e, hfound, rfl⟩ := Option.map_eq_some_iff.mp h
  have hname := List.find?_some hfound
  have hmem := List.mem_reverse.mp (List.mem_of_find?_eq_some hfound)
  obtain ⟨a, ha, rfl⟩ := List.mem_map.mp hmem
  exact ⟨ha, of_decide_eq_true hname⟩

theorem atRest_ofParts (reference : A → Reference) (id : Uuid) (config : VaultConfig)
    (state : VaultState) (adapters : List A) :
    (Vault.ofParts id config state (adapters.map fun a => (reference a, a))).AtRest reference where
  idle := rfl
  gauge := rfl
  named _ _ h := (get?_ofList_eq_some h).2

theorem named_addSources {reference : A → Reference} {known : SortedMap Reference A}
    {added : List (Account × A)}
    (h : ∀ name adapter, known.get? name = some adapter → reference adapter = name) :
    ∀ name adapter, (addSources reference known added).get? name = some adapter →
      reference adapter = name := by
  induction added generalizing known with
  | nil => exact h
  | cons r rest ih =>
    apply ih
    intro name adapter hfound
    rw [SortedMap.get?_insert] at hfound
    split at hfound
    next hname =>
      cases hfound
      exact hname.symm
    next => exact h name adapter hfound

theorem Turn.atRest (t : Turn σ A) (h : w.vault.AtRest host.reference) :
    (t.play host w).vault.AtRest host.reference := by
  have hnamed : t.restores = false → ∀ name adapter,
      (t.play host w).vault.adapters.get? name = some adapter → host.reference adapter = name := by
    intro hkept
    rw [Turn.adapters_eq h.idle hkept]
    exact named_addSources h.named
  have hdoes := t.does host w
  generalize t.play host w = w' at hdoes hnamed
  cases hdoes with
  | commits idle outcome commits meanwhile => exact ⟨rfl, rfl, hnamed rfl⟩
  | leaves fails meanwhile =>
    obtain ⟨adapters, rejected, hvault⟩ := meanwhile.vault
    refine ⟨?_, ?_, hnamed rfl⟩
    · rw [hvault]
      exact h.idle
    · rw [hvault]
      exact h.gauge
  | outside => exact h
  | restores restored =>
    obtain ⟨_, _, rfl⟩ := restore_ok restored
    exact atRest_ofParts host.reference _ _ _ _
  | refuses => exact h

theorem Reachable.atRest (h : Reachable host w) : w.vault.AtRest host.reference := by
  induction h with
  | @create id config admin schedule adapter s v created =>
    obtain ⟨_, _, _, _, rfl⟩ := create_ok created
    exact atRest_ofParts host.reference _ _ _ [adapter]
  | turn t reached ih => exact t.atRest ih

/-! ### What is restored -/

/-- The sources of prices, given in any order, are those that were registered. -/
theorem ofList_eq_adapters {reference : A → Reference} {v : Vault A} {adapters : List A}
    (h : v.AtRest reference)
    (hadapters : ∀ a, a ∈ adapters ↔ ∃ name, v.adapters.get? name = some a) :
    SortedMap.ofList (adapters.map fun a => (reference a, a)) = v.adapters := by
  have hknown : ∀ name adapter,
      (SortedMap.ofList (adapters.map fun a => (reference a, a))).get? name = some adapter →
        v.adapters.get? name = some adapter := by
    intro name adapter hfound
    obtain ⟨hmem, rfl⟩ := get?_ofList_eq_some hfound
    obtain ⟨name, hname⟩ := (hadapters adapter).mp hmem
    rw [h.named name adapter hname]
    exact hname
  apply SortedMap.ext_get?
  intro name
  cases hfound : v.adapters.get? name with
  | none =>
    apply Option.eq_none_iff_forall_ne_some.mpr
    intro adapter hgiven
    rw [hknown name adapter hgiven] at hfound
    cases hfound
  | some adapter =>
    have hmem : adapter ∈ adapters := (hadapters adapter).mpr ⟨name, hfound⟩
    obtain ⟨given, hgiven⟩ : (Vault.ofParts v.id v.config v.state
        (adapters.map fun a => (reference a, a))).Knows name :=
      knows_ofParts ⟨_, List.mem_map_of_mem hmem, h.named name adapter hfound⟩
    rw [← hfound, hknown name given hgiven]
    exact hgiven

/-- A valid record with a source of prices for the name in force is restored. -/
theorem restore_of_valid {store : VaultStore} {id : Uuid} {record : VaultRecord}
    {adapters : List (Reference × A)} (hrecord : store.get id = .ok (some record))
    (hvalid : record.Valid)
    (hactive : ∃ a ∈ adapters, a.1 = record.governance.schedule.valuationReference) :
    Vault.restore store id adapters =
      .ok (.ofParts id record.config ⟨record.ledger, record.governance⟩ adapters) := by
  have hsettings : record.governance.settings.validate = .ok () := by
    rw [hvalid.settings]
    exact VaultConfig.validate_settings hvalid.config
  have hsome : ¬ (adapters.all (·.1 ≠ record.governance.schedule.valuationReference)) = true := by
    simpa using hactive
  unfold Vault.restore
  simp only [Attempt.bind_eq_ok, Attempt.mapError_eq_ok]
  refine ⟨some record, hrecord, ?_⟩
  simp only [Attempt.bind_eq_ok, Attempt.mapError_eq_ok]
  refine ⟨(), hvalid.config, (), hsettings, ?_⟩
  rw [if_neg hsome]
  rfl

/-- What is restored of a vault at rest, with the past of the original, is the original. -/
theorem Vault.AtRest.restored_after {reference : A → Reference} {v : Vault A} {adapters : List A}
    (h : v.AtRest reference)
    (hadapters : ∀ a, a ∈ adapters ↔ ∃ name, v.adapters.get? name = some a) :
    (Vault.ofParts v.id v.config v.state (adapters.map fun a => (reference a, a))).after v = v := by
  have hmetrics : v.metrics.after
      (VaultMetrics.zero.recordSupply v.state.ledger.totalSupply) = v.metrics := by
    rw [VaultMetrics.after_zero]
    unfold VaultMetrics.recordSupply
    rw [← h.gauge]
  unfold after ofParts
  rw [ofList_eq_adapters h hadapters]
  dsimp only
  rw [hmetrics, ← h.idle]
  rfl

/-- Where nothing is restored, no source of prices has to be brought. -/
theorem bringsStaged_of_kept {turns : List (Turn σ A)} (hkept : ∀ t ∈ turns, t.restores = false) :
    ∀ x ∈ history host w turns, x.2.BringsStaged host x.1 := by
  intro x hx
  obtain ⟨earlier, later, hturns, _⟩ := exists_of_mem_history hx
  have hturn : x.2.restores = false := by
    apply hkept
    rw [hturns]
    simp
  generalize x.2 = t at hturn
  cases t with
  | restore id adapters => cases hturn
  | _ => trivial

/-! ### The result -/

/-- A vault, beside the store and the collaborators of a world, goes on like the vault of that
world. -/
structure Resumed (host : Host σ A) (w : World σ A) (v : Vault A) : Prop where
  /-- Its log is empty, and its counters stand at zero. -/
  afresh : v.events = .empty ∧
    v.metrics = VaultMetrics.zero.recordSupply v.state.ledger.totalSupply
  /-- Whatever has happened since, a call ends as it ends on the other vault. -/
  outcomes : ∀ (later : List (Turn σ A)) (c : Call A),
    (perform host c (play host { w with vault := v } later)).1 =
      (perform host c (play host w later)).1
  /-- At every moment the two vaults differ in their logs and counters at most, and all that is
  around them is the same. -/
  worlds : ∀ later : List (Turn σ A),
    (play host { w with vault := v } later).vault.Twin (play host w later).vault ∧
      (play host { w with vault := v } later).store = (play host w later).store ∧
      (play host { w with vault := v } later).host = (play host w later).host
  /-- The other vault adds to its log and counters what this one has in its own. -/
  observers : ∀ later : List (Turn σ A), (∀ t ∈ later, t.restores = false) →
    (play host w later).vault.events =
        w.vault.events.resume (play host { w with vault := v } later).vault.events ∧
      (play host w later).vault.metrics =
        w.vault.metrics.after (play host { w with vault := v } later).vault.metrics

/-- A vault that has seen nothing goes on like the vault that it is with a past. -/
theorem Resumed.of_after {v : Vault A} (hevents : v.events = .empty)
    (hmetrics : v.metrics = VaultMetrics.zero.recordSupply v.state.ledger.totalSupply)
    (h : v.after w.vault = w.vault) : Resumed host w v := by
  have hworld : ({ w with vault := v } : World σ A).after w.vault = w :=
    congrArg (World.mk · w.store w.host) h
  have hresumes : ∀ later : List (Turn σ A), ∃ past,
      play host w later = (play host { w with vault := v } later).after past := by
    intro later
    have hplay : ∃ past, play host (({ w with vault := v } : World σ A).after w.vault) later =
        (play host { w with vault := v } later).after past := exists_play_after later w.vault
    rw [hworld] at hplay
    exact hplay
  refine ⟨⟨hevents, hmetrics⟩, ?_, ?_, ?_⟩
  · intro later c
    obtain ⟨past, hplay⟩ := hresumes later
    rw [hplay, perform_after]
  · intro later
    obtain ⟨past, hplay⟩ := hresumes later
    rw [hplay]
    exact ⟨⟨rfl, rfl, rfl, rfl, rfl⟩, rfl, rfl⟩
  · intro later hkept
    have hplay : play host (({ w with vault := v } : World σ A).after w.vault) later =
        (play host { w with vault := v } later).after w.vault := play_after hkept
    rw [hworld] at hplay
    rw [hplay]
    exact ⟨rfl, rfl⟩

/-- In every run of a new vault in which restores bring a source of prices for the name that waits,
if there are any, the vault can be written to a store, and restored from there with the sources of
prices that it knows.  The vault that is restored goes on like the original. -/
theorem restored_vault_resumes {id : Uuid} {config : VaultConfig} {admin : Account}
    {schedule : FeeSchedule} {adapter : A} {s : σ} {v : Vault A} {turns : List (Turn σ A)}
    {adapters : List A}
    (created : Vault.create id config admin schedule (host.reference adapter, adapter)
      (host.now s) = .ok v)
    (hbrings : ∀ x ∈ history host ⟨v, .empty, s⟩ turns, x.2.BringsStaged host x.1)
    (hrun : play host ⟨v, .empty, s⟩ turns = w) (hfits : w.vault.record.Fits)
    (hadapters : ∀ a, a ∈ adapters ↔ ∃ name, w.vault.adapters.get? name = some a)
    (store : VaultStore) :
    ∃ store' restored, w.vault.persist store = .ok store' ∧
      Vault.restore store' w.vault.id (adapters.map fun a => (host.reference a, a)) =
        .ok restored ∧
      Resumed host { w with store := store' } restored := by
  have hstart : Reachable host ⟨v, .empty, s⟩ := .create created
  have hreached : Reachable host w := hrun ▸ hstart.play turns
  have hsupplied : w.Supplied := hrun ▸ (World.Supplied.create created s).play hstart hbrings
  have hrest : w.vault.AtRest host.reference := hreached.atRest
  obtain ⟨active, hactive⟩ := hsupplied.active
  have hbrought : ∃ a ∈ adapters.map fun a => (host.reference a, a),
      a.1 = w.vault.record.governance.schedule.valuationReference :=
    ⟨_, List.mem_map_of_mem ((hadapters active).mpr ⟨_, hactive⟩),
      hrest.named _ active hactive⟩
  obtain ⟨store', hput⟩ : ∃ store', store.put w.vault.id w.vault.record = .ok store' :=
    ⟨_, VaultStore.put_eq_ok.mpr ⟨hfits, rfl⟩⟩
  have hrestores := restore_of_valid (VaultStore.get_put_self hput) hreached.valid.vault hbrought
  refine ⟨store', _, Attempt.mapError_eq_ok.mpr hput, hrestores, ?_⟩
  exact Resumed.of_after rfl rfl (hrest.restored_after hadapters)

namespace SmallVault

/-- Alice deposits everything, another source of prices is registered and its name is staged. -/
def pending : List (Turn InMemory Handle) :=
  [.call (.deposit "alice" [.saturate 128 1000] 0 0),
    .call (.registerAdapter "admin" ⟨"half", 1⟩),
    .call (.stage "admin" .valuationReference (.reference "half"))]

/-- A year goes by, and the name is put in force. -/
def settling : List (Turn InMemory Handle) :=
  [.outside { (besideAnother "half").host with
      clock := (surroundings 1 0 0).clock
      custody := (surroundings 1 1000 0).custody },
    .call (.commit "admin" .valuationReference)]

/-- The vault with the name that waits. -/
def paused : World InMemory Handle := play InMemory.host (besideAnother "half") pending

/-- The store to which it is written. -/
def written : VaultStore :=
  match paused.vault.persist .empty with
  | .ok store => store
  | .error _ => .empty

end SmallVault

open SmallVault in
/-- The name that waits comes in force on the restored vault too, and a withdrawal there pays what
it pays on the original, after the same charge for the year. -/
theorem restored_vault_resumes_pending :
    (paused.timelock .valuationReference).staged = some "half" ∧
      paused.vault.persist .empty = .ok written ∧
      ∃ restored,
        Vault.restore written ⟨0⟩ [("half", ⟨"half", 1⟩), ("par", ⟨"par", 0⟩)] = .ok restored ∧
        restored.events = .empty ∧
        (perform InMemory.host halfOut
          (play InMemory.host ⟨restored, written, paused.host⟩ settling)).1 =
            .ok (.withdrawn [.saturate 128 227]) := by
  have hlisted : ∀ a, a ∈ [⟨"half", 1⟩, ⟨"par", 0⟩] ↔
      ∃ name, paused.vault.adapters.get? name = some a := by
    have hknown : paused.vault.adapters.toList =
        [("half", (⟨"half", 1⟩ : Handle)), ("par", ⟨"par", 0⟩)] := rfl
    intro a
    simp only [← SortedMap.mem_toList, hknown]
    simp [exists_or]
  have hfits : paused.vault.record.Fits :=
    ⟨by decide +kernel, by decide +kernel, by decide +kernel⟩
  have hrun : play InMemory.host (besideAnother "half") pending = paused := rfl
  have hkept : ∀ t ∈ pending, t.restores = false := by decide
  obtain ⟨store, restored, hpersists, hrestores, hresumed⟩ :=
    restored_vault_resumes (createdBeside "half") (bringsStaged_of_kept hkept) hrun hfits hlisted
      .empty
  obtain rfl : store = written := by
    unfold written
    rw [hpersists]
  have hpays : (perform InMemory.host halfOut
      (play InMemory.host ⟨paused.vault, written, paused.host⟩ settling)).1 =
        .ok (.withdrawn [.saturate 128 227]) := rfl
  refine ⟨rfl, hpersists, restored, hrestores, hresumed.afresh.1, ?_⟩
  exact (hresumed.outcomes settling halfOut).trans hpays

end ShareVault
