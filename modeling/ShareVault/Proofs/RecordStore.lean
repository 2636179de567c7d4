import ShareVault.Proofs.Overflow
import ShareVault.Proofs.Record
import ShareVault.Proofs.Replay

/-!
# A store is a map of records

A record is kept in three parts, each in a tree of its own, and every write and every removal
touches the three trees under one key.  So the trees always have the same keys, all of them the
bytes of an identifier, and the three parts under a key come from one record: that of the last
write, unless the record was removed since.

* `StoreCall`, `StoreCall.perform`, `stored` — writes and removals, and the store after some;
* `StoreCall.says?`, `lastRecord` — the record of a vault according to the calls alone;
* `VaultRecord.bytes`, `VaultStore.Keeps` — the three trees hold these records and nothing else;
* `VaultStore.Keeps.perform`, `keeps_stored` — one call, and every sequence of calls;
* `VaultStore.ActsAs`, `store_acts_as_map` — the result.
-/

namespace ShareVault

open Attempt ByteCodec LawfulByteCodec

/-! ### Calls on a store -/

/-- A call that changes a store of records with governance of one type. -/
inductive StoreCall (γ : Type) where
  | put (id : Uuid) (record : VaultRecord γ)
  | remove (id : Uuid)

/-- What such a call answers. -/
inductive StoreReply where
  | written
  /-- Whether there was a record. -/
  | removed (existed : Bool)
deriving DecidableEq

variable {γ : Type} [ByteCodec γ] {s : VaultStore} {id id' : Uuid} {record : VaultRecord γ}

/-- A record has a stored form exactly if each of its parts has one. -/
instance (record : VaultRecord γ) : Decidable record.Fits :=
  decidable_of_iff
    (fits record.config = true ∧ fits record.ledger = true ∧ fits record.governance = true)
    ⟨fun ⟨hconfig, hledger, hgovernance⟩ => ⟨hconfig, hledger, hgovernance⟩,
      fun h => ⟨h.config, h.ledger, h.governance⟩⟩

namespace StoreCall

/-- The vault that a call is about. -/
def about : StoreCall γ → Uuid
  | .put id _ => id
  | .remove id => id

/-- Makes a call.  One that fails leaves the store as it was. -/
def perform (s : VaultStore) : StoreCall γ → Except StorageError StoreReply × VaultStore
  | .put id record =>
    match s.put id record with
    | .ok s' => (.ok .written, s')
    | .error e => (.error e, s)
  | .remove id => (.ok (.removed (s.contains id)), s.remove id)

/-- What a call says about the record of a vault: that there is this one now, that there is none,
or nothing. -/
def says? (id : Uuid) : StoreCall γ → Option (Option (VaultRecord γ))
  | .put id' record => if id' = id ∧ record.Fits then some (some record) else none
  | .remove id' => if id' = id then some none else none

/-- After a write that succeeds the record is the one that was written. -/
theorem says_put (h : record.Fits) (id id' : Uuid) (before : Option (VaultRecord γ)) :
    ((put id record).says? id').getD before = if id = id' then some record else before := by
  by_cases hid : id = id' <;> simp [says?, hid, h]

theorem says_put_of_not_fits (h : ¬ record.Fits) (id id' : Uuid)
    (before : Option (VaultRecord γ)) : ((put id record).says? id').getD before = before := by
  simp [says?, h]

theorem says_remove (id id' : Uuid) (before : Option (VaultRecord γ)) :
    ((remove id).says? id').getD before = if id = id' then none else before := by
  by_cases hid : id = id' <;> simp [says?, hid]

end StoreCall

/-- The store after these calls, in their order, on an empty one. -/
def stored (calls : List (StoreCall γ)) : VaultStore :=
  calls.foldl (fun s call => (call.perform s).2) .empty

/-- The record that was last written for a vault, unless it was removed after that. -/
def lastRecord (calls : List (StoreCall γ)) (id : Uuid) : Option (VaultRecord γ) :=
  lastOr none (calls.filterMap (·.says? id))

/-! ### Single trees -/

/-- The bytes that are kept of a record in each of the three trees. -/
def VaultRecord.bytes (record : VaultRecord γ) : Part → Bytes
  | .configs => encode record.config
  | .ledgers => encode record.ledger
  | .governance => encode record.governance

namespace VaultStore

theorem bytesOf_failsOnly {α : Type} [ByteCodec α] (a : α) :
    FailsOnly (· = .serialization) (bytesOf a) :=
  failsOnly_ite (fun _ => failsOnly_ok _) fun _ => failsOnly_error rfl

theorem put_of_fits (h : record.Fits) : ∃ s', s.put id record = .ok s' :=
  ⟨_, put_eq_ok.mpr ⟨h, rfl⟩⟩

/-- A record without a stored form is refused. -/
theorem put_of_not_fits (h : ¬ record.Fits) : s.put id record = .error .serialization := by
  have hfails : FailsOnly (· = .serialization) (s.put id record) := by
    refine failsOnly_bind (bytesOf_failsOnly _) fun config _ => ?_
    refine failsOnly_bind (bytesOf_failsOnly _) fun ledger _ => ?_
    exact failsOnly_bind (bytesOf_failsOnly _) fun governance _ => failsOnly_pure _
  cases hput : s.put id record with
  | ok s' => exact (h (put_eq_ok.mp hput).1).elim
  | error e => rw [hfails e hput]

/-- Writing a record changes what is under its key, in every tree, and nothing else. -/
theorem raw?_put {s' : VaultStore} (h : s.put id record = .ok s') (part : Part) (key : Bytes) :
    s'.raw? part key = if key = id.bytes then some (record.bytes part) else s.raw? part key := by
  obtain ⟨_, rfl⟩ := put_eq_ok.mp h
  cases part <;> exact SortedMap.get?_insert _ _ _ _

/-- Removing a record changes what is under its key, in every tree, and nothing else. -/
theorem raw?_remove (s : VaultStore) (id : Uuid) (part : Part) (key : Bytes) :
    (s.remove id).raw? part key = if key = id.bytes then none else s.raw? part key := by
  cases part <;> exact SortedMap.get?_erase _ _ _

/-! ### Keys -/

theorem idOf_bytes (id : Uuid) : idOf id.bytes = .ok id := by
  have hlength : id.bytes.length = 16 := by simp [Uuid.bytes]
  have hread : Uuid.ofBytes? id.bytes = some id := by
    unfold Uuid.ofBytes?
    rw [if_pos hlength, Uuid.value_bytes, Word.ofNat?_toNat]
    rfl
  rw [idOf, hread]

theorem mapM_idOf {keys : List Bytes} (h : ∀ key ∈ keys, ∃ id : Uuid, id.bytes = key) :
    ∃ ids, keys.mapM idOf = .ok ids ∧ ids.map Uuid.bytes = keys := by
  induction keys with
  | nil => exact ⟨[], rfl, rfl⟩
  | cons key rest ih =>
    rw [List.forall_mem_cons] at h
    obtain ⟨⟨id, rfl⟩, hrest⟩ := h
    obtain ⟨ids, hids, rfl⟩ := ih hrest
    refine ⟨id :: ids, ?_, rfl⟩
    rw [List.mapM_cons, idOf_bytes, hids]
    rfl

/-! ### The three trees together -/

/-- The three trees hold the parts of these records, each record under the bytes of its vault, and
nothing else. -/
structure Keeps (s : VaultStore) (kept : Uuid → Option (VaultRecord γ)) : Prop where
  fits : ∀ id record, kept id = some record → record.Fits
  parts : ∀ part id, s.raw? part id.bytes = (kept id).map (·.bytes part)
  keyed : ∀ part key, s.raw? part key ≠ none → ∃ id : Uuid, id.bytes = key

namespace Keeps

variable {kept : Uuid → Option (VaultRecord γ)}

theorem empty : VaultStore.empty.Keeps fun _ => (none : Option (VaultRecord γ)) where
  fits _ _ h := by cases h
  parts part id := by cases part <;> rfl
  keyed part key h := by cases part <;> exact (h rfl).elim

/-- What is under one key is changed in all trees at once. -/
theorem set {s' : VaultStore} {now : Option (VaultRecord γ)} (hs : s.Keeps kept)
    (hfits : ∀ record, now = some record → record.Fits)
    (h : ∀ part key, s'.raw? part key =
      if key = id.bytes then now.map (·.bytes part) else s.raw? part key) :
    s'.Keeps fun id' => if id = id' then now else kept id' where
  fits id' record' h' := by
    split at h'
    next => exact hfits record' h'
    next => exact hs.fits id' record' h'
  parts part id' := by
    rw [h, hs.parts]
    by_cases hid : id = id'
    · simp [hid]
    · have hbytes : id'.bytes ≠ id.bytes := fun he => hid (Uuid.bytes_injective he).symm
      simp [hid, hbytes]
  keyed part key h' := by
    rw [h] at h'
    split at h'
    next hkey => exact ⟨id, hkey.symm⟩
    next => exact hs.keyed part key h'

theorem put {s' : VaultStore} (hs : s.Keeps kept) (h : s.put id record = .ok s') :
    s'.Keeps fun id' => if id = id' then some record else kept id' := by
  refine hs.set ?_ (raw?_put h)
  intro record' h'
  cases h'
  exact (put_eq_ok.mp h).1

theorem remove (hs : s.Keeps kept) (id : Uuid) :
    (s.remove id).Keeps fun id' => if id = id' then none else kept id' := by
  refine hs.set ?_ (raw?_remove s id)
  intro record' h'
  cases h'

/-- A call changes the record that it is about, as it says, and leaves all others. -/
theorem perform (hs : s.Keeps kept) (call : StoreCall γ) :
    (call.perform s).2.Keeps fun id => (call.says? id).getD (kept id) := by
  cases call with
  | put id record =>
    by_cases hfits : record.Fits
    · obtain ⟨s', hput⟩ : ∃ s', s.put id record = .ok s' := put_of_fits hfits
      simpa only [StoreCall.perform, hput, StoreCall.says_put hfits] using hs.put hput
    · simpa only [StoreCall.perform, put_of_not_fits hfits,
        StoreCall.says_put_of_not_fits hfits] using hs
  | remove id => simpa only [StoreCall.perform, StoreCall.says_remove] using hs.remove id

/-- Calls one after another: the last one that says something about a vault counts. -/
theorem play (hs : s.Keeps kept) (calls : List (StoreCall γ)) :
    (calls.foldl (fun s call => (call.perform s).2) s).Keeps fun id =>
      lastOr (kept id) (calls.filterMap (·.says? id)) := by
  induction calls generalizing s kept with
  | nil => exact hs
  | cons call rest ih =>
    have hlast : ∀ id, lastOr (kept id) ((call :: rest).filterMap (·.says? id)) =
        lastOr ((call.says? id).getD (kept id)) (rest.filterMap (·.says? id)) := by
      intro id
      cases hsays : call.says? id with
      | none => rw [List.filterMap_cons_none hsays, Option.getD_none]
      | some said =>
        rw [List.filterMap_cons_some hsays, Option.getD_some]
        exact lastOr_append (kept id) [said] _
    rw [List.foldl_cons]
    simpa only [hlast] using ih (hs.perform call)

/-! ### What the trees answer -/

/-- A record is read whole, or there is none. -/
theorem get [LawfulByteCodec γ] (hs : s.Keeps kept) (id : Uuid) :
    s.get id γ = .ok (kept id) := by
  have hconfig : s.configs.get? id.bytes = (kept id).map (encode ·.config) := hs.parts .configs id
  have hledger : s.ledgers.get? id.bytes = (kept id).map (encode ·.ledger) := hs.parts .ledgers id
  have hgovernance : s.governance.get? id.bytes = (kept id).map (encode ·.governance) :=
    hs.parts .governance id
  unfold VaultStore.get
  rw [hconfig, hledger, hgovernance]
  cases hkept : kept id with
  | none => rfl
  | some record =>
    have hfits := hs.fits id record hkept
    simp only [Option.map_some]
    rw [valueOf_encode hfits.config, valueOf_encode hfits.ledger, valueOf_encode hfits.governance]
    rfl

theorem contains (hs : s.Keeps kept) (id : Uuid) : s.contains id = (kept id).isSome := by
  show (s.raw? .configs id.bytes).isSome = _
  rw [hs.parts, Option.isSome_map]

/-- The keys of the setups are the bytes of identifiers, and they ascend. -/
theorem ids (hs : s.Keeps kept) :
    ∃ ids, s.ids = .ok ids ∧ ids.Pairwise (fun a b => compare a.bytes b.bytes = .lt) ∧
      ∀ id, id ∈ ids ↔ (kept id).isSome = true := by
  have hkeyed : ∀ key ∈ s.configs.keys, ∃ id : Uuid, id.bytes = key := by
    intro key hkey
    refine hs.keyed .configs key fun hnone => ?_
    rw [SortedMap.mem_keys] at hkey
    simp_all [raw?, tree]
  obtain ⟨ids, hids, hbytes⟩ := mapM_idOf hkeyed
  refine ⟨ids, hids, ?_, fun id => ?_⟩
  · have hsorted := s.configs.pairwise_keys
    rw [← hbytes, List.pairwise_map] at hsorted
    exact hsorted
  · have hmem : id ∈ ids ↔ id.bytes ∈ ids.map Uuid.bytes := by
      refine ⟨List.mem_map_of_mem, fun h => ?_⟩
      obtain ⟨id', hid', heq⟩ := List.mem_map.mp h
      exact Uuid.bytes_injective heq ▸ hid'
    rw [hmem, hbytes, SortedMap.mem_keys, ← hs.contains id]
    rfl

end Keeps

/-- What is stored after some calls is what they say. -/
theorem keeps_stored (calls : List (StoreCall γ)) : (stored calls).Keeps (lastRecord calls) :=
  Keeps.empty.play calls

/-! ### The store as a map -/

/-- A store does what a map of whole records does. -/
structure ActsAs (s : VaultStore) (records : Uuid → Option (VaultRecord γ)) : Prop where
  /-- A read gives the record of the vault, whole, or says that there is none. -/
  get : ∀ id, s.get id γ = .ok (records id)
  /-- A write succeeds, if the record has a stored form. -/
  put : ∀ (id : Uuid) (record : VaultRecord γ), ((StoreCall.put id record).perform s).1 =
    if record.Fits then .ok .written else .error .serialization
  /-- A removal says whether there was a record. -/
  remove : ∀ id, ((StoreCall.remove id : StoreCall γ).perform s).1 =
    .ok (.removed (records id).isSome)
  /-- A call changes no record but that of its own vault. -/
  apart : ∀ (call : StoreCall γ) (id : Uuid), id ≠ call.about →
    (call.perform s).2.get id γ = s.get id γ
  /-- The vaults with a record are listed once each, in the order of their bytes. -/
  ids : ∃ ids, s.ids = .ok ids ∧ ids.Pairwise (fun a b => compare a.bytes b.bytes = .lt) ∧
    ∀ id, id ∈ ids ↔ (records id).isSome = true

theorem Keeps.actsAs [LawfulByteCodec γ] {kept : Uuid → Option (VaultRecord γ)}
    (hs : s.Keeps kept) : s.ActsAs kept where
  get := hs.get
  put id record := by
    by_cases hfits : record.Fits
    · obtain ⟨s', hput⟩ : ∃ s', s.put id record = .ok s' := put_of_fits hfits
      simp [StoreCall.perform, hput, hfits]
    · simp [StoreCall.perform, put_of_not_fits hfits, hfits]
  remove id := by
    show Except.ok (StoreReply.removed (s.contains id)) = _
    rw [hs.contains]
  apart call id hid := by
    rw [(hs.perform call).get id, hs.get id]
    have hsilent : call.says? id = none := by
      cases call <;> simp_all [StoreCall.says?, StoreCall.about, eq_comm]
    rw [hsilent, Option.getD_none]
  ids := hs.ids

end VaultStore

/-- After any writes and removals, on whatever vaults, a store does what the map does that takes
each vault to the record that was last written for it, unless it was removed after that. -/
theorem store_acts_as_map [LawfulByteCodec γ] (calls : List (StoreCall γ)) :
    (stored calls).ActsAs (lastRecord calls) :=
  (VaultStore.keeps_stored calls).actsAs

/-- Two vaults are written, one of them again after a year, and the other one is removed. -/
def SmallVault.rewritten : List (StoreCall VaultGovernance) :=
  [.put ⟨.saturate 128 1⟩ start.vault.record, .put ⟨0⟩ start.vault.record,
    .put ⟨0⟩ nextYear.vault.record, .remove ⟨.saturate 128 1⟩]

open SmallVault in
theorem store_acts_as_map_rewritten :
    (stored rewritten).get ⟨0⟩ = .ok (some nextYear.vault.record) ∧
      (stored rewritten).get ⟨.saturate 128 1⟩ = .ok none ∧
      ((StoreCall.remove ⟨.saturate 128 1⟩ : StoreCall VaultGovernance).perform
        (stored rewritten)).1 = .ok (.removed false) ∧
      ∃ ids, (stored rewritten).ids = .ok ids ∧ ∀ id, id ∈ ids ↔ id = ⟨0⟩ := by
  have hacts := store_acts_as_map rewritten
  have hkept : lastRecord rewritten ⟨0⟩ = some nextYear.vault.record := by decide +kernel
  have hremoved : lastRecord rewritten ⟨.saturate 128 1⟩ = none := by decide +kernel
  have hothers : ∀ id, id ≠ ⟨0⟩ → id ≠ ⟨.saturate 128 1⟩ → lastRecord rewritten id = none := by
    intro id hzero hone
    simp [lastRecord, rewritten, StoreCall.says?, hzero.symm, hone.symm, lastOr]
  refine ⟨hkept ▸ hacts.get ⟨0⟩, hremoved ▸ hacts.get _, ?_, ?_⟩
  · rw [hacts.remove, hremoved]
    rfl
  · obtain ⟨ids, hids, _, hmem⟩ := hacts.ids
    refine ⟨ids, hids, fun id => ?_⟩
    rw [hmem]
    by_cases hzero : id = ⟨0⟩
    · simp [hzero, hkept]
    · have hnone : lastRecord rewritten id = none := by
        by_cases hone : id = ⟨.saturate 128 1⟩
        · rw [hone, hremoved]
        · exact hothers id hzero hone
      simp [hzero, hnone]

end ShareVault
