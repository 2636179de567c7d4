import ShareVault.Proofs.Encoding
import ShareVault.Proofs.Run

/-!
# Stored records

The record of a vault is read back as it was written, whatever else is in the store, and writing it
does not disturb the records of other vaults.  So what holds of a new vault, and is kept by every
call that succeeds, holds of every vault and of every stored record that a run leads to.

* instances of `LawfulByteCodec` for the parts of a record;
* `VaultRecord.Fits` — the records that have a stored form;
* `VaultStore.get_put_self`, `get_put_of_ne` — what is read after a record was written;
* `KeptByCalls`, `World.Holds`, `Turn.holds`, `Reachable.holds` — properties of records over a run;
* `Turn.holds_of` — a property that becomes another one.
-/

namespace ShareVault

open ByteCodec LawfulByteCodec

variable {α κ : Type}

/-! ### Flags, options, roles and sets -/

instance : LawfulByteCodec Bool where
  decode_encode b rest _ := by cases b <;> rfl

instance [ByteCodec α] [LawfulByteCodec α] : LawfulByteCodec (Option α) where
  decode_encode o rest h := by
    cases o with
    | none => rfl
    | some a =>
      have ha : fits a = true := h
      show (decode >>= fun a => pure (some a)).run (encode a ++ rest) = _
      rw [decode_bind ha]
      rfl

instance : LawfulByteCodec Role where
  decode_encode r rest _ := by
    have hindex : Radix.value 256 (Radix.digits 256 4 r.index) = r.index := by
      cases r <;> rfl
    have hread : decodeCase.run (encodeNat 4 r.index ++ rest) = some (r.index, rest) :=
      decodeNat_encodeNat hindex rest
    show (decodeCase >>= fun n => liftM (Role.all.find? (·.index = n))).run
      (encodeNat 4 r.index ++ rest) = _
    rw [run_bind_of_eq_some hread]
    cases r <;> rfl

instance [Ord κ] [Std.TransOrd κ] [Std.LawfulEqOrd κ] [ByteCodec κ] [LawfulByteCodec κ] :
    LawfulByteCodec (SortedSet κ) where
  decode_encode s rest h := by
    show (decodeList κ >>= fun l => pure (SortedSet.ofList l)).run
      (encodeList s.toList ++ rest) = _
    rw [run_bind_of_eq_some (decodeList_encodeList s.toList rest h), SortedSet.ofList_toList]
    rfl

/-! ### Governance -/

instance [ByteCodec α] [LawfulByteCodec α] : LawfulByteCodec (Timelocked α) where
  decode_encode t rest h := by
    obtain ⟨hactive, hstaged⟩ := (Bool.and_eq_true _ _).mp h
    show (decode >>= fun active => decode >>= fun staged => decode >>= fun readyAt =>
      pure (Timelocked.mk active staged readyAt)).run
        (encode t.active ++ encode t.staged ++ encode t.readyAt ++ rest) = _
    rw [List.append_assoc, List.append_assoc, decode_bind hactive, decode_bind hstaged,
      decode_bind rfl]
    rfl

/-- A timelock of values that all have a stored form has one. -/
theorem Timelocked.fits_of_forall [ByteCodec α] (h : ∀ a : α, fits a = true) (t : Timelocked α) :
    fits t = true := by
  show (fits t.active && fits t.staged) = true
  rw [h, Bool.true_and]
  cases t.staged with
  | none => rfl
  | some a => exact h a

instance : LawfulByteCodec FeeParameters where
  decode_encode ps rest h := by
    have hwords {w : Nat} (t : Timelocked (Word w)) : fits t = true :=
      Timelocked.fits_of_forall (fun _ => rfl) t
    obtain ⟨h, hreference⟩ := (Bool.and_eq_true _ _).mp h
    obtain ⟨h, hprotocol⟩ := (Bool.and_eq_true _ _).mp h
    obtain ⟨hstrategy, hperformance⟩ := (Bool.and_eq_true _ _).mp h
    show (decode >>= fun management => decode >>= fun performance => decode >>= fun protocol =>
      decode >>= fun throttle => decode >>= fun strategyTreasury =>
      decode >>= fun performanceTreasury => decode >>= fun protocolTreasury =>
      decode >>= fun reference => pure (FeeParameters.mk management performance protocol throttle
        strategyTreasury performanceTreasury protocolTreasury reference)).run
      (encode ps.managementFee ++ encode ps.performanceFee ++ encode ps.protocolFee ++
        encode ps.feeChargeThrottle ++ encode ps.strategyTreasury ++
        encode ps.performanceTreasury ++ encode ps.protocolTreasury ++
        encode ps.valuationReference ++ rest) = _
    simp only [List.append_assoc]
    rw [decode_bind (hwords _), decode_bind (hwords _), decode_bind (hwords _),
      decode_bind (hwords _), decode_bind hstrategy, decode_bind hperformance,
      decode_bind hprotocol, decode_bind hreference]
    rfl

instance : LawfulByteCodec AccessTable where
  decode_encode t rest h := by
    have hroles : fits t.roles = true := h
    show (decode >>= fun roles => pure (AccessTable.mk roles)).run (encode t.roles ++ rest) = _
    rw [decode_bind hroles]
    rfl

instance : LawfulByteCodec GovernanceSettings where
  decode_encode s rest _ := by
    show (decode >>= fun delay => decode >>= fun management => decode >>= fun performance =>
      decode >>= fun protocol =>
        pure (GovernanceSettings.mk delay management performance protocol)).run
      (encode s.delay ++ encode s.managementCap ++ encode s.performanceCap ++
        encode s.protocolCap ++ rest) = _
    simp only [List.append_assoc]
    rw [decode_bind rfl, decode_bind rfl, decode_bind rfl, decode_bind rfl]
    rfl

instance : LawfulByteCodec DepositLimits where
  decode_encode l rest _ := by
    show (decode >>= fun total => decode >>= fun perAddress =>
      pure (DepositLimits.mk total perAddress)).run
      (encode l.tokenLimit ++ encode l.tokenLimitPerAddress ++ rest) = _
    rw [List.append_assoc, decode_bind rfl, decode_bind rfl]
    rfl

instance : LawfulByteCodec VaultGovernance where
  decode_encode g rest h := by
    obtain ⟨h, hallowlist⟩ := (Bool.and_eq_true _ _).mp h
    obtain ⟨hparams, haccess⟩ := (Bool.and_eq_true _ _).mp h
    show (decode >>= fun params => decode >>= fun access => decode >>= fun settings =>
      decode >>= fun limits => decode >>= fun privateVault => decode >>= fun allowlist =>
        pure (VaultGovernance.mk params access settings limits privateVault allowlist)).run
      (encode g.params ++ encode g.access ++ encode g.settings ++ encode g.limits ++
        encode g.privateVault ++ encode g.allowlist ++ rest) = _
    simp only [List.append_assoc]
    rw [decode_bind hparams, decode_bind haccess, decode_bind rfl, decode_bind rfl,
      decode_bind rfl, decode_bind hallowlist]
    rfl

instance : LawfulByteCodec VaultConfig where
  decode_encode c rest h := by
    obtain ⟨htokens, hexistentials⟩ := (Bool.and_eq_true _ _).mp h
    show (decode >>= fun tokens => decode >>= fun existentials => decode >>= fun settings =>
      pure (VaultConfig.mk tokens existentials settings)).run
      (encode c.tokens ++ encode c.existentials ++ encode c.settings ++ rest) = _
    rw [List.append_assoc, List.append_assoc, decode_bind htokens, decode_bind hexistentials,
      decode_bind rfl]
    rfl

/-! ### Records in a store -/

/-- The bytes of an identifier are its digits in base 256, the highest first. -/
theorem Uuid.value_bytes (id : Uuid) :
    Radix.value 256 (id.bytes.reverse.map UInt8.toNat) = id.word.toNat := by
  unfold Uuid.bytes
  rw [← List.map_reverse, List.reverse_reverse]
  show Radix.value 256 ((encodeNat 16 id.word.toNat).map UInt8.toNat) = _
  rw [map_toNat_encodeNat]
  exact value_digits_word id.word rfl

/-- Different vaults have different keys. -/
theorem Uuid.bytes_injective {id id' : Uuid} (h : id.bytes = id'.bytes) : id = id' := by
  have hword : id.word = id'.word := by
    apply Word.ext
    rw [← value_bytes id, h, value_bytes]
  cases id
  cases id'
  cases hword
  rfl

/-- Every text and every collection of the record has a length that its eight bytes can hold, as it
has on any machine. -/
structure VaultRecord.Fits {γ : Type} [ByteCodec γ] (record : VaultRecord γ) : Prop where
  config : fits record.config = true
  ledger : fits record.ledger = true
  governance : fits record.governance = true

namespace VaultStore

variable {γ : Type} [ByteCodec γ] {store store' : VaultStore} {id id' : Uuid}
  {record : VaultRecord γ}

theorem bytesOf_eq_ok [ByteCodec α] {a : α} {bytes : Bytes} :
    bytesOf a = .ok bytes ↔ fits a = true ∧ bytes = encode a := by
  unfold bytesOf
  split
  next hfits => simp [hfits, eq_comm]
  next hfits => simp [hfits]

/-- A record can be written exactly if it has a stored form. -/
theorem put_eq_ok :
    store.put id record = .ok store' ↔ record.Fits ∧
      store' = ⟨store.configs.insert id.bytes (encode record.config),
        store.ledgers.insert id.bytes (encode record.ledger),
        store.governance.insert id.bytes (encode record.governance)⟩ := by
  unfold put
  simp only [Attempt.bind_eq_ok, Attempt.pure_eq_ok, bytesOf_eq_ok]
  constructor
  · rintro ⟨_, ⟨hconfig, rfl⟩, _, ⟨hledger, rfl⟩, _, ⟨hgovernance, rfl⟩, rfl⟩
    exact ⟨⟨hconfig, hledger, hgovernance⟩, rfl⟩
  · rintro ⟨⟨hconfig, hledger, hgovernance⟩, rfl⟩
    exact ⟨_, ⟨hconfig, rfl⟩, _, ⟨hledger, rfl⟩, _, ⟨hgovernance, rfl⟩, rfl⟩

theorem valueOf_encode [ByteCodec α] [LawfulByteCodec α] {a : α} (h : fits a = true) :
    valueOf α (encode a) = .ok a :=
  valueOf_bytesOf (bytesOf_eq_ok.mpr ⟨h, rfl⟩)

/-- A record that was written is read as it was. -/
theorem get_put_self [LawfulByteCodec γ] (h : store.put id record = .ok store') :
    store'.get id γ = .ok (some record) := by
  obtain ⟨hfits, rfl⟩ := put_eq_ok.mp h
  unfold get
  simp only [SortedMap.get?_insert_self]
  rw [valueOf_encode hfits.config, valueOf_encode hfits.ledger, valueOf_encode hfits.governance]
  rfl

/-- Every other record is read as before. -/
theorem get_put_of_ne (h : store.put id record = .ok store') (hid : id' ≠ id) :
    store'.get id' γ = store.get id' γ := by
  obtain ⟨_, rfl⟩ := put_eq_ok.mp h
  have hkey : id'.bytes ≠ id.bytes := fun hbytes => hid (Uuid.bytes_injective hbytes)
  unfold get
  simp only [SortedMap.get?_insert_of_ne hkey]

end VaultStore

/-! ### Properties of records -/

variable {σ A : Type} {P : VaultRecord → Prop}

/-- Calls that succeed keep a property of records. -/
def KeptByCalls (A : Type) (P : VaultRecord → Prop) : Prop :=
  ∀ (config : VaultConfig) (now : Timestamp) (s : VaultState) (c : Call A) (effect : Effect Reply),
    Commits config now s c effect → P ⟨config, s.ledger, s.governance⟩ →
      P ⟨config, effect.state.ledger, effect.state.governance⟩

/-- Every record that can be read has the property. -/
def VaultStore.Holds (P : VaultRecord → Prop) (store : VaultStore) : Prop :=
  ∀ id record, store.get id = .ok (some record) → P record

namespace VaultStore.Holds

variable {store store' : VaultStore}

theorem empty : VaultStore.empty.Holds P := by
  intro id record h
  cases h

theorem persist {v : Vault A} (hs : store.Holds P) (hv : P v.record)
    (h : v.persist store = .ok store') : store'.Holds P := by
  unfold Vault.persist at h
  rw [Attempt.mapError_eq_ok] at h
  intro id record hrecord
  by_cases hid : id = v.id
  · subst hid
    rw [get_put_self h] at hrecord
    cases hrecord
    exact hv
  · rw [get_put_of_ne h hid] at hrecord
    exact hs id record hrecord

/-- However often a vault is written. -/
theorem writes {v : Vault A} (hs : store.Holds P) (hv : P v.record)
    (h : v.Writes store store') : store'.Holds P := by
  induction h with
  | refl => exact hs
  | tail _ hwrite ih => exact ih.persist hv hwrite

end VaultStore.Holds

/-- The vault and every record that can be read have the property. -/
structure World.Holds (P : VaultRecord → Prop) (w : World σ A) : Prop where
  vault : P w.vault.record
  store : w.store.Holds P

variable {host : Host σ A} {w w' : World σ A}

theorem World.Meanwhile.holds (hw : w.Holds P) (h : w.Meanwhile w') : w'.Holds P where
  vault := by
    unfold Vault.record
    rw [h.vault.config_eq, h.vault.state_eq]
    exact hw.vault
  store := hw.store.writes hw.vault h.store

/-- A property of records becomes another one in a turn, if it does by itself and in a call that
succeeds. -/
theorem Turn.holds_of {P P' : VaultRecord → Prop} (t : Turn σ A)
    (hweaker : ∀ record, P record → P' record)
    (hcall : ∀ (c : Call A) (effect : Effect Reply), t = .call c →
      (perform host c w).1 = .ok effect.output →
      Commits w.vault.config (host.now w.host) w.vault.state c effect → P w.vault.record →
        P' ⟨w.vault.config, effect.state.ledger, effect.state.governance⟩)
    (hw : w.Holds P) : (t.play host w).Holds P' := by
  have hw' : w.Holds P' :=
    ⟨hweaker _ hw.vault, fun id record h => hweaker _ (hw.store id record h)⟩
  have hdoes := t.does host w
  generalize t.play host w = w' at hdoes
  cases hdoes with
  | @commits c effect w₁ idle outcome commits meanwhile =>
    constructor
    · show P' ⟨w₁.vault.config, effect.state.ledger, effect.state.governance⟩
      rw [meanwhile.vault.config_eq]
      exact hcall _ _ rfl outcome commits hw.vault
    · exact VaultStore.Holds.writes (v := (w.mapVault .begin).vault) hw'.store hw'.vault
        meanwhile.store
  | leaves fails meanwhile => exact meanwhile.holds hw'
  | outside => exact ⟨hw'.vault, hw'.store⟩
  | restores restored =>
    obtain ⟨record, hrecord, rfl⟩ := restore_ok restored
    exact ⟨hw'.store _ _ hrecord, hw'.store⟩
  | refuses => exact hw'

theorem Turn.holds (hP : KeptByCalls A P) (t : Turn σ A) (hw : w.Holds P) :
    (t.play host w).Holds P :=
  t.holds_of (fun _ h => h) (fun _ _ _ _ commits h => hP _ _ _ _ _ commits h) hw

/-- A property of records that new vaults have, and that calls keep, is there in every world that a
run leads to. -/
theorem Reachable.holds (hP : KeptByCalls A P)
    (hnew : ∀ (id : Uuid) (config : VaultConfig) (admin : Account) (schedule : FeeSchedule)
      (adapter : Reference × A) (now : Timestamp) (v : Vault A),
      Vault.create id config admin schedule adapter now = .ok v → P v.record)
    (h : Reachable host w) : w.Holds P := by
  induction h with
  | create created => exact ⟨hnew _ _ _ _ _ _ _ created, .empty⟩
  | turn t reached ih => exact t.holds hP ih

end ShareVault
