import ShareVault.Proofs.Custody
import ShareVault.Proofs.Record

/-!
# Stored bytes say one thing

The stored form of a value has neither names nor delimiters, so it is the reader that knows where a
value ends.  It never looks past that end: what it has read from some bytes it reads from any longer
ones, too.  A part of a stored value that could be read would then be read in the same way when the
rest follows, and the reader would stop before the end of the value.

* `ByteReader.Steady` — readers that do not look past the end of a value, and what they are made of;
* `SteadyByteCodec` — the types whose values are read in this way, one instance for each;
* `decode_cut` — a stored value that is cut off cannot be read;
* `VaultStore.Unambiguous`, `stored_bytes_unambiguous` — the result, for the three parts of a record.
-/

namespace ShareVault

open ByteCodec LawfulByteCodec

variable {α β κ : Type}

/-! ### Readers -/

/-- What is read from some bytes is read from any longer ones, and the additional bytes are left. -/
def ByteReader.Steady (m : ByteReader α) : Prop :=
  ∀ bs a rest more, m.run bs = some (a, rest) → m.run (bs ++ more) = some (a, rest ++ more)

namespace ByteReader.Steady

theorem pure (a : α) : ByteReader.Steady (Pure.pure a) := by
  intro bs a' rest more h
  cases h
  rfl

theorem failure : ByteReader.Steady (Alternative.failure : ByteReader α) := by
  intro bs a rest more h
  cases h

/-- A value that is there or not, whatever the bytes are. -/
theorem lift (o : Option α) : ByteReader.Steady (liftM o) := by
  intro bs a rest more h
  cases o with
  | none => cases h
  | some a' =>
    cases h
    rfl

theorem bind {m : ByteReader α} {f : α → ByteReader β} (hm : m.Steady)
    (hf : ∀ a, ByteReader.Steady (f a)) : ByteReader.Steady (m >>= f) := by
  intro bs b rest more h
  rw [StateT.run_bind] at h
  obtain ⟨⟨a, middle⟩, hfirst, hsecond⟩ := Option.bind_eq_some_iff.mp h
  rw [run_bind_of_eq_some (hm _ _ _ more hfirst)]
  exact hf a _ _ _ more hsecond

theorem take (n : Nat) : ByteReader.Steady (ByteCodec.take n) := by
  intro bs taken rest more h
  have h : (if n ≤ bs.length then some (bs.take n, bs.drop n) else none) = some (taken, rest) := h
  split at h
  next hle =>
    cases h
    have hlength : (bs.take n).length = n := by
      rw [List.length_take]
      exact Nat.min_eq_left hle
    -- the bytes in front are as many as are asked for, whatever follows them
    have hsplit : bs ++ more = bs.take n ++ (bs.drop n ++ more) := by
      rw [← List.append_assoc, List.take_append_drop]
    rw [hsplit]
    exact take_append _ _ hlength
  next => cases h

theorem decodeNat (size : Nat) : ByteReader.Steady (ByteCodec.decodeNat size) :=
  (take size).bind fun _ => pure _

theorem decodeMany {item : ByteReader α} (hitem : item.Steady) (n : Nat) :
    ByteReader.Steady (ByteCodec.decodeMany item n) := by
  induction n with
  | zero => exact pure []
  | succ n ih =>
    refine hitem.bind fun a => ?_
    exact ih.bind fun rest => pure (a :: rest)

end ByteReader.Steady

/-! ### Types -/

/-- A type whose reader does not look past the end of a value. -/
class SteadyByteCodec (α : Type) [ByteCodec α] : Prop where
  steady : ByteReader.Steady (decode : ByteReader α)

open ByteReader (Steady)
open SteadyByteCodec (steady)

/-- A reader that reads a value first. -/
theorem steady_decode_bind [ByteCodec α] [SteadyByteCodec α] {f : α → ByteReader β}
    (hf : ∀ a, Steady (f a)) : Steady (decode >>= f) :=
  steady.bind hf

section Instances

variable [ByteCodec α] [SteadyByteCodec α] [ByteCodec β] [SteadyByteCodec β]

instance {w : Nat} : SteadyByteCodec (Word w) where
  steady := (Steady.decodeNat (w / 8)).bind fun _ => Steady.lift _

instance : SteadyByteCodec Bool where
  steady := by
    refine (Steady.take 1).bind fun bs => ?_
    split
    · exact Steady.pure false
    · exact Steady.pure true
    · exact Steady.failure

instance : SteadyByteCodec String where
  steady := by
    refine (Steady.decodeNat 8).bind fun n => ?_
    exact (Steady.take n).bind fun _ => Steady.lift _

instance : SteadyByteCodec (Option α) where
  steady := by
    refine (Steady.take 1).bind fun bs => ?_
    split
    · exact Steady.pure none
    · exact steady_decode_bind fun a => Steady.pure (some a)
    · exact Steady.failure

instance : SteadyByteCodec (α × β) where
  steady := by
    refine steady_decode_bind fun a => ?_
    exact steady_decode_bind fun b => Steady.pure (a, b)

theorem steady_decodeList : Steady (decodeList α) :=
  (Steady.decodeNat 8).bind fun n => steady.decodeMany n

instance : SteadyByteCodec (List α) where
  steady := steady_decodeList

instance [Ord κ] [Std.TransOrd κ] [Std.LawfulEqOrd κ] [ByteCodec κ] [SteadyByteCodec κ] :
    SteadyByteCodec (SortedMap κ α) where
  steady := steady_decodeList.bind fun _ => Steady.pure _

instance [Ord κ] [Std.TransOrd κ] [Std.LawfulEqOrd κ] [ByteCodec κ] [SteadyByteCodec κ] :
    SteadyByteCodec (SortedSet κ) where
  steady := steady_decodeList.bind fun _ => Steady.pure _

instance : SteadyByteCodec (Timelocked α) where
  steady := by
    refine steady_decode_bind fun active => steady_decode_bind fun staged => ?_
    exact steady_decode_bind fun readyAt => Steady.pure (Timelocked.mk active staged readyAt)

end Instances

instance : SteadyByteCodec Role where
  steady := (Steady.decodeNat 4).bind fun _ => Steady.lift _

instance : SteadyByteCodec AccessTable where
  steady := steady_decode_bind fun _ => Steady.pure _

instance : SteadyByteCodec GovernanceSettings where
  steady := by
    refine steady_decode_bind fun delay => steady_decode_bind fun management => ?_
    refine steady_decode_bind fun performance => steady_decode_bind fun protocol => ?_
    exact Steady.pure (GovernanceSettings.mk delay management performance protocol)

instance : SteadyByteCodec DepositLimits where
  steady := by
    refine steady_decode_bind fun total => ?_
    exact steady_decode_bind fun perAddress => Steady.pure (DepositLimits.mk total perAddress)

instance : SteadyByteCodec FeeParameters where
  steady := by
    refine steady_decode_bind fun management => steady_decode_bind fun performance => ?_
    refine steady_decode_bind fun protocol => steady_decode_bind fun throttle => ?_
    refine steady_decode_bind fun strategyTreasury => ?_
    refine steady_decode_bind fun performanceTreasury => ?_
    refine steady_decode_bind fun protocolTreasury => steady_decode_bind fun reference => ?_
    exact Steady.pure (FeeParameters.mk management performance protocol throttle strategyTreasury
      performanceTreasury protocolTreasury reference)

instance : SteadyByteCodec VaultGovernance where
  steady := by
    refine steady_decode_bind fun params => steady_decode_bind fun access => ?_
    refine steady_decode_bind fun settings => steady_decode_bind fun limits => ?_
    refine steady_decode_bind fun privateVault => steady_decode_bind fun allowlist => ?_
    exact Steady.pure
      (VaultGovernance.mk params access settings limits privateVault allowlist)

instance : SteadyByteCodec VaultConfig where
  steady := by
    refine steady_decode_bind fun tokens => steady_decode_bind fun existentials => ?_
    exact steady_decode_bind fun settings =>
      Steady.pure (VaultConfig.mk tokens existentials settings)

instance : SteadyByteCodec ShareLedger where
  steady := by
    refine steady_decode_bind fun supply => steady_decode_bind fun balances => ?_
    refine steady_decode_bind fun mark => steady_decode_bind fun last => ?_
    exact Steady.pure (ShareLedger.mk supply balances mark last)

/-! ### Whole byte strings -/

/-- A stored value that is cut off cannot be read. -/
theorem decode_cut [ByteCodec α] [LawfulByteCodec α] [SteadyByteCodec α] {a : α} {short : Bytes}
    (hfits : fits a = true) (hshort : short <+: encode a) (hne : short ≠ encode a) :
    (decode : ByteReader α).run short = none := by
  obtain ⟨missing, hwhole⟩ := hshort
  cases hrun : (decode : ByteReader α).run short with
  | none => rfl
  | some read =>
    obtain ⟨a', rest⟩ := read
    have hlonger := steady _ _ _ missing hrun
    have hvalue := decode_encode a [] hfits
    rw [List.append_nil, ← hwhole, hlonger] at hvalue
    -- reading the whole value leaves nothing, so nothing is missing
    have hnothing : rest ++ missing = [] := congrArg Prod.snd (Option.some.inj hvalue)
    obtain ⟨_, rfl⟩ := List.append_eq_nil_iff.mp hnothing
    rw [List.append_nil] at hwhole
    exact (hne hwhole).elim

namespace VaultStore

/-- The stored bytes of the values of a type: they are there whenever every length has a place in its
eight bytes, as it has on any machine, and they say which value they are of and where it ends. -/
structure Unambiguous (α : Type) [ByteCodec α] : Prop where
  written : ∀ a : α, (∃ bytes, bytesOf a = .ok bytes) ↔ fits a = true
  /-- Whatever follows the bytes of a value, the value is read. -/
  reads : ∀ (a : α) (bytes more : Bytes), bytesOf a = .ok bytes → valueOf α (bytes ++ more) = .ok a
  /-- Bytes that end too early are refused. -/
  cut : ∀ (a : α) (bytes short : Bytes), bytesOf a = .ok bytes → short <+: bytes → short ≠ bytes →
    valueOf α short = .error .serialization
  /-- Different values have different bytes. -/
  injective : ∀ (a a' : α) (bytes : Bytes), bytesOf a = .ok bytes → bytesOf a' = .ok bytes → a = a'

theorem unambiguous [ByteCodec α] [LawfulByteCodec α] [SteadyByteCodec α] : Unambiguous α := by
  have hreads (a : α) (bytes more : Bytes) (h : bytesOf a = .ok bytes) :
      valueOf α (bytes ++ more) = .ok a := by
    obtain ⟨hfits, rfl⟩ := bytesOf_eq_ok.mp h
    exact valueOf_of_run (decode_encode a more hfits)
  refine ⟨fun a => ?_, hreads, fun a bytes short h hshort hne => ?_, fun a a' bytes h h' => ?_⟩
  · simp [bytesOf_eq_ok]
  · obtain ⟨hfits, rfl⟩ := bytesOf_eq_ok.mp h
    unfold valueOf read?
    rw [decode_cut hfits hshort hne]
    rfl
  · have hvalue := hreads a bytes [] h
    rw [hreads a' bytes [] h'] at hvalue
    exact (Except.ok.inj hvalue).symm

end VaultStore

/-- The stored bytes of a setup, of a ledger and of a governance say which value they are of and
where it ends: it is read whatever follows it, no part of the bytes is read, and no other value has
the same bytes. -/
theorem stored_bytes_unambiguous :
    VaultStore.Unambiguous VaultConfig ∧ VaultStore.Unambiguous ShareLedger ∧
      VaultStore.Unambiguous VaultGovernance :=
  ⟨VaultStore.unambiguous, VaultStore.unambiguous, VaultStore.unambiguous⟩

open SmallVault in
/-- The setup of the small vault takes ninety-nine bytes.  It is read if two more follow, and not
without the last of them. -/
theorem stored_bytes_unambiguous_setup :
    ∃ bytes, VaultStore.bytesOf config = .ok bytes ∧ bytes.length = 99 ∧
      VaultStore.valueOf VaultConfig (bytes ++ [0, 1]) = .ok config ∧
      VaultStore.valueOf VaultConfig bytes.dropLast = .error .serialization := by
  obtain ⟨hsetup, _, _⟩ := stored_bytes_unambiguous
  obtain ⟨bytes, hbytes⟩ := (hsetup.written config).mpr (by decide +kernel)
  have hlength : bytes.length = 99 := by
    rw [(VaultStore.bytesOf_eq_ok.mp hbytes).2]
    decide +kernel
  have hshorter : bytes.dropLast ≠ bytes := by
    intro hsame
    have hcount := congrArg List.length hsame
    rw [List.length_dropLast] at hcount
    omega
  exact ⟨bytes, hbytes, hlength, hsetup.reads config bytes _ hbytes,
    hsetup.cut config bytes _ hbytes (List.dropLast_prefix bytes) hshorter⟩

end ShareVault
