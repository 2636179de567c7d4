import ShareVault.Store
import ShareVault.Proofs.Outcome

/-!
# Reading back what was written

The stored form of a value can be read back, whatever follows it, so a value made of parts can be
read back part by part.

* `LawfulByteCodec` — types whose values can be read back;
* `decodeNat_encodeNat`, `decodeMany_encode` — numbers and sequences, which the rest is made of;
* `decode_bind` — values made of parts;
* instances for words, texts, pairs, lists, maps and ledgers;
* `VaultStore.valueOf_bytesOf` — whole byte strings.
-/

namespace ShareVault

open ByteCodec

/-- The stored form of a value that has one reads as the value, and leaves what follows. -/
class LawfulByteCodec (α : Type) [ByteCodec α] : Prop where
  decode_encode : ∀ (a : α) (rest : Bytes), fits a = true →
    decode.run (encode a ++ rest) = some (a, rest)

open LawfulByteCodec

variable {α β κ : Type}

/-! ### Numbers and sequences -/

/-- A reader that has read goes on with what it left. -/
theorem run_bind_of_eq_some {m : ByteReader α} {f : α → ByteReader β} {bs rest : Bytes} {a : α}
    (h : m.run bs = some (a, rest)) : (m >>= f).run bs = (f a).run rest := by
  rw [StateT.run_bind, h]
  rfl

theorem take_append (bs rest : Bytes) {n : Nat} (h : bs.length = n) :
    (take n).run (bs ++ rest) = some (bs, rest) := by
  show (if n ≤ (bs ++ rest).length then some ((bs ++ rest).take n, (bs ++ rest).drop n)
    else none) = _
  subst h
  have hle : bs.length ≤ (bs ++ rest).length := by
    rw [List.length_append]
    exact Nat.le_add_right _ _
  rw [if_pos hle, List.take_left, List.drop_left]

theorem length_encodeNat (size n : Nat) : (encodeNat size n).length = size := by
  unfold encodeNat
  rw [List.length_map, Radix.length_digits]

/-- The bytes of a number are its digits in base 256. -/
theorem map_toNat_encodeNat (size n : Nat) :
    (encodeNat size n).map UInt8.toNat = Radix.digits 256 size n := by
  unfold encodeNat
  rw [List.map_map]
  refine (List.map_congr_left fun d hd => ?_).trans (List.map_id _)
  have hlt : d < 256 := Radix.digits_lt (by omega) size n d hd
  show (UInt8.ofNat d).toNat = d
  rw [UInt8.toNat_ofNat']
  exact Nat.mod_eq_of_lt hlt

theorem decodeNat_encodeNat {size n : Nat} (h : Radix.value 256 (Radix.digits 256 size n) = n)
    (rest : Bytes) : (decodeNat size).run (encodeNat size n ++ rest) = some (n, rest) := by
  unfold decodeNat
  rw [run_bind_of_eq_some (take_append _ rest (length_encodeNat size n)), map_toNat_encodeNat, h]
  rfl

/-- Digits in base 256 hold every word that has eight binary digits for each of them. -/
theorem value_digits_word {w k : Nat} (a : Word w) (hw : w = 8 * k) :
    Radix.value 256 (Radix.digits 256 k a.toNat) = a.toNat := by
  subst hw
  rw [Radix.value_digits, ← Word.size_eq_pow]
  exact Nat.mod_eq_of_lt a.lt

theorem decodeLength_encodeLength {n : Nat} (h : lengthFits n = true) (rest : Bytes) :
    decodeLength.run (encodeLength n ++ rest) = some (n, rest) := by
  obtain ⟨a, ha⟩ := Option.isSome_iff_exists.mp h
  have hvalue := value_digits_word (k := 8) a rfl
  rw [Word.ofNat?_eq_some.mp ha] at hvalue
  exact decodeNat_encodeNat hvalue rest

variable [ByteCodec α] [LawfulByteCodec α]

/-- A reader that reads a value first goes on with what follows the value. -/
theorem decode_bind {f : α → ByteReader β} {a : α} (h : fits a = true) (rest : Bytes) :
    (decode >>= f).run (encode a ++ rest) = (f a).run rest :=
  run_bind_of_eq_some (decode_encode a rest h)

/-- Values written one after another are read one after another. -/
theorem decodeMany_encode (l : List α) (rest : Bytes) (h : l.all fits = true) :
    (decodeMany decode l.length).run (l.flatMap encode ++ rest) = some (l, rest) := by
  induction l with
  | nil => rfl
  | cons a tail ih =>
    obtain ⟨ha, htail⟩ := (Bool.and_eq_true _ _).mp h
    rw [List.flatMap_cons, List.append_assoc]
    show (decode >>= fun a => decodeMany decode tail.length >>= fun rest => pure (a :: rest)).run
      _ = _
    rw [decode_bind ha, run_bind_of_eq_some (ih htail)]
    rfl

theorem decodeList_encodeList (l : List α) (rest : Bytes)
    (h : (lengthFits l.length && l.all fits) = true) :
    (decodeList α).run (encodeList l ++ rest) = some (l, rest) := by
  obtain ⟨hlength, hall⟩ := (Bool.and_eq_true _ _).mp h
  unfold decodeList encodeList
  rw [List.append_assoc, run_bind_of_eq_some (decodeLength_encodeLength hlength _)]
  exact decodeMany_encode l rest hall

/-! ### Instances -/

theorem lawful_word {w : Nat} (hw : w = 8 * (w / 8)) : LawfulByteCodec (Word w) where
  decode_encode a rest _ := by
    have hread := decodeNat_encodeNat (value_digits_word a hw) rest
    show (decodeNat (w / 8) >>= fun n => liftM (Word.ofNat? w n)).run
      (encodeNat (w / 8) a.toNat ++ rest) = _
    rw [run_bind_of_eq_some hread, Word.ofNat?_toNat]
    rfl

instance : LawfulByteCodec Amount := lawful_word rfl
instance : LawfulByteCodec Timestamp := lawful_word rfl

/-- The bytes of a text are those of a text. -/
theorem fromUTF8?_toByteArray (s : String) : String.fromUTF8? s.toByteArray = some s := by
  unfold String.fromUTF8?
  rw [dif_pos s.isValidUTF8]
  rfl

instance : LawfulByteCodec String where
  decode_encode s rest h := by
    have hlength : s.toByteArray.data.toList.length = s.utf8ByteSize := by
      rw [Array.length_toList]
      rfl
    have hread := take_append s.toByteArray.data.toList rest hlength
    show (decodeLength >>= fun n => take n >>= fun bs =>
      liftM (String.fromUTF8? ⟨bs.toArray⟩)).run (encodeLength s.utf8ByteSize ++ _ ++ rest) = _
    rw [List.append_assoc, run_bind_of_eq_some (decodeLength_encodeLength h _),
      run_bind_of_eq_some hread]
    show (liftM (String.fromUTF8? ⟨s.toByteArray.data.toList.toArray⟩) : ByteReader String).run
      rest = _
    rw [Array.toArray_toList, fromUTF8?_toByteArray]
    rfl

variable [ByteCodec β] [LawfulByteCodec β]

instance : LawfulByteCodec (α × β) where
  decode_encode p rest h := by
    obtain ⟨hfirst, hsecond⟩ := (Bool.and_eq_true _ _).mp h
    show (decode >>= fun a => decode >>= fun b => pure (a, b)).run
      (encode p.1 ++ encode p.2 ++ rest) = _
    rw [List.append_assoc, decode_bind hfirst, decode_bind hsecond]
    rfl

instance : LawfulByteCodec (List α) where
  decode_encode := decodeList_encodeList

instance [Ord κ] [Std.TransOrd κ] [Std.LawfulEqOrd κ] [ByteCodec κ] [LawfulByteCodec κ] :
    LawfulByteCodec (SortedMap κ α) where
  decode_encode m rest h := by
    show (decodeList (κ × α) >>= fun l => pure (SortedMap.ofList l)).run
      (encodeList m.toList ++ rest) = _
    rw [run_bind_of_eq_some (decodeList_encodeList m.toList rest h), SortedMap.ofList_toList]
    rfl

instance : LawfulByteCodec ShareLedger where
  decode_encode l rest h := by
    show (decode >>= fun supply => decode >>= fun balances => decode >>= fun mark =>
      decode >>= fun last => pure (ShareLedger.mk supply balances mark last)).run
        (encode l.totalSupply ++ encode l.balances ++ encode l.highWaterMark ++
          encode l.lastFeeCharge ++ rest) = _
    have hbalances : fits l.balances = true := h
    rw [List.append_assoc, List.append_assoc, List.append_assoc, decode_bind rfl,
      decode_bind hbalances, decode_bind rfl, decode_bind rfl]
    rfl

/-! ### Whole byte strings -/

omit [LawfulByteCodec α] in
/-- A byte string that starts with a value is read as the value, whatever is left of it. -/
theorem VaultStore.valueOf_of_run {a : α} {bs rest : Bytes}
    (h : decode.run bs = some (a, rest)) : valueOf α bs = .ok a := by
  unfold valueOf read?
  rw [h]
  rfl

/-- What is written of a value is read as the value. -/
theorem VaultStore.valueOf_bytesOf {a : α} {bs : Bytes} (h : bytesOf a = .ok bs) :
    valueOf α bs = .ok a := by
  unfold bytesOf at h
  split at h
  next hfits =>
    cases h
    have hread := decode_encode a [] hfits
    rw [List.append_nil] at hread
    exact valueOf_of_run hread
  next => cases h

end ShareVault
