import ShareVault.Event
import ShareVault.Fees
import ShareVault.Governance
import ShareVault.Valuation
import ShareVault.Proofs.JsonCodec
import ShareVault.Proofs.Record

/-!
# JSON that is read back

Every value that a vault writes as JSON is read back from the compact text: records, whose fields
are found under their names; unions, whose cases are told apart by theirs; identifiers, whose text
is grouped; and whatever texts and numbers there are in them.

* `Uuid.parse?_text` — the text of an identifier;
* instances of `LawfulJsonCodec` for everything that is written;
* `json_round_trips` — the result.
-/

namespace ShareVault

open LawfulJsonCodec Json

/-! ### Identifiers -/

namespace Uuid

variable {size : Nat} {sizes : List Nat} {digits rest : List Char}

theorem ungroup?_single (h : digits.length = size) : ungroup? [size] digits = some digits :=
  if_pos h

/-- A group is taken off with the hyphen behind it. -/
theorem ungroup?_append (h : digits.length = size) (hsizes : sizes ≠ []) :
    ungroup? (size :: sizes) (digits ++ '-' :: rest) = (ungroup? sizes rest).map (digits ++ ·) := by
  cases sizes with
  | nil => exact (hsizes rfl).elim
  | cons next others =>
    subst h
    rw [ungroup?, List.drop_left, List.take_left]
    · rfl
    · intro hnil
      cases hnil

/-- Thirty-two characters in their groups are put together again. -/
theorem ungroup?_groups {ds : List Char} (h : ds.length = 32) :
    ungroup? groups (ds.take 8 ++ '-' :: (ds.drop 8).take 4 ++ '-' :: (ds.drop 12).take 4 ++
      '-' :: (ds.drop 16).take 4 ++ '-' :: (ds.drop 20).take 12) = some ds := by
  have hlast : (ds.drop 20).take 12 = ds.drop 20 := by
    rw [List.take_of_length_le]
    simp [h]
  have hjoin (start size : Nat) :
      (ds.drop start).take size ++ ds.drop (start + size) = ds.drop start := by
    rw [← List.drop_drop, List.take_append_drop]
  have hfirst : (ds.take 8).length = 8 := by simp [h]
  have hsecond : ((ds.drop 8).take 4).length = 4 := by simp [h]
  have hthird : ((ds.drop 12).take 4).length = 4 := by simp [h]
  have hfourth : ((ds.drop 16).take 4).length = 4 := by simp [h]
  have hfifth : (ds.drop 20).length = 12 := by simp [h]
  simp only [List.append_assoc, List.cons_append, groups]
  rw [hlast, ungroup?_append hfirst (by simp), ungroup?_append hsecond (by simp),
    ungroup?_append hthird (by simp), ungroup?_append hfourth (by simp), ungroup?_single hfifth]
  simp only [Option.map_some, hjoin 16 4, hjoin 12 4, hjoin 8 4, List.take_append_drop]

theorem length_hexDigits (id : Uuid) : id.hexDigits.length = 32 := by
  simp [hexDigits]

/-- A number is read from its hexadecimal digits. -/
theorem ofHexDigits?_hexDigits (id : Uuid) : ofHexDigits? id.hexDigits = some id := by
  have hdigits : id.hexDigits.mapM Radix.hexValue? =
      some (Radix.digits 16 32 id.word.toNat).reverse := by
    unfold hexDigits
    rw [mapM_map_of_forall (h := fun d => d) fun d hd => ?_, List.map_id']
    exact Radix.hexValue?_hexDigit d (Radix.digits_lt (by omega) 32 _ d (List.mem_reverse.mp hd))
  have hvalue : Radix.value 16 (Radix.digits 16 32 id.word.toNat) = id.word.toNat := by
    rw [Radix.value_digits]
    exact Nat.mod_eq_of_lt id.word.lt
  unfold ofHexDigits?
  rw [hdigits]
  simp [hvalue, Word.ofNat?_toNat]

theorem hexDigit_ne : ∀ d < 16, Radix.hexDigit d ≠ '\x7b' ∧ Radix.hexDigit d ≠ 'u' := by
  decide

/-- The digits start with one that starts neither a brace nor a `urn`. -/
theorem hexDigits_head (id : Uuid) :
    ∃ c cs, id.hexDigits = c :: cs ∧ c ≠ '\x7b' ∧ c ≠ 'u' := by
  cases h : id.hexDigits with
  | nil => cases h ▸ length_hexDigits id
  | cons c cs =>
    have hmem : c ∈ id.hexDigits := by simp [h]
    obtain ⟨d, hd, rfl⟩ := List.mem_map.mp hmem
    have hlt := Radix.digits_lt (by omega) 32 _ d (List.mem_reverse.mp hd)
    exact ⟨_, cs, rfl, hexDigit_ne d hlt⟩

theorem unbrace?_of_ne {c : Char} {cs : List Char} (h : c ≠ '\x7b') : unbrace? (c :: cs) = none := by
  unfold unbrace?
  split
  next hhead =>
    cases hhead
    exact (h rfl).elim
  next => rfl

theorem unurn?_of_ne {c : Char} {cs : List Char} (h : c ≠ 'u') : unurn? (c :: cs) = none := by
  unfold unurn?
  split
  next hhead =>
    cases hhead
    exact (h rfl).elim
  next => rfl

/-- The text of an identifier is in groups, and in none of the other forms. -/
theorem parse?_text (id : Uuid) : parse? id.text = some id := by
  have hlength := length_hexDigits id
  have hgroups := ungroup?_groups hlength
  obtain ⟨c, cs, hdigits, hbrace, hurn⟩ := hexDigits_head id
  have hhead : ∃ rest, id.text.toList = c :: rest ∧ rest.length = 35 := by
    unfold text
    rw [String.toList_ofList, hdigits]
    refine ⟨_, rfl, ?_⟩
    rw [hdigits] at hlength
    simp only [List.length_cons] at hlength
    have hcs : cs.length = 31 := by omega
    simp [hcs]
  have hread : ofHyphenated? id.text.toList = some id := by
    unfold ofHyphenated? text
    rw [String.toList_ofList]
    exact (congrArg (·.bind ofHexDigits?) hgroups).trans (ofHexDigits?_hexDigits id)
  obtain ⟨rest, htext, hrest⟩ := hhead
  rw [htext] at hread
  unfold parse?
  simp only [htext, unbrace?_of_ne hbrace, unurn?_of_ne hurn]
  simp [hrest, hread]

end Uuid

instance : LawfulJsonCodec Uuid where
  ofJson?_toJson := Uuid.parse?_text
  plain id := .str id.text

/-! ### Names -/

instance : LawfulJsonCodec Role where
  ofJson?_toJson r := by cases r <;> rfl
  plain r := .str r.name

instance : LawfulJsonCodec Param where
  ofJson?_toJson p := by cases p <;> rfl
  plain p := .str p.tag

instance : LawfulJsonCodec SkipReason where
  ofJson?_toJson reason := by cases reason <;> rfl
  plain reason := .str reason.name

instance : NeverNull SkipReason where
  toJson_ne_null := by
    rintro reason ⟨⟩

/-! ### Records -/

instance {α : Type} [JsonCodec α] [LawfulJsonCodec α] [NeverNull α] :
    LawfulJsonCodec (Timelocked α) where
  ofJson?_toJson t := read_record (by rfl) (by decide) (by simp)
  plain t := plain_object.mpr (by simp)

instance : LawfulJsonCodec FeeSchedule where
  ofJson?_toJson s := read_record (by rfl) (by decide) (by simp)
  plain s := plain_object.mpr (by simp)

instance : LawfulJsonCodec FeeParameters where
  ofJson?_toJson ps := read_record (by rfl) (by decide) (by simp)
  plain ps := plain_object.mpr (by simp)

instance : LawfulJsonCodec AccessTable where
  ofJson?_toJson t := read_record (by rfl) (by decide) (by simp)
  plain t := plain_object.mpr (by simp)

instance : LawfulJsonCodec GovernanceSettings where
  ofJson?_toJson s := read_record (by rfl) (by decide) (by simp)
  plain s := plain_object.mpr (by simp)

instance : LawfulJsonCodec DepositLimits where
  ofJson?_toJson l := read_record (by rfl) (by decide) (by simp)
  plain l := plain_object.mpr (by simp)

instance : LawfulJsonCodec VaultGovernance where
  ofJson?_toJson g := read_record (by rfl) (by decide) (by simp)
  plain g := plain_object.mpr (by simp)

instance : LawfulJsonCodec VaultConfig where
  ofJson?_toJson c := read_record (by rfl) (by decide) (by simp)
  plain c := plain_object.mpr (by simp)

instance : LawfulJsonCodec ShareLedger where
  ofJson?_toJson l := read_record (by rfl) (by decide) (by simp)
  plain l := plain_object.mpr (by simp)

instance : LawfulJsonCodec Tvl where
  ofJson?_toJson t := read_record (by rfl) (by decide) (by simp)
  plain t := plain_object.mpr (by simp)

instance : LawfulJsonCodec FeeCharge where
  ofJson?_toJson c := read_record (by rfl) (by decide) (by simp)
  plain c := plain_object.mpr (by simp)

/-! ### Unions -/

instance : LawfulJsonCodec ParamValue where
  ofJson?_toJson v := by
    cases v with
    | rate r => exact read_content ParamValue.rate r
    | seconds s => exact read_content ParamValue.seconds s
    | account a => exact read_content ParamValue.account a
    | reference r => exact read_content ParamValue.reference r
  plain v := by
    cases v <;> exact plain_tagged.mpr (plain _)

instance : LawfulJsonCodec VaultEvent where
  -- the name of a case selects the record that the content is read as
  ofJson?_toJson e := by
    cases e <;> exact read_tagged (read_record (by rfl) (by decide) (by simp))
  plain e := by
    cases e <;> exact plain_tagged.mpr (plain_object.mpr (by simp))

instance : LawfulJsonCodec EventRecord where
  ofJson?_toJson r := read_record (by rfl) (by decide) (by simp)
  plain r := plain_object.mpr (by simp)

/-! ### The result -/

open JsonCodec in
/-- Every value that is written as JSON is read back from its text, whatever characters its texts
have and however large its numbers are. -/
theorem json_round_trips :
    RoundTrips VaultGovernance ∧ RoundTrips FeeParameters ∧ RoundTrips AccessTable ∧
      RoundTrips GovernanceSettings ∧ RoundTrips DepositLimits ∧ RoundTrips (SortedSet Account) ∧
      RoundTrips ShareLedger ∧ RoundTrips VaultConfig ∧ RoundTrips VaultEvent ∧
      RoundTrips EventRecord ∧ RoundTrips FeeSchedule ∧ RoundTrips FeeCharge ∧
      RoundTrips SkipReason ∧ RoundTrips Param ∧ RoundTrips ParamValue ∧ RoundTrips Role ∧
      RoundTrips Tvl ∧ RoundTrips (Timelocked (Word 64)) ∧ RoundTrips (Timelocked (Word 128)) ∧
      RoundTrips (Timelocked String) :=
  ⟨roundTrips _, roundTrips _, roundTrips _, roundTrips _, roundTrips _, roundTrips _,
    roundTrips _, roundTrips _, roundTrips _, roundTrips _, roundTrips _, roundTrips _,
    roundTrips _, roundTrips _, roundTrips _, roundTrips _, roundTrips _, roundTrips _,
    roundTrips _, roundTrips _⟩

/-- A quote in an account is escaped. -/
example : JsonCodec.write (ParamValue.account "a\"b") =
    "\x7b\"Account\":\"a\\\"b\"\x7d" := by
  decide +kernel

end ShareVault
