import Mathlib.Data.List.Nodup
import ShareVault.Proofs.CanonicalConfig
import ShareVault.Proofs.JsonCodec

/-!
# Settings in JSON

Whoever writes settings by hand leaves out what is usual, adds notes of their own and orders the
members as they like.  What is read depends on nothing of this: each field has the value that is given
for it, or else the usual one, and a field that is given twice is refused.

* `slotOf?_perm`, `slotOf?_append`, `slotOf?_given` — a field is found in any order, among members
  that name no field;
* `slotOf?_repeated` — a name that stands twice;
* `GivenSettings` — the fields that are given, and the settings that result;
* `settings_read_from_any_text` — the result.
-/

namespace ShareVault

namespace Json

variable {members extra : List (String × Json)} {fields : List (String × Option Json)}
  {names : List String} {name : String}

/-! ### Fields in any order -/

/-- The members of an object that gives some of these fields. -/
def given (fields : List (String × Option Json)) : List (String × Json) :=
  fields.filterMap fun f => f.2.map fun v => (f.1, v)

def Slot.ofOption : Option Json → Slot
  | some v => .given v
  | none => .absent

/-- The order of the members does not matter. -/
theorem slotOf?_perm {members' : List (String × Json)} (h : members.Perm members') :
    slotOf? members name = slotOf? members' name := by
  have hnamed := h.filter fun m => m.1 = name
  unfold slotOf?
  generalize members.filter _ = named at hnamed
  generalize members'.filter _ = named' at hnamed
  match named with
  | [] =>
    rw [List.nil_perm.mp hnamed]
  | [m] =>
    rw [List.singleton_perm.mp hnamed]
  | m :: n :: rest =>
    obtain ⟨m', n', rest', rfl⟩ : ∃ m' n' rest', named' = m' :: n' :: rest' := by
      match named', hnamed.length_eq with
      | m' :: n' :: rest', _ => exact ⟨m', n', rest', rfl⟩
    rfl

/-- Members of other names do not matter. -/
theorem slotOf?_append (h : ∀ m ∈ extra, m.1 ≠ name) :
    slotOf? (members ++ extra) name = slotOf? members name := by
  have hnone : extra.filter (fun m => m.1 = name) = [] := by
    rw [List.filter_eq_nil_iff]
    intro m hm hname
    exact h m hm (of_decide_eq_true hname)
  unfold slotOf?
  rw [List.filter_append, hnone, List.append_nil]

theorem mem_given {m : String × Json} : m ∈ given fields ↔ (m.1, some m.2) ∈ fields := by
  unfold given
  rw [List.mem_filterMap]
  constructor
  · rintro ⟨⟨name, value⟩, hf, hm⟩
    obtain ⟨v, rfl, rfl⟩ := Option.map_eq_some_iff.mp hm
    exact hf
  · intro hm
    exact ⟨_, hm, rfl⟩

theorem given_sublist : ((given fields).map (·.1)).Sublist (fields.map (·.1)) := by
  induction fields with
  | nil => exact .slnil
  | cons f fields ih =>
    obtain ⟨name, value⟩ := f
    cases value with
    | none => exact ih.cons name
    | some v => exact ih.cons_cons name

/-- A field has what is given for it. -/
theorem slotOf?_given {f : String × Option Json} (hf : f ∈ fields) (h : (fields.map (·.1)).Nodup) :
    slotOf? (given fields) f.1 = some (.ofOption f.2) := by
  obtain ⟨name, value⟩ := f
  cases value with
  | some v =>
    have hmem : (name, v) ∈ given fields := mem_given.mpr hf
    exact slotOf?_of_mem hmem (h.sublist given_sublist)
  | none =>
    have hnone : (given fields).filter (fun m => m.1 = name) = [] := by
      rw [List.filter_eq_nil_iff]
      intro m hm hname
      -- two fields of this name would be one, but only one of them is given
      have hsame := List.inj_on_of_nodup_map h (mem_given.mp hm) hf (of_decide_eq_true hname)
      cases hsame
    unfold slotOf?
    rw [hnone]
    rfl

/-- The fields of a record, whatever the order of the members and whichever others there are. -/
theorem slots?_given (hnodup : (fields.map (·.1)).Nodup)
    (hextra : ∀ m ∈ extra, m.1 ∉ fields.map (·.1)) (hperm : members.Perm (given fields ++ extra)) :
    (object members).slots? (fields.map (·.1)) = some (fields.map fun f => .ofOption f.2) := by
  have hslot : ∀ f ∈ fields, slotOf? members f.1 = some (.ofOption f.2) := by
    intro f hf
    have hother : ∀ m ∈ extra, m.1 ≠ f.1 := fun m hm hname =>
      hextra m hm (hname ▸ List.mem_map_of_mem hf)
    rw [slotOf?_perm hperm, slotOf?_append hother, slotOf?_given hf hnodup]
  show ((members.map fun m => (some m.1, m.2)).mapM keyed?).bind _ = _
  rw [mapM_keyed?]
  exact mapM_map_of_forall hslot

/-! ### Fields that stand twice -/

/-- A name that stands twice is refused. -/
theorem slotOf?_repeated (h : 2 ≤ (members.map (·.1)).count name) : slotOf? members name = none := by
  have hlength : 2 ≤ (members.filter fun m => m.1 = name).length := by
    rw [List.count, List.countP_map, List.countP_eq_length_filter] at h
    exact h
  unfold slotOf?
  match members.filter _, hlength with
  | _ :: _ :: _, _ => rfl

/-- A list is read only if all of its items are. -/
theorem mapM_eq_none_of_mem {α β : Type} {f : α → Option β} {a : α} {l : List α} (ha : a ∈ l)
    (h : f a = none) : l.mapM f = none := by
  induction l with
  | nil => cases ha
  | cons b tail ih =>
    rw [List.mapM_cons]
    rcases List.mem_cons.mp ha with rfl | ha
    · rw [h]
      rfl
    · cases f b with
      | none => rfl
      | some c =>
        rw [ih ha]
        rfl

theorem slots?_repeated (hname : name ∈ names) (h : 2 ≤ (members.map (·.1)).count name) :
    (object members).slots? names = none := by
  show ((members.map fun m => (some m.1, m.2)).mapM keyed?).bind _ = _
  rw [mapM_keyed?]
  exact mapM_eq_none_of_mem hname (slotOf?_repeated h)

/-- A field that may be given or not has its value, or the default. -/
theorem Slot.orDefault?_ofOption {α : Type} [JsonCodec α] [LawfulJsonCodec α] (o : Option α) (d : α) :
    (ofOption (o.map toJson)).orDefault? d = some (o.getD d) := by
  cases o with
  | none => rfl
  | some a => exact orDefault?_given a d

end Json

/-! ### Settings -/

/-- The fields of the settings that are given, each with its value. -/
structure GivenSettings where
  delay : Option Timestamp
  managementCap : Option Amount
  performanceCap : Option Amount
  protocolCap : Option Amount

namespace GivenSettings

/-- The names of the fields. -/
def names : List String :=
  ["governance_delay", "max_management_fee", "max_performance_fee", "max_protocol_fee"]

def fields (given : GivenSettings) : List (String × Option Json) :=
  [("governance_delay", given.delay.map toJson), ("max_management_fee", given.managementCap.map toJson),
    ("max_performance_fee", given.performanceCap.map toJson),
    ("max_protocol_fee", given.protocolCap.map toJson)]

/-- The members for the fields that are given. -/
def members (given : GivenSettings) : List (String × Json) := Json.given given.fields

/-- What is given, and the usual value for each field that is not. -/
def settings (given : GivenSettings) : GovernanceSettings where
  delay := given.delay.getD GovernanceSettings.default.delay
  managementCap := given.managementCap.getD GovernanceSettings.default.managementCap
  performanceCap := given.performanceCap.getD GovernanceSettings.default.performanceCap
  protocolCap := given.protocolCap.getD GovernanceSettings.default.protocolCap

end GivenSettings

namespace GovernanceSettings

variable {members extra : List (String × Json)} {given : GivenSettings} {text : String}

theorem ofJson?_given (hextra : ∀ m ∈ extra, m.1 ∉ GivenSettings.names)
    (hperm : members.Perm (given.members ++ extra)) :
    JsonCodec.ofJson? (Json.object members) = some given.settings := by
  have hnodup : (given.fields.map (·.1)).Nodup := by
    show GivenSettings.names.Nodup
    decide
  show ((Json.object members).slots? (given.fields.map (·.1)) >>= _) = _
  rw [Json.slots?_given hnodup hextra hperm]
  simp [GivenSettings.fields, Json.Slot.orDefault?_ofOption, GivenSettings.settings]

theorem ofJson?_repeated {name : String} (hname : name ∈ GivenSettings.names)
    (h : 2 ≤ (members.map (·.1)).count name) :
    (JsonCodec.ofJson? (Json.object members) : Option GovernanceSettings) = none := by
  show ((Json.object members).slots? GivenSettings.names >>= _) = _
  rw [Json.slots?_repeated hname h]
  rfl

theorem ofText_of_read {s : GovernanceSettings}
    (h : JsonCodec.read? GovernanceSettings text = some s) :
    ofText text = (do s.validate; return s) := by
  unfold ofText
  rw [h]

theorem read?_writtenAs {v : Json} (h : v.WrittenAs text) :
    JsonCodec.read? GovernanceSettings text = JsonCodec.ofJson? v := by
  unfold JsonCodec.read?
  rw [Json.parse?_of_writtenAs h]
  rfl

end GovernanceSettings

/-! ### The result -/

open GovernanceSettings in
/-- From any text of an object the settings are read that its members give, in any order and among
any others, with the usual value for each field that is left out; they are refused exactly if a
number is above its hard maximum, and such a number is named.  If a field stands twice, nothing is
read. -/
theorem settings_read_from_any_text {members : List (String × Json)} {text : String}
    (h : (Json.object members).WrittenAs text) :
    (∀ (given : GivenSettings) (extra : List (String × Json)),
        (∀ m ∈ extra, m.1 ∉ GivenSettings.names) → members.Perm (given.members ++ extra) →
        (given.settings.Within → ofText text = .ok given.settings) ∧
        (¬ given.settings.Within → ∃ e, given.settings.Exceeds e ∧
          given.settings.validate = .error e ∧ ofText text = .error e)) ∧
      ((∃ name ∈ GivenSettings.names, 2 ≤ (members.map (·.1)).count name) →
        ofText text = .error .unreadable) := by
  have hread := read?_writtenAs h
  refine ⟨fun given extra hextra hperm => ?_, ?_⟩
  · rw [ofJson?_given hextra hperm] at hread
    rw [ofText_of_read hread]
    constructor
    · intro hwithin
      rw [validate_eq_ok.mpr hwithin]
      rfl
    · intro hnot
      cases hvalidate : given.settings.validate with
      | ok u => exact (hnot (validate_eq_ok.mp hvalidate)).elim
      | error e => exact ⟨e, validate_failsOnly e hvalidate, rfl, rfl⟩
  · rintro ⟨name, hname, hcount⟩
    rw [ofJson?_repeated hname hcount] at hread
    unfold ofText
    rw [hread]

namespace AnnotatedSettings

/-- A delay of a minute, with a note that holds what looks like a delay. -/
def members : List (String × Json) :=
  [("governance_delay", .nat 60),
    ("note", .arr [.object [("governance_delay", .numeral "-1.5E3".toList)], .str none])]

def text : String :=
  "\x7b \"\\u0067overnance_delay\" : 60,\n\"note\":[\x7b\"governance_delay\":-1.5E3\x7d, \"\\ud800\"]\x7d"

/-- The delay alone is given. -/
def given : GivenSettings := ⟨some ⟨60, by decide⟩, none, none, none⟩

section

open Json

theorem escapedName : Quotes (some "governance_delay") "\"\\u0067overnance_delay\"".toList := by
  have hzero : IsHexDigit 0 '0' := ⟨by decide, .inl rfl⟩
  have hsix : IsHexDigit 6 '6' := ⟨by decide, .inl rfl⟩
  have hseven : IsHexDigit 7 '7' := ⟨by decide, .inl rfl⟩
  exact .mk (.hex hzero hzero hsix hseven (inside_escape "overnance_delay".toList))
    (hasUnits_toNat "governance_delay".toList)

theorem numeral : Numeral "-1.5E3".toList := by
  have hdigit : ∀ d : Char, d.isDigit = true → Digits [d] := fun d hd =>
    ⟨List.cons_ne_nil d [], List.forall_mem_singleton.mpr hd⟩
  have hfraction : Fraction ['.', '5'] := .some (hdigit '5' rfl)
  have hexponent : Exponent ['E', '3'] := .unsigned (.inr rfl) (hdigit '3' rfl)
  exact .negative 1 hfraction hexponent

theorem text_written : (Json.object members).WrittenAs text := by
  show Laid
    [.openBrace, .str (some "governance_delay"), .colon, .nat 60, .comma, .str (some "note"), .colon,
      .openBracket, .openBrace, .str (some "governance_delay"), .colon, .numeral "-1.5E3".toList,
      .closeBrace, .comma, .str none, .closeBracket, .closeBrace]
    ("\x7b".toList ++ (" ".toList ++ ("\"\\u0067overnance_delay\"".toList ++ (" ".toList ++
      (":".toList ++ (" ".toList ++ ("60".toList ++ (",".toList ++ ("\n".toList ++
      ("\"note\"".toList ++ (":".toList ++ ("[".toList ++ ("\x7b".toList ++
      ("\"governance_delay\"".toList ++ (":".toList ++ ("-1.5E3".toList ++ ("\x7d".toList ++
      (",".toList ++ (" ".toList ++ ("\"\\ud800\"".toList ++ ("]".toList ++
      ("\x7d".toList ++ []))))))))))))))))))))))
  refine .next rfl (.cons (by decide) escapedName (.cons (by decide) rfl (.cons (by decide) rfl ?_)))
  refine .next rfl (.cons (by decide) (quotes_printLiteral _) (.next rfl (.next rfl ?_)))
  refine .next rfl (.next (quotes_printLiteral _) (.next rfl (.next ⟨rfl, numeral⟩ ?_)))
  refine .next rfl (.next rfl (.cons (by decide) (quotes_printLiteral _) ?_))
  exact .next rfl (.next rfl (.nil blanks_nil))

end

end AnnotatedSettings

open AnnotatedSettings in
/-- The text with the note sets the delay; a cap above its hard maximum is refused, and so is a delay
that stands twice. -/
theorem settings_read_from_any_text_annotated :
    GovernanceSettings.ofText text = .ok given.settings ∧
      GovernanceSettings.ofText (Json.object [("max_protocol_fee", .nat 50000001)]).print =
        .error (.capTooHigh .protocol ⟨50000001, by decide⟩ maxProtocolFee) ∧
      GovernanceSettings.ofText
        (Json.object [("governance_delay", .nat 60), ("governance_delay", .nat 60)]).print =
        .error .unreadable := by
  refine ⟨?_, ?_, ?_⟩
  · have hwithin : given.settings.Within := ⟨by decide, fun fee => by cases fee <;> decide⟩
    exact ((settings_read_from_any_text text_written).1 given members.tail (by decide) (.refl _)).1
      hwithin
  · have hplain : (Json.object [("max_protocol_fee", .nat 50000001)]).Plain :=
      Json.plain_object.mpr (by simp [Json.Plain.nat])
    have hnot : ¬ (GivenSettings.mk none none none (some ⟨50000001, by decide⟩)).settings.Within :=
      fun h => absurd (h.caps .protocol) (by decide)
    obtain ⟨e, _, hvalidate, hread⟩ :=
      ((settings_read_from_any_text hplain.writtenAs_print).1 _ [] (by simp) (.refl _)).2 hnot
    rw [hread]
    cases hvalidate
    rfl
  · have hplain : (Json.object [("governance_delay", .nat 60), ("governance_delay", .nat 60)]).Plain :=
      Json.plain_object.mpr (by simp [Json.Plain.nat])
    exact (settings_read_from_any_text hplain.writtenAs_print).2
      ⟨"governance_delay", by decide, by decide⟩

end ShareVault
