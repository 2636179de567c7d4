import ShareVault.Json.Codec
import ShareVault.Proofs.JsonText

/-!
# Reading the value that was written

The JSON of a value is read back as the value if the JSON of each part is, since a record finds each
of its fields under a name that no other field has.

* `LawfulJsonCodec` — types whose values are read back from their trees;
* `JsonCodec.RoundTrips`, `LawfulJsonCodec.roundTrips` — and so from their texts;
* `NeverNull` — types that leave `null` to an option of theirs;
* `plain_object`, `slots?_object`, `read_record`, `required?_given` and its like — the fields of a
  record;
* `read_tagged`, `read_content` — the cases of a union;
* instances for words, flags, texts, lists, options, maps and sets.
-/

namespace ShareVault

/-- The tree of a value is read as the value, and can be printed. -/
class LawfulJsonCodec (α : Type) [JsonCodec α] : Prop where
  ofJson?_toJson : ∀ a : α, JsonCodec.ofJson? (toJson a) = some a
  plain : ∀ a : α, (toJson a).Plain

attribute [simp] LawfulJsonCodec.ofJson?_toJson LawfulJsonCodec.plain

open LawfulJsonCodec

/-- The compact JSON text of a value is read as the value. -/
def JsonCodec.RoundTrips (α : Type) [JsonCodec α] : Prop := ∀ a : α, read? α (write a) = some a

theorem LawfulJsonCodec.roundTrips (α : Type) [JsonCodec α] [LawfulJsonCodec α] :
    JsonCodec.RoundTrips α := by
  intro a
  unfold JsonCodec.read? JsonCodec.write
  rw [Json.parse?_print (plain a)]
  exact ofJson?_toJson a

/-- No value is written as `null`. -/
class NeverNull (α : Type) [JsonCodec α] : Prop where
  toJson_ne_null : ∀ a : α, toJson a ≠ .null

open NeverNull

variable {α β γ κ : Type}

/-- If every image is read as something, a list of images is read item by item. -/
theorem mapM_map_of_forall {f : α → β} {g : β → Option γ} {h : α → γ} {l : List α}
    (hg : ∀ a ∈ l, g (f a) = some (h a)) : (l.map f).mapM g = some (l.map h) := by
  induction l with
  | nil => rfl
  | cons a tail ih =>
    have htail := ih fun b hb => hg b (List.mem_cons_of_mem _ hb)
    rw [List.map_cons, List.mapM_cons, hg a List.mem_cons_self, htail]
    rfl

/-! ### Records -/

namespace Json

variable {members : List (String × Json)} {names : List String}

theorem plain_object : (object members).Plain ↔ ∀ m ∈ members, m.2.Plain := by
  constructor
  · intro h m hm
    cases h with
    | obj h => exact h (some m.1, m.2) (List.mem_map_of_mem hm)
  · intro h
    refine .obj fun member hmember => ?_
    obtain ⟨m, hm, rfl⟩ := List.mem_map.mp hmember
    exact h m hm

theorem plain_tagged {name : String} {content : Json} :
    (tagged name content).Plain ↔ content.Plain := by
  simp [tagged, plain_object]

theorem mapM_keyed? : (members.map fun m => (some m.1, m.2)).mapM keyed? = some members := by
  rw [mapM_map_of_forall (g := keyed?) (h := id) fun _ _ => rfl, List.map_id]

/-- The members of this name are one, if no two members have the same name. -/
theorem filter_name_of_mem {m : String × Json} (hm : m ∈ members)
    (h : (members.map (·.1)).Nodup) : members.filter (fun m' => m'.1 = m.1) = [m] := by
  induction members with
  | nil => cases hm
  | cons m' tail ih =>
    obtain ⟨hnot, htail⟩ := List.nodup_cons.mp h
    have hfirst : ∀ m ∈ tail, m'.1 ≠ m.1 := fun m hm hname =>
      hnot (List.mem_map.mpr ⟨m, hm, hname.symm⟩)
    rcases List.mem_cons.mp hm with rfl | hm
    · have hnone : tail.filter (fun m' => m'.1 = m.1) = [] := by
        rw [List.filter_eq_nil_iff]
        intro m' hm' hname
        exact hfirst m' hm' (of_decide_eq_true hname).symm
      rw [List.filter_cons_of_pos (by simp), hnone]
    · rw [List.filter_cons_of_neg (by simp [hfirst m hm]), ih hm htail]

/-- A field is found under its name if no other field has it. -/
theorem slotOf?_of_mem {m : String × Json} (hm : m ∈ members) (h : (members.map (·.1)).Nodup) :
    slotOf? members m.1 = some (.given m.2) := by
  unfold slotOf?
  rw [filter_name_of_mem hm h]

/-- The object of a record has all fields, in their order. -/
theorem slots?_object (hnames : members.map (·.1) = names) (h : names.Nodup) :
    (object members).slots? names = some (members.map fun m => .given m.2) := by
  subst hnames
  show ((members.map fun m => (some m.1, m.2)).mapM keyed?).bind _ = _
  rw [mapM_keyed?]
  exact mapM_map_of_forall fun m hm => slotOf?_of_mem hm h

/-- What is made of the fields of a record is made of its object. -/
theorem read_record {f : List Slot → Option α} {a : α} (hnames : members.map (·.1) = names)
    (hnodup : names.Nodup) (hfields : f (members.map fun m => .given m.2) = some a) :
    ((object members).slots? names >>= f) = some a := by
  rw [slots?_object hnames hnodup]
  exact hfields

/-- What is made of a case and its content is made of the tagged content. -/
theorem read_tagged {name : String} {content : Json} {f : String × Option Json → Option α} {a : α}
    (hcase : f (name, some content) = some a) : ((tagged name content).variant? >>= f) = some a :=
  hcase

/-- The case of a value is made of the value. -/
theorem read_content [JsonCodec α] [LawfulJsonCodec α] (f : α → β) (a : α) :
    (JsonCodec.ofJson? (toJson a) >>= fun a => some (f a)) = some (f a) := by
  rw [ofJson?_toJson]
  rfl

namespace Slot

variable [JsonCodec α] [LawfulJsonCodec α] (a : α)

@[simp] theorem required?_given : (given (toJson a)).required? = some a :=
  ofJson?_toJson a

@[simp] theorem orDefault?_given (d : α) : (given (toJson a)).orDefault? d = some a :=
  ofJson?_toJson a

end Slot

end Json

/-! ### Instances -/

instance {w : Nat} : LawfulJsonCodec (Word w) where
  ofJson?_toJson a := Word.ofNat?_toNat a
  plain a := .nat a.toNat

instance : LawfulJsonCodec Bool where
  ofJson?_toJson _ := rfl
  plain b := .bool b

instance : LawfulJsonCodec String where
  ofJson?_toJson _ := rfl
  plain s := .str s

instance {w : Nat} : NeverNull (Word w) where
  toJson_ne_null := by
    rintro a ⟨⟩

instance : NeverNull String where
  toJson_ne_null := by
    rintro s ⟨⟩

variable [JsonCodec α] [LawfulJsonCodec α]

theorem mapM_ofJson? (l : List α) : (l.map toJson).mapM JsonCodec.ofJson? = some l := by
  rw [mapM_map_of_forall (h := id) fun a _ => ofJson?_toJson a, List.map_id]

theorem plain_arr (l : List α) : (Json.arr (l.map toJson)).Plain := by
  refine .arr fun v hv => ?_
  obtain ⟨a, _, rfl⟩ := List.mem_map.mp hv
  exact plain a

instance : LawfulJsonCodec (List α) where
  ofJson?_toJson := mapM_ofJson?
  plain := plain_arr

omit [LawfulJsonCodec α] in
/-- A value in an option is no `null`, so it is read as a value. -/
theorem ofJson?_option {v : Json} (h : v ≠ .null) :
    (JsonCodec.ofJson? v : Option (Option α)) = (JsonCodec.ofJson? v).map some := by
  cases v with
  | null => exact (h rfl).elim
  | _ => rfl

instance [NeverNull α] : LawfulJsonCodec (Option α) where
  ofJson?_toJson o := by
    cases o with
    | none => rfl
    | some a =>
      show JsonCodec.ofJson? (toJson a) = _
      rw [ofJson?_option (toJson_ne_null a), ofJson?_toJson a]
      rfl
  plain o := by
    cases o with
    | none => exact .null
    | some a => exact plain a

/-- A field that may be left out is read as an option. -/
@[simp] theorem Json.Slot.optional?_given [NeverNull α] (o : Option α) :
    (Json.Slot.given (toJson o)).optional? = some o := by
  have hread := ofJson?_toJson o
  generalize toJson o = v at hread ⊢
  cases v <;> exact hread

instance : LawfulJsonCodec (SortedMap String α) where
  ofJson?_toJson m := by
    have hentries : ((m.toList.map fun e => (e.1, toJson e.2)).map
        fun e => ((some e.1 : Json.Literal), e.2)).mapM
        (fun m => do
          let e ← Json.keyed? m
          let v ← (JsonCodec.ofJson? e.2 : Option α)
          return (e.1, v)) = some m.toList := by
      rw [List.map_map, mapM_map_of_forall (h := id) fun e _ => by simp [Json.keyed?], List.map_id]
    show (List.mapM _ _ >>= fun entries => some (SortedMap.ofList entries)) = _
    rw [hentries]
    exact congrArg some (SortedMap.ofList_toList m)
  plain m := by
    refine Json.plain_object.mpr fun member hmember => ?_
    obtain ⟨e, _, rfl⟩ := List.mem_map.mp hmember
    exact plain e.2

instance [Ord κ] [Std.TransOrd κ] [Std.LawfulEqOrd κ] [JsonCodec κ] [LawfulJsonCodec κ] :
    LawfulJsonCodec (SortedSet κ) where
  ofJson?_toJson s := by
    show ((s.toList.map toJson).mapM JsonCodec.ofJson?).map SortedSet.ofList = _
    rw [mapM_ofJson?, Option.map_some, SortedSet.ofList_toList]
  plain s := plain_arr s.toList

end ShareVault
