import ShareVault.Json.Text
import ShareVault.SortedMap
import ShareVault.Word

/-!
# Typed JSON

How the values of a type are written as JSON and which JSON is read as one of them.

* `JsonCodec` — the two directions for a type, with instances for words, flags, texts, lists,
  options, maps and sets;
* `Json.slots?` — the fields of a record, from an object or from an array in field order;
* `Json.variant?` — the case of a tagged union and its content;
* `JsonCodec.write`, `JsonCodec.read?` — the same two directions on text.

A record object may hold members that name no field; they are skipped whatever they hold.  A
field that is named twice, or that is missing without a default, is refused.
-/

namespace ShareVault

/-- A way to write the values of a type as JSON, and to read them back. -/
class JsonCodec (α : Type) where
  toJson : α → Json
  /-- The value of a JSON tree, if it is the tree of one. -/
  ofJson? : Json → Option α

export JsonCodec (toJson)

namespace Json

/-! ### Records -/

/-- What a record's JSON says about one of its fields. -/
inductive Slot where
  | given (v : Json)
  /-- No member of the object names the field. -/
  | absent
  /-- The array ends before the field. -/
  | cut

def keyed? (m : Literal × Json) : Option (String × Json) := m.1.map fun k => (k, m.2)

/-- The field of this name among the members of an object. -/
def slotOf? (members : List (String × Json)) (name : String) : Option Slot :=
  match members.filter fun m => m.1 = name with
  | [] => some .absent
  | [m] => some (.given m.2)
  | _ :: _ :: _ => none

/-- The fields of a record with these names, in their order. -/
def slots? (names : List String) : Json → Option (List Slot)
  | .obj members => do
    let members ← members.mapM keyed?
    names.mapM (slotOf? members)
  | .arr items =>
    if items.length ≤ names.length then
      some (items.map .given ++ List.replicate (names.length - items.length) .cut)
    else none
  | _ => none

namespace Slot

variable {α : Type} [JsonCodec α]

/-- The value of a field that has to be there. -/
def required? : Slot → Option α
  | .given v => JsonCodec.ofJson? v
  | _ => none

/-- The value of a field that has a default. -/
def orDefault? (d : α) : Slot → Option α
  | .given v => JsonCodec.ofJson? v
  | _ => some d

/-- The value of a field that an object may leave out. -/
def optional? : Slot → Option (Option α)
  | .given .null => some none
  | .given v => (JsonCodec.ofJson? v).map some
  | .absent => some none
  | .cut => none

end Slot

/-! ### Tagged unions -/

/-- The name of a case and its content: a lone name has none, an object with one member has. -/
def variant? : Json → Option (String × Option Json)
  | .str (some name) => some (name, none)
  | .obj [(some name, content)] => some (name, some content)
  | _ => none

/-- Whether this is the content of a case that carries nothing. -/
def noContent : Option Json → Bool
  | none => true
  | some .null => true
  | _ => false

/-- A case with content. -/
def tagged (name : String) (content : Json) : Json := object [(name, content)]

end Json

/-! ### Instances -/

instance {w : Nat} : JsonCodec (Word w) where
  toJson a := .nat a.toNat
  ofJson?
    | .nat n => Word.ofNat? w n
    | _ => none

instance : JsonCodec Bool where
  toJson b := .bool b
  ofJson?
    | .bool b => some b
    | _ => none

instance : JsonCodec String where
  toJson s := .text s
  ofJson?
    | .str s => s
    | _ => none

instance {α : Type} [JsonCodec α] : JsonCodec (List α) where
  toJson l := .arr (l.map toJson)
  ofJson?
    | .arr items => items.mapM JsonCodec.ofJson?
    | _ => none

instance {α : Type} [JsonCodec α] : JsonCodec (Option α) where
  toJson
    | some a => toJson a
    | none => .null
  ofJson?
    | .null => some none
    | v => (JsonCodec.ofJson? v).map some

/-- A map from texts is an object; of a key that occurs twice the last value counts. -/
instance {α : Type} [JsonCodec α] : JsonCodec (SortedMap String α) where
  toJson m := .object (m.toList.map fun e => (e.1, toJson e.2))
  ofJson?
    | .obj members => do
      let entries ← members.mapM fun m => do
        let e ← Json.keyed? m
        let v ← JsonCodec.ofJson? e.2
        return (e.1, v)
      return SortedMap.ofList entries
    | _ => none

/-- A set is the array of its members, and an array is the set of its items. -/
instance {κ : Type} [Ord κ] [Std.TransOrd κ] [Std.LawfulEqOrd κ] [JsonCodec κ] :
    JsonCodec (SortedSet κ) where
  toJson s := .arr (s.toList.map toJson)
  ofJson?
    | .arr items => (items.mapM JsonCodec.ofJson?).map SortedSet.ofList
    | _ => none

namespace JsonCodec

variable {α : Type} [JsonCodec α]

/-- The compact JSON text of a value. -/
def write (a : α) : String := (toJson a).print

/-- The value of a JSON text. -/
def read? (α : Type) [JsonCodec α] (text : String) : Option α :=
  (Json.parse? text).bind ofJson?

end JsonCodec

end ShareVault
