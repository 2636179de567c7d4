import ShareVault.Bytes
import ShareVault.Json.Codec

/-!
# Vault identifiers

A `Uuid` is sixteen bytes, written in hexadecimal with hyphens after the fourth, sixth, eighth and
tenth byte.

* `Uuid.bytes`, `Uuid.ofBytes?` — the bytes, the highest first;
* `Uuid.text` — the lower-case text with hyphens;
* `Uuid.parse?` — that text in any case, also without hyphens, in braces, or as a `urn`.
-/

namespace ShareVault

structure Uuid where
  /-- The sixteen bytes as one number, the first byte the highest. -/
  word : Word 128
deriving DecidableEq, Inhabited

namespace Uuid

/-- The bytes in order. -/
def bytes (id : Uuid) : Bytes :=
  (Radix.digits 256 16 id.word.toNat).reverse.map UInt8.ofNat

def ofBytes? (bs : Bytes) : Option Uuid :=
  if bs.length = 16 then
    (Word.ofNat? 128 (Radix.value 256 (bs.reverse.map UInt8.toNat))).map Uuid.mk
  else none

/-! ### Text -/

/-- The sizes of the groups between the hyphens. -/
def groups : List Nat := [8, 4, 4, 4, 12]

/-- The hexadecimal digits in order. -/
def hexDigits (id : Uuid) : List Char :=
  (Radix.digits 16 32 id.word.toNat).reverse.map Radix.hexDigit

def text (id : Uuid) : String :=
  let ds := id.hexDigits
  let group (start size : Nat) : List Char := (ds.drop start).take size
  String.ofList (group 0 8 ++ '-' :: group 8 4 ++ '-' :: group 12 4 ++ '-' :: group 16 4 ++
    '-' :: group 20 12)

instance : ToString Uuid := ⟨text⟩

/-- The identifier of thirty-two hexadecimal digits. -/
def ofHexDigits? (cs : List Char) : Option Uuid := do
  let ds ← cs.mapM Radix.hexValue?
  if ds.length = 32 then
    (Word.ofNat? 128 (Radix.value 16 ds.reverse)).map Uuid.mk
  else none

/-- The digits of groups of these sizes with a hyphen between any two. -/
def ungroup? : List Nat → List Char → Option (List Char)
  | [], _ => none
  | [n], cs => if cs.length = n then some cs else none
  | n :: ns, cs =>
    match cs.drop n with
    | '-' :: rest => (ungroup? ns rest).map (cs.take n ++ ·)
    | _ => none

/-- The identifier of a text with hyphens. -/
def ofHyphenated? (cs : List Char) : Option Uuid :=
  (ungroup? groups cs).bind ofHexDigits?

/-- A text without its braces, if it is in braces. -/
def unbrace? : List Char → Option (List Char)
  | '\x7b' :: rest => if rest.getLast? = some '\x7d' then some rest.dropLast else none
  | _ => none

/-- A text without its `urn:uuid:`, if it starts with that. -/
def unurn? : List Char → Option (List Char)
  | 'u' :: 'r' :: 'n' :: ':' :: 'u' :: 'u' :: 'i' :: 'd' :: ':' :: rest => some rest
  | _ => none

/-- The identifier of a text in any of its forms. -/
def parse? (s : String) : Option Uuid :=
  let cs := s.toList
  match unbrace? cs, unurn? cs with
  | some inner, _ => ofHyphenated? inner
  | none, some rest => ofHyphenated? rest
  | none, none => if cs.length = 32 then ofHexDigits? cs else ofHyphenated? cs

end Uuid

instance : JsonCodec Uuid where
  toJson id := .text id.text
  ofJson?
    | .str (some s) => Uuid.parse? s
    | _ => none

end ShareVault
