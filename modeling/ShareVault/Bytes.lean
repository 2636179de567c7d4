import ShareVault.Radix
import ShareVault.SortedMap
import ShareVault.Word

/-!
# Values as bytes

The stored form of a value, with nothing between its parts: an integer takes as many bytes as its
type has, the lowest first; a flag takes one; an option starts with one byte that says whether a
value follows; a text, a list, a map or a set starts with its length in eight bytes; a case of a
union starts with its number in four.

* `ByteCodec` — the two directions for a type, and which values have a stored form at all;
* `ByteReader` — a reader of bytes, which leaves what it does not need.

A reader refuses bytes that end too early, a flag or an option tag other than zero and one, and
text that is not UTF-8.  It takes the entries of a map in any order; of several for one key the
last counts.
-/

namespace ShareVault

abbrev Bytes := List UInt8

/-- Reads a value from the front of a byte string, and leaves the rest. -/
abbrev ByteReader := StateT Bytes Option

/-- A way to store the values of a type, and to read them back. -/
class ByteCodec (α : Type) where
  /-- The stored form of a value. -/
  encode : α → Bytes
  /-- A value from the front of a byte string. -/
  decode : ByteReader α
  /-- Whether every length in the value has a place in its eight bytes. -/
  fits : α → Bool

namespace ByteCodec

def take (n : Nat) : ByteReader Bytes := fun bs =>
  if n ≤ bs.length then some (bs.take n, bs.drop n) else none

/-- A number in this many bytes, the lowest first. -/
def encodeNat (size n : Nat) : Bytes := (Radix.digits 256 size n).map UInt8.ofNat

/-- A number from this many bytes. -/
def decodeNat (size : Nat) : ByteReader Nat := do
  let bs ← take size
  return Radix.value 256 (bs.map UInt8.toNat)

def encodeCase (n : Nat) : Bytes := encodeNat 4 n

def decodeCase : ByteReader Nat := decodeNat 4

def encodeLength (n : Nat) : Bytes := encodeNat 8 n

def decodeLength : ByteReader Nat := decodeNat 8

/-- Whether a length has a place in eight bytes. -/
def lengthFits (n : Nat) : Bool := (Word.ofNat? 64 n).isSome

/-- This many values, one after another. -/
def decodeMany {α : Type} (item : ByteReader α) : Nat → ByteReader (List α)
  | 0 => pure []
  | n + 1 => do
    let a ← item
    let rest ← decodeMany item n
    return a :: rest

/-- Values with their number in front. -/
def encodeList {α : Type} [ByteCodec α] (l : List α) : Bytes :=
  encodeLength l.length ++ l.flatMap encode

/-- Values with their number in front. -/
def decodeList (α : Type) [ByteCodec α] : ByteReader (List α) := do
  decodeMany decode (← decodeLength)

/-- The value that a whole byte string starts with; what follows it is of no interest. -/
def read? (α : Type) [ByteCodec α] (bs : Bytes) : Option α :=
  (decode.run bs).map (·.1)

end ByteCodec

open ByteCodec

/-! ### Instances -/

instance {w : Nat} : ByteCodec (Word w) where
  encode a := encodeNat (w / 8) a.toNat
  decode := do Word.ofNat? w (← decodeNat (w / 8))
  fits _ := true

instance : ByteCodec Bool where
  encode b := [if b then 1 else 0]
  decode := do
    match ← take 1 with
    | [0] => return false
    | [1] => return true
    | _ => failure
  fits _ := true

instance : ByteCodec String where
  encode s := encodeLength s.utf8ByteSize ++ s.toByteArray.data.toList
  decode := do
    let bs ← take (← decodeLength)
    String.fromUTF8? ⟨bs.toArray⟩
  fits s := lengthFits s.utf8ByteSize

instance {α : Type} [ByteCodec α] : ByteCodec (Option α) where
  encode
    | none => [0]
    | some a => 1 :: encode a
  decode := do
    match ← take 1 with
    | [0] => return none
    | [1] => return some (← decode)
    | _ => failure
  fits
    | none => true
    | some a => fits a

instance {α β : Type} [ByteCodec α] [ByteCodec β] : ByteCodec (α × β) where
  encode p := encode p.1 ++ encode p.2
  decode := do
    let a ← decode
    let b ← decode
    return (a, b)
  fits p := fits p.1 && fits p.2

instance {α : Type} [ByteCodec α] : ByteCodec (List α) where
  encode := encodeList
  decode := decodeList α
  fits l := lengthFits l.length && l.all fits

instance {κ α : Type} [Ord κ] [Std.TransOrd κ] [Std.LawfulEqOrd κ] [ByteCodec κ] [ByteCodec α] :
    ByteCodec (SortedMap κ α) where
  encode m := encodeList m.toList
  decode := return SortedMap.ofList (← decodeList (κ × α))
  fits m := fits m.toList

instance {κ : Type} [Ord κ] [Std.TransOrd κ] [Std.LawfulEqOrd κ] [ByteCodec κ] :
    ByteCodec (SortedSet κ) where
  encode s := encodeList s.toList
  decode := return SortedSet.ofList (← decodeList κ)
  fits s := fits s.toList

end ShareVault
