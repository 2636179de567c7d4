import ShareVault.Config
import ShareVault.Governance
import ShareVault.Ledger
import ShareVault.Uuid

/-!
# The store of vault records

A vault's record has three parts, its setup, its ledger and its governance, each kept as bytes in
a tree of its own under the sixteen bytes of the vault's identifier.  The three parts are written
and removed together.

* `VaultStore.put`, `get`, `remove`, `ids` — whole records;
* `VaultStore.setRaw`, `eraseRaw` — the bytes of one part, as damage or another program would
  change them;
* `StorageError` — why a record cannot be written or read.
-/

namespace ShareVault

/-- Why a record cannot be written or read. -/
inductive StorageError where
  /-- The bytes are not those of a value, or the value has none. -/
  | serialization
  | notFound (id : Uuid)
  /-- Some parts of the record are missing. -/
  | incomplete (id : Uuid)
  /-- The parts could not be written together. -/
  | aborted
deriving DecidableEq

def StorageError.message : StorageError → String
  | .serialization => "serialization error: "
  | .notFound id => s!"vault {id} not found"
  | .incomplete id => s!"incomplete record for vault {id}"
  | .aborted => "transaction aborted"

/-- What is kept of a vault.  The store does not look into the governance, so it may be of any type
whose values have a stored form. -/
structure VaultRecord (γ : Type := VaultGovernance) where
  config : VaultConfig
  ledger : ShareLedger
  governance : γ
deriving DecidableEq

/-- A tree of the store: bytes under bytes. -/
abbrev Tree := SortedMap Bytes Bytes

inductive Part where
  | configs | ledgers | governance
deriving DecidableEq, Repr

structure VaultStore where
  configs : Tree
  ledgers : Tree
  governance : Tree
deriving DecidableEq

namespace VaultStore

def empty : VaultStore := ⟨∅, ∅, ∅⟩

/-! ### Single parts -/

def tree (s : VaultStore) : Part → Tree
  | .configs => s.configs
  | .ledgers => s.ledgers
  | .governance => s.governance

/-- The store with another tree for a part. -/
def setTree (s : VaultStore) : Part → Tree → VaultStore
  | .configs, t => { s with configs := t }
  | .ledgers, t => { s with ledgers := t }
  | .governance, t => { s with governance := t }

def raw? (s : VaultStore) (part : Part) (key : Bytes) : Option Bytes := (s.tree part).get? key

def setRaw (s : VaultStore) (part : Part) (key value : Bytes) : VaultStore :=
  s.setTree part ((s.tree part).insert key value)

/-- Removes the bytes under a key. -/
def eraseRaw (s : VaultStore) (part : Part) (key : Bytes) : VaultStore :=
  s.setTree part ((s.tree part).erase key)

/-! ### Whole records -/

/-- The bytes of a value, if all its lengths have a place in them. -/
def bytesOf {α : Type} [ByteCodec α] (a : α) : Except StorageError Bytes :=
  if ByteCodec.fits a then .ok (ByteCodec.encode a) else .error .serialization

def valueOf (α : Type) [ByteCodec α] (bs : Bytes) : Except StorageError α :=
  match ByteCodec.read? α bs with
  | some a => .ok a
  | none => .error .serialization

/-- Writes a record in place of any other of that vault. -/
def put {γ : Type} [ByteCodec γ] (s : VaultStore) (id : Uuid) (record : VaultRecord γ) :
    Except StorageError VaultStore := do
  let config ← bytesOf record.config
  let ledger ← bytesOf record.ledger
  let governance ← bytesOf record.governance
  return {
    configs := s.configs.insert id.bytes config
    ledgers := s.ledgers.insert id.bytes ledger
    governance := s.governance.insert id.bytes governance }

/-- The record of a vault, if there is one, with its governance read as a value of a type. -/
def get (s : VaultStore) (id : Uuid) (γ : Type := VaultGovernance) [ByteCodec γ] :
    Except StorageError (Option (VaultRecord γ)) :=
  match s.configs.get? id.bytes, s.ledgers.get? id.bytes, s.governance.get? id.bytes with
  | none, none, none => .ok none
  | some config, some ledger, some governance => do
    let config ← valueOf VaultConfig config
    let ledger ← valueOf ShareLedger ledger
    let governance ← valueOf γ governance
    return some ⟨config, ledger, governance⟩
  | _, _, _ => .error (.incomplete id)

/-- Whether a vault has a setup. -/
def contains (s : VaultStore) (id : Uuid) : Bool := s.configs.contains id.bytes

/-- The store without the record of a vault. -/
def remove (s : VaultStore) (id : Uuid) : VaultStore where
  configs := s.configs.erase id.bytes
  ledgers := s.ledgers.erase id.bytes
  governance := s.governance.erase id.bytes

/-- The identifier that a key is the bytes of. -/
def idOf (key : Bytes) : Except StorageError Uuid :=
  match Uuid.ofBytes? key with
  | some id => .ok id
  | none => .error .serialization

/-- The vaults with a setup, in the order of their bytes. -/
def ids (s : VaultStore) : Except StorageError (List Uuid) := s.configs.keys.mapM idOf

end VaultStore

end ShareVault
