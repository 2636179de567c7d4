import ShareVault.Bytes
import ShareVault.Json.Codec

/-!
# Timelocks

A `Timelocked` value changes in two steps.  A new value is staged and waits; once its ready time
has come it can be committed and takes effect.  Until then it can be rolled back, and staging
again replaces it and starts the wait afresh.  Nothing else changes the active value.

* `Timelocked.stage`, `commit`, `rollback` — the steps;
* `TimelockError` — the two ways a commit is refused.
-/

namespace ShareVault

inductive TimelockError where
  /-- The staged value has to wait longer. -/
  | tooEarly (readyAt now : Timestamp)
  /-- No value is staged. -/
  | nothingStaged
deriving DecidableEq

def TimelockError.message : TimelockError → String
  | .tooEarly readyAt now =>
    s!"too early: staged value becomes committable at {readyAt}, now is {now}"
  | .nothingStaged => "nothing staged"

/-- A value that changes only after a delay. -/
structure Timelocked (α : Type) where
  active : α
  /-- The value that waits to come into force. -/
  staged : Option α
  /-- The earliest time it can, zero when none waits. -/
  readyAt : Timestamp
deriving DecidableEq

namespace Timelocked

variable {α : Type}

/-- A value in force, with none waiting. -/
def new (initial : α) : Timelocked α := ⟨initial, none, 0⟩

def isStaged (t : Timelocked α) : Bool := t.staged.isSome

/-- The earliest moment at which a value staged now can be committed: after the delay, and never
at time zero, which stands for "none waits". -/
def readyTime (now delay : Timestamp) : Timestamp :=
  max ⟨1, by decide⟩ (now.addSat delay)

/-- Stages a value in place of any other. -/
def stage (t : Timelocked α) (value : α) (now delay : Timestamp) : Timelocked α :=
  { t with staged := some value, readyAt := readyTime now delay }

/-- Puts the staged value in force. -/
def commit (t : Timelocked α) (now : Timestamp) : Except TimelockError (Timelocked α) :=
  match t.staged with
  | none => .error .nothingStaged
  | some value =>
    if now < t.readyAt then .error (.tooEarly t.readyAt now)
    else .ok (new value)

/-- Drops the staged value. -/
def rollback (t : Timelocked α) : Timelocked α := new t.active

end Timelocked

instance {α : Type} [JsonCodec α] : JsonCodec (Timelocked α) where
  toJson t := .object
    [("active", toJson t.active), ("staged", toJson t.staged),
      ("staged_ready_at", toJson t.readyAt)]
  ofJson? v := do
    let [active, staged, readyAt] ← v.slots? ["active", "staged", "staged_ready_at"] | none
    return ⟨← active.required?, ← staged.optional?, ← readyAt.required?⟩

instance {α : Type} [ByteCodec α] : ByteCodec (Timelocked α) where
  encode t := ByteCodec.encode t.active ++ ByteCodec.encode t.staged ++ ByteCodec.encode t.readyAt
  decode := do
    let active ← ByteCodec.decode
    let staged ← ByteCodec.decode
    let readyAt ← ByteCodec.decode
    return ⟨active, staged, readyAt⟩
  fits t := ByteCodec.fits t.active && ByteCodec.fits t.staged

end ShareVault
