import ShareVault.Word

/-!
# A clock that is told the time

The time source of a vault that runs without the wall clock: it stands still until it is moved.
It may be moved backwards.
-/

namespace ShareVault

/-- A clock that moves only when it is told to. -/
structure Clock where
  now : Timestamp
deriving DecidableEq, Inhabited

/-- Moves a clock on by some seconds; past the last timestamp it begins again at zero. -/
def Clock.advance (c : Clock) (seconds : Timestamp) : Clock := ⟨c.now.addWrap seconds⟩

/-- Moves a clock to a time. -/
def Clock.set (_ : Clock) (time : Timestamp) : Clock := ⟨time⟩

end ShareVault
