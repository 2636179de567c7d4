import ShareVault.Proofs.Independence
import ShareVault.Proofs.Timelock

/-!
# Whether a value waits

A timelock keeps the value that waits and the time at which it is ready, and every operation that
succeeds writes both.  The ready time alone says whether a value waits: it is zero exactly if none
does.  However early the clock and however short the delay, no value is ready at time zero, and a sum
that is too late for the clock is cut at its last moment and does not start again from zero.

* `Timelocked.handle`, `Timelocked.afterSteps` — an operation that may fail, and some one after the
  other;
* `Timelocked.Handles`, `handles` — all that an operation can come to;
* `Timelocked.Marked`, `Handles.marked`, `marked_afterSteps` — the ready time says whether a value
  waits, from the start and after every operation;
* `ready_time_marks_waiting` — the result.
-/

namespace ShareVault

namespace Timelocked

variable {α : Type} {t t' : Timelocked α} {step : TimelockStep α} {now : Timestamp}
  {answer : Except TimelockError Unit}

/-- What a timelock answers to an operation, and what becomes of it. -/
def handle (t : Timelocked α) (step : TimelockStep α) :
    Except TimelockError Unit × Timelocked α :=
  Attempt.carry t (step.apply t)

/-- What becomes of a timelock after some operations, of which any may fail. -/
def afterSteps (t : Timelocked α) (steps : List (TimelockStep α)) : Timelocked α :=
  steps.foldl (fun t step => (t.handle step).2) t

/-! ### One operation -/

/-- All that an operation can come to. -/
inductive Handles (t : Timelocked α) :
    TimelockStep α → Except TimelockError Unit → Timelocked α → Prop where
  | stages (value : α) (now delay : Timestamp) :
      Handles t (.stage value now delay) (.ok ()) ⟨t.active, some value, readyTime now delay⟩
  | commits {now : Timestamp} {value : α} (waits : t.staged = some value)
      (ready : t.readyAt ≤ now) : Handles t (.commit now) (.ok ()) (.new value)
  | hurries {now : Timestamp} {value : α} (waits : t.staged = some value)
      (early : now < t.readyAt) : Handles t (.commit now) (.error (.tooEarly t.readyAt now)) t
  | idles {now : Timestamp} (idle : t.staged = none) :
      Handles t (.commit now) (.error .nothingStaged) t
  | drops : Handles t .rollback (.ok ()) (.new t.active)

theorem handles (t : Timelocked α) (step : TimelockStep α) :
    t.Handles step (t.handle step).1 (t.handle step).2 := by
  cases step with
  | stage value now delay => exact .stages value now delay
  | rollback => exact .drops
  | commit now =>
    unfold handle TimelockStep.apply commit
    cases hstaged : t.staged with
    | none => exact .idles hstaged
    | some value =>
      by_cases hearly : now < t.readyAt
      · simp only [hearly, if_true]
        exact .hurries hstaged hearly
      · simp only [hearly, if_false]
        exact .commits hstaged (Nat.not_lt.mp hearly)

/-- A commit succeeds exactly if a value waits and is ready. -/
theorem commit_ok_iff : (t.handle (.commit now)).1 = .ok () ↔
    t.isStaged = true ∧ t.readyAt ≤ now := by
  have hhandles := t.handles (.commit now)
  generalize (t.handle (.commit now)).1 = answer at hhandles
  generalize (t.handle (.commit now)).2 = t' at hhandles
  unfold isStaged
  cases hhandles with
  | commits waits ready => simp [waits, ready]
  | hurries waits early =>
    have hnot : ¬ t.readyAt ≤ now := Nat.not_le.mpr early
    simp [waits, hnot]
  | idles idle => simp [idle]

/-- A commit that succeeds puts the value in force that has waited. -/
theorem commit_puts_in_force {value : α} (h : (t.handle (.commit now)).1 = .ok ())
    (hwaits : t.staged = some value) : (t.handle (.commit now)).2 = .new value := by
  have hhandles := t.handles (.commit now)
  rw [h] at hhandles
  generalize (t.handle (.commit now)).2 = t' at hhandles
  cases hhandles with
  | commits waits ready =>
    rw [hwaits] at waits
    cases waits
    rfl

theorem commit_failed {e : TimelockError} (h : (t.handle (.commit now)).1 = .error e) :
    (t.handle (.commit now)).2 = t := by
  have hhandles := t.handles (.commit now)
  rw [h] at hhandles
  generalize (t.handle (.commit now)).2 = t' at hhandles
  cases hhandles with
  | hurries waits early => rfl
  | idles idle => rfl

/-! ### Every run -/

/-- The ready time says whether a value waits. -/
def Marked (t : Timelocked α) : Prop := t.isStaged = true ↔ t.readyAt ≠ 0

theorem marked_new (initial : α) : (new initial).Marked := by
  simp [Marked, new, isStaged]

/-- No value is ready at time zero. -/
theorem readyTime_ne_zero (now delay : Timestamp) : readyTime now delay ≠ 0 := by
  intro hzero
  have hready := toNat_readyTime now delay
  rw [hzero, Word.toNat_zero] at hready
  omega

/-- Every operation writes a value and a time to wait for, or neither. -/
theorem Handles.marked (h : t.Handles step answer t') (ht : t.Marked) : t'.Marked := by
  cases h with
  | stages value now delay => simp [Marked, isStaged, readyTime_ne_zero]
  | commits waits ready => exact marked_new _
  | hurries waits early => exact ht
  | idles idle => exact ht
  | drops => exact marked_new _

/-- By induction on the operations. -/
theorem marked_afterSteps (ht : t.Marked) (steps : List (TimelockStep α)) :
    (t.afterSteps steps).Marked := by
  induction steps generalizing t with
  | nil => exact ht
  | cons step rest ih => exact ih ((t.handles step).marked ht)

end Timelocked

/-! ### The result -/

open Timelocked in
/-- After any operations on a timelock, at whatever times and with whatever delays, a value waits
exactly if the ready time is not zero.  A stage always succeeds and leaves the value in force as it
is; a commit succeeds exactly if a value waits and its ready time has come, and else it leaves the
value in force, the value that waits and its ready time as they are; a rollback leaves the value in
force as it is. -/
theorem ready_time_marks_waiting {α : Type} (initial : α) (steps : List (TimelockStep α)) :
    let t := (new initial).afterSteps steps
    (t.isStaged = true ↔ t.readyAt ≠ 0) ∧
      (∀ value now delay, ∃ readyAt : Timestamp,
        t.handle (.stage value now delay) = (.ok (), ⟨t.active, some value, readyAt⟩) ∧
          readyAt.toNat = max 1 (min (now.toNat + delay.toNat) (Word.largest 64).toNat)) ∧
      (∀ now, (t.handle (.commit now)).1 = .ok () ↔ t.isStaged = true ∧ t.readyAt ≤ now) ∧
      (∀ now value, (t.handle (.commit now)).1 = .ok () → t.staged = some value →
        (t.handle (.commit now)).2 = ⟨value, none, 0⟩) ∧
      (∀ now e, (t.handle (.commit now)).1 = .error e → (t.handle (.commit now)).2 = t) ∧
      t.handle .rollback = (.ok (), ⟨t.active, none, 0⟩) := by
  intro t
  refine ⟨marked_afterSteps (marked_new initial) steps, ?_, ?_, ?_, ?_, rfl⟩
  · intro value now delay
    exact ⟨readyTime now delay, rfl, toNat_readyTime now delay⟩
  · intro now
    exact commit_ok_iff
  · intro now value hok hwaits
    exact commit_puts_in_force hok hwaits
  · intro now e hfails
    exact commit_failed hfails

open Timelocked in
/-- A delay that is too long for the clock ends at the last moment: one second before it a commit
fails and the value goes on waiting, at that moment the commit succeeds. -/
theorem ready_time_marks_waiting_at_the_end :
    let t := (new 7).afterSteps [.stage 8 (.largest 64) (.largest 64)]
    t.isStaged = true ∧ t.readyAt = .largest 64 ∧
      (t.handle (.commit (.saturate 64 18446744073709551614))).2 = t ∧
      t.handle (.commit (.largest 64)) = (.ok (), ⟨8, none, 0⟩) := by
  intro t
  obtain ⟨hmarked, _, hready, hforce, hfails, _⟩ :=
    ready_time_marks_waiting 7 [.stage 8 (.largest 64) (.largest 64)]
  have hlate : t.readyAt = .largest 64 := by decide
  have hwaits : t.isStaged = true := hmarked.mpr (by decide)
  have hok : (t.handle (.commit (.largest 64))).1 = .ok () :=
    (hready _).mpr ⟨hwaits, Nat.le_refl _⟩
  have hearly : (t.handle (.commit (.saturate 64 18446744073709551614))).1 =
      .error (.tooEarly t.readyAt (.saturate 64 18446744073709551614)) := by decide
  exact ⟨hwaits, hlate, hfails _ _ hearly, Prod.ext hok (hforce _ 8 hok rfl)⟩

/-- At time zero and without a delay a value has to wait all the same, until time one. -/
example : ((Timelocked.new 7).afterSteps [.stage 8 0 0, .commit 0]) =
    ⟨7, some 8, .saturate 64 1⟩ := by
  decide

end ShareVault
