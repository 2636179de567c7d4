import ShareVault.Proofs.Lockstep

/-!
# The calls that outside code makes

The same collaborators beside a journal, in which every call that they make is written down with the
worlds before and after it.  Nothing reads the journal, so a run beside one is the run without it.

* `NestedCall`, `Journal` — a call of outside code, and all of them in order;
* `Script.journaled`, `Host.journaled`, `Performer.journaled` — a journal is kept;
* `World.erase` — the world without the journal;
* `journal` — the calls that outside code makes during a call on the vault;
* `perform_journaled` — a call beside a journal is the call.
-/

namespace ShareVault

variable {σ A α : Type}

/-- A call that outside code has made, with the world before it, its outcome and the world after. -/
structure NestedCall (σ A : Type) where
  call : Call A
  before : World σ A
  outcome : Outcome
  after : World σ A

/-- Calls of outside code, the first one first. -/
abbrev Journal (σ A : Type) := List (NestedCall σ A)

namespace World

/-- A world beside a journal. -/
def beside (w : World σ A) (written : Journal σ A) : World (σ × Journal σ A) A :=
  ⟨w.vault, w.store, (w.host, written)⟩

/-- The world without the journal. -/
def erase (w : World (σ × Journal σ A) A) : World σ A := ⟨w.vault, w.store, w.host.1⟩

end World

/-! ### Keeping a journal -/

/-- A script that is played beside a journal. -/
def Script.journaled : Script σ A α → Journal σ A → Script (σ × Journal σ A) A α
  | .answer a host, written => .answer a (host, written)
  | .call c host resume, written =>
    .call c (host, written) fun outcome s => (resume outcome s.1).journaled s.2

/-- Performs a call and writes it down. -/
def Performer.journaled (perform : Performer σ A) : Performer (σ × Journal σ A) A := fun c w =>
  let result := perform c w.erase
  (result.1, result.2.beside (w.host.2 ++ [⟨c, w.erase, result.1, result.2⟩]))

/-- The collaborators beside a journal. -/
def Host.journaled (host : Host σ A) : Host (σ × Journal σ A) A where
  now s := host.now s.1
  reference := host.reference
  holdings s := (host.holdings s.1).journaled s.2
  tvl adapter holdings s := (host.tvl adapter holdings s.1).journaled s.2
  convert adapter amounts s := (host.convert adapter amounts s.1).journaled s.2
  pull account amounts s := (host.pull account amounts s.1).journaled s.2
  release account amounts s := (host.release account amounts s.1).journaled s.2

/-- Performs a call beside a journal. -/
def performJournaled (host : Host σ A) : Performer (σ × Journal σ A) A :=
  performWith host.nested.journaled host.journaled

/-- The calls that outside code makes while a call on the vault is in progress. -/
def journal (host : Host σ A) (c : Call A) (w : World σ A) : Journal σ A :=
  (performJournaled host c (w.beside [])).2.host.2

/-! ### Erasing it -/

/-- A script beside a journal comes to what it comes to without.  By induction on the script, call
after call. -/
theorem Script.run_journaled (perform : Performer σ A) (script : Script σ A α)
    (written : Journal σ A) (vault : Vault A) (store : VaultStore) :
    ((script.journaled written).run perform.journaled vault store).1 =
        (script.run perform vault store).1 ∧
      ((script.journaled written).run perform.journaled vault store).2.erase =
        (script.run perform vault store).2 := by
  induction script generalizing written vault store with
  | answer a host => exact ⟨rfl, rfl⟩
  | call c host resume ih => exact ih _ _ _ _ _

variable {host : Host σ A} {w : World σ A} {c : Call A}

namespace Operation

/-- The second world is the first one without the journal. -/
def Erases (x : World (σ × Journal σ A) A) (y : World σ A) : Prop := x.erase = y

theorem consult_journaled (perform : Performer σ A) (script : σ → Script σ A α) :
    Lockstep Erases Erases (consult perform.journaled fun s => (script s.1).journaled s.2)
      (consult perform script) := by
  rintro x _ rfl
  obtain ⟨hanswer, hworld⟩ :=
    (script x.host.1).run_journaled perform x.host.2 x.vault x.store
  unfold consult
  dsimp only
  rw [hanswer]
  exact .ok hworld

theorem inStep_journaled (host : Host σ A) :
    InStep (fun _ => True) Erases host.nested.journaled host.journaled host.nested host where
  now := by
    rintro x _ rfl
    rfl
  config := by
    rintro x _ rfl
    rfl
  holdings := consult_journaled _ _
  tvl _ _ _ := consult_journaled _ _
  convert _ _ _ := consult_journaled _ _
  pull _ _ := consult_journaled _ _
  release _ _ := consult_journaled _ _

theorem closes_erases :
    Closes (Erases : World (σ × Journal σ A) A → World σ A → Prop) Erases where
  commit := by
    rintro x _ state now events rfl
    rfl
  reject := by
    rintro x _ rfl
    rfl
  abandon := by
    rintro x _ rfl
    rfl

end Operation

/-- A priced call beside a journal is the call. -/
theorem perform_journaled (host : Host σ A) (hidle : w.vault.entered = false)
    (hc : c.priced = true) :
    (performJournaled host c (w.beside [])).1 = (perform host c w).1 ∧
      (performJournaled host c (w.beside [])).2.erase = (perform host c w).2 := by
  have hbegin : Operation.Begins Operation.Erases host.journaled host (w.beside []) w :=
    ⟨.refl _, hidle, rfl, rfl⟩
  exact performWith_lockstep (Operation.inStep_journaled host) Operation.closes_erases hbegin
    (Call.guarded_of_priced hc) fun _ _ => trivial

end ShareVault
