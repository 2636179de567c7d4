import ShareVault.Vault.Call

/-!
# The world around a vault

A vault depends on a clock, on sources of prices and on a custody that it knows nothing about.
While one of them works on a question of the vault, it may call the vault any number of times.

* `Script` — what outside code does with control: calls, one after another, then an answer;
* `Host` — the collaborators of a vault, with a state of type `σ`;
* `World` — a vault, its store and the state of its collaborators;
* `Script.run` — a script, played against a vault that replies to its calls;
* `Script.answering` — a script without calls.
-/

namespace ShareVault

/-- What outside code does while it has control.  Each call on the vault is made in some state of
the outside world, and the code goes on from the outcome and the state the call leaves. -/
inductive Script (σ A α : Type) where
  /-- Gives control back, with an answer. -/
  | answer (a : α) (host : σ)
  /-- Calls the vault and goes on. -/
  | call (c : Call A) (host : σ) (resume : Outcome → σ → Script σ A α)

structure Host (σ A : Type) where
  now : σ → Timestamp
  /-- The name of a source of prices. -/
  reference : A → Reference
  /-- What the custody holds for the vault. -/
  holdings : σ → Script σ A (Except CustodyError (List Amount))
  /-- The bounds of holdings. -/
  tvl : A → List Amount → σ → Script σ A (Except ValuationError Tvl)
  /-- The value of a basket in the reference asset. -/
  convert : A → List Amount → σ → Script σ A (Except ValuationError Amount)
  /-- Moves amounts from an account to the vault. -/
  pull : Account → List Amount → σ → Script σ A (Except CustodyError Unit)
  /-- Moves amounts from the vault to an account. -/
  release : Account → List Amount → σ → Script σ A (Except CustodyError Unit)

/-- A vault with everything around it. -/
structure World (σ A : Type) where
  vault : Vault A
  store : VaultStore
  host : σ

abbrev Performer (σ A : Type) := Call A → World σ A → Outcome × World σ A

namespace Script

variable {σ A α : Type}

/-- Plays a script; `perform` performs its calls. -/
def run (perform : Performer σ A) : Script σ A α → Vault A → VaultStore → α × World σ A
  | .answer a host, vault, store => (a, ⟨vault, store, host⟩)
  | .call c host resume, vault, store =>
    let result := perform c ⟨vault, store, host⟩
    (resume result.1 result.2.host).run perform result.2.vault result.2.store

end Script

namespace World

variable {σ A : Type}

/-- The world after a change to the vault. -/
def mapVault (w : World σ A) (f : Vault A → Vault A) : World σ A :=
  { w with vault := f w.vault }

end World

end ShareVault
