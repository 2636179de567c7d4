import ShareVault.Clock
import ShareVault.Vault.Perform

/-!
# Collaborators in memory

A clock, a custody and sources of prices that live beside the vault and never call it.

* `InMemory` — their state;
* `Handle` — what a vault knows of a source of prices: its name, and which one of them it is;
* `InMemory.install` — one more source of prices, with its handle;
* `InMemory.host` — all of them as the collaborators of a vault.
-/

namespace ShareVault

/-- A handle on a source of prices.  Two sources may go by one name; they differ in their place. -/
structure Handle where
  reference : Reference
  /-- The place among all sources ever made. -/
  index : Nat
deriving DecidableEq

/-- A clock, a custody and every source of prices ever made, the first one first. -/
structure InMemory where
  clock : Clock
  custody : Custody
  adapters : List UnitPriceAdapter
deriving DecidableEq

namespace InMemory

def install (m : InMemory) (adapter : UnitPriceAdapter) : Handle × InMemory :=
  (⟨adapter.reference, m.adapters.length⟩, { m with adapters := m.adapters ++ [adapter] })

/-- More sources of prices, in order. -/
def installAll (m : InMemory) : List UnitPriceAdapter → List Handle × InMemory
  | [] => ([], m)
  | adapter :: rest =>
    let first := m.install adapter
    let others := first.2.installAll rest
    (first.1 :: others.1, others.2)

/-- The place of the latest source of prices that goes by a name. -/
def latest? (m : InMemory) (reference : Reference) : Option Nat :=
  (m.adapters.zipIdx.reverse.find? fun p => p.1.reference = reference).map (·.2)

/-- Sets a price of the latest source that goes by a name. -/
def setPrice (m : InMemory) (reference : Reference) (index : Nat) (price : Amount) :
    Except ValuationError Unit × InMemory :=
  match m.latest? reference with
  | none => (.error (.missingPrice index), m)
  | some place =>
    match m.adapters[place]? with
    | none => (.error (.missingPrice index), m)
    | some adapter =>
      match adapter.setPrice index price with
      | .ok adapter' => (.ok (), { m with adapters := m.adapters.set place adapter' })
      | .error e => (.error e, m)

/-- The answer of the source of prices behind a handle. -/
def askAdapter {α : Type} (m : InMemory) (h : Handle)
    (question : UnitPriceAdapter → Except ValuationError α) : Except ValuationError α :=
  match m.adapters[h.index]? with
  | some adapter => question adapter
  | none => .error (.unavailable h.reference)

/-- Takes over a change of the custody, if there is one. -/
def move (m : InMemory) (change : Custody → Except CustodyError Custody) :
    Except CustodyError Unit × InMemory :=
  match change m.custody with
  | .ok custody => (.ok (), { m with custody := custody })
  | .error e => (.error e, m)

/-- Collaborators that answer and never call. -/
def host : Host InMemory Handle where
  now m := m.clock.now
  reference h := h.reference
  holdings m := .answer (.ok m.custody.holdings) m
  tvl h holdings m := .answer (m.askAdapter h (·.tvl holdings)) m
  convert h amounts m := .answer (m.askAdapter h (·.convert amounts)) m
  pull account amounts m :=
    let result := m.move (·.pull account amounts)
    .answer result.1 result.2
  release account amounts m :=
    let result := m.move (·.release account amounts)
    .answer result.1 result.2

end InMemory

end ShareVault
