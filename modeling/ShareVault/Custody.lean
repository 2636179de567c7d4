import ShareVault.Access
import ShareVault.Word

/-!
# Custody of the assets

Who holds how much of every asset.  `Custody` keeps the holdings of the vault and the wallets of
everybody else.

* `Custody.pull`, `release` — move assets into and out of the vault, all of them or none;
* `Custody.fund`, `donate`, `remove` — change what there is, from outside;
* `CustodyError` — why assets do not move.
-/

namespace ShareVault

inductive CustodyError where
  /-- The holder has less of an asset than is asked for. -/
  | insufficientFunds (holder : String) (index : Nat) (available requested : Amount)
  /-- The amounts are not one per asset. -/
  | lengthMismatch (expected got : Nat)
  /-- A balance would have too many digits. -/
  | overflow
deriving DecidableEq

def CustodyError.message : CustodyError → String
  | .insufficientFunds holder index available requested =>
    s!"insufficient funds in {holder} for asset #{index}: has {available}, needs {requested}"
  | .lengthMismatch expected got => s!"custody length mismatch: expected {expected}, got {got}"
  | .overflow => "custody balance overflow"

/-- The holdings of the vault and the wallets around it. -/
structure Custody where
  assets : Nat
  /-- What the vault holds of each. -/
  holdings : List Amount
  /-- What everybody else holds of each. -/
  wallets : SortedMap Account (List Amount)
deriving DecidableEq

namespace Custody

/-- Custody of this many assets, with nothing in it. -/
def new (assets : Nat) : Custody := ⟨assets, List.replicate assets 0, ∅⟩

def wallet (c : Custody) (account : Account) : List Amount :=
  (c.wallets.get? account).getD (List.replicate c.assets 0)

def checkLength (c : Custody) (amounts : List Amount) : Except CustodyError Unit :=
  if amounts.length = c.assets then .ok ()
  else .error (.lengthMismatch c.assets amounts.length)

/-! ### Balances of one holder -/

/-- The balances after crediting amounts in order, up to the first that does not fit, and whether
all of them did. -/
def creditUpTo : List Amount → List Amount → List Amount × Bool
  | b :: bs, a :: as =>
    match b.add? a with
    | some sum =>
      let rest := creditUpTo bs as
      (sum :: rest.1, rest.2)
    | none => (b :: bs, false)
  | bs, _ => (bs, true)

/-- The balances after crediting all amounts. -/
def credit (balances amounts : List Amount) : Except CustodyError (List Amount) :=
  let result := creditUpTo balances amounts
  if result.2 then .ok result.1 else .error .overflow

/-- The balances after debiting all amounts; else the first asset, counted from `index`, of which
the holder has too little. -/
def debitFrom (holder : String) (index : Nat) :
    List Amount → List Amount → Except CustodyError (List Amount)
  | b :: bs, a :: as =>
    if h : a ≤ b then do
      let rest ← debitFrom holder (index + 1) bs as
      return b.sub a h :: rest
    else .error (.insufficientFunds holder index b a)
  | bs, _ => .ok bs

/-- The balances after debiting all amounts. -/
def debit (holder : String) (balances amounts : List Amount) :
    Except CustodyError (List Amount) :=
  debitFrom holder 0 balances amounts

/-- The name of the vault among the holders. -/
def vaultHolder : String := "vault"

/-! ### Moves between a wallet and the vault -/

/-- Moves amounts from a wallet into the vault, all of them or none. -/
def pull (c : Custody) (account : Account) (amounts : List Amount) :
    Except CustodyError Custody := do
  c.checkLength amounts
  let wallet ← debit account (c.wallet account) amounts
  let holdings ← credit c.holdings amounts
  return { c with holdings := holdings, wallets := c.wallets.insert account wallet }

/-- Moves amounts out of the vault into a wallet, all of them or none. -/
def release (c : Custody) (account : Account) (amounts : List Amount) :
    Except CustodyError Custody := do
  c.checkLength amounts
  let holdings ← debit vaultHolder c.holdings amounts
  let wallet ← credit (c.wallet account) amounts
  return { c with holdings := holdings, wallets := c.wallets.insert account wallet }

/-! ### Changes from outside

An overflow stops these half-way; what was credited before it stays. -/

/-- The outcome of crediting up to an overflow. -/
def outcome (all : Bool) : Except CustodyError Unit :=
  if all then .ok () else .error .overflow

/-- Adds amounts to a wallet. -/
def fund (c : Custody) (account : Account) (amounts : List Amount) :
    Except CustodyError Unit × Custody :=
  match c.checkLength amounts with
  | .error e => (.error e, c)
  | .ok () =>
    let result := creditUpTo (c.wallet account) amounts
    (outcome result.2, { c with wallets := c.wallets.insert account result.1 })

/-- Adds amounts to the vault, as a yield does. -/
def donate (c : Custody) (amounts : List Amount) : Except CustodyError Unit × Custody :=
  match c.checkLength amounts with
  | .error e => (.error e, c)
  | .ok () =>
    let result := creditUpTo c.holdings amounts
    (outcome result.2, { c with holdings := result.1 })

/-- Takes amounts from the vault, as a loss does. -/
def remove (c : Custody) (amounts : List Amount) : Except CustodyError Custody := do
  c.checkLength amounts
  let holdings ← debit vaultHolder c.holdings amounts
  return { c with holdings := holdings }

end Custody

end ShareVault
