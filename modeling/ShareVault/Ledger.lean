import ShareVault.Access

/-!
# The share ledger

Who holds how many shares, and the two marks that fees depend on: the highest value per share that
a fee was charged at, and the time up to which fees have been charged.

* `ShareLedger.mint`, `burn`, `transfer` — the changes to balances and supply;
* `ShareLedger.raiseMark`, `recordCharge` — the changes to the marks;
* `ShareLedger.isConsistent` — the balances add up to the supply.

An account without shares has no entry.
-/

namespace ShareVault

/-- Why a change of balances is refused. -/
inductive LedgerError where
  /-- The account holds less than is asked for. -/
  | insufficientBalance (account : Account) (balance requested : Amount)
  /-- The supply or a balance would have too many digits. -/
  | overflow
deriving DecidableEq

def LedgerError.message : LedgerError → String
  | .insufficientBalance account balance requested =>
    s!"insufficient balance: {account} has {balance}, requested {requested}"
  | .overflow => "share supply overflow"

/-- The balances and the supply of a vault's shares, with the marks of its fees. -/
structure ShareLedger where
  totalSupply : Amount
  /-- The shares of every account that has any. -/
  balances : SortedMap Account Amount
  /-- The highest value per share that a charge has seen. -/
  highWaterMark : Amount
  /-- The time up to which fees have been charged. -/
  lastFeeCharge : Timestamp
deriving DecidableEq

namespace ShareLedger

/-- The ledger without shares; fees count from this time on. -/
def new (createdAt : Timestamp) : ShareLedger := ⟨0, ∅, 0, createdAt⟩

def balanceOf (l : ShareLedger) (account : Account) : Amount :=
  (l.balances.get? account).getD 0

def holderCount (l : ShareLedger) : Nat := l.balances.size

/-- The exact sum of the balances. -/
def balanceSum (l : ShareLedger) : Nat :=
  l.balances.values.foldr (fun balance sum => balance.toNat + sum) 0

/-- Whether the balances add up to the supply. -/
def isConsistent (l : ShareLedger) : Bool := l.balanceSum = l.totalSupply.toNat

/-- The ledger with this balance for an account, without an entry for zero. -/
def setBalance (l : ShareLedger) (account : Account) (balance : Amount) : ShareLedger :=
  { l with
    balances := if balance = 0 then l.balances.erase account
      else l.balances.insert account balance }

def mint (l : ShareLedger) (receiver : Account) (amount : Amount) :
    Except LedgerError ShareLedger :=
  if amount = 0 then .ok l
  else
    match l.totalSupply.add? amount, (l.balanceOf receiver).add? amount with
    | some supply, some balance =>
      .ok { l with totalSupply := supply, balances := l.balances.insert receiver balance }
    | _, _ => .error .overflow

def burn (l : ShareLedger) (owner : Account) (amount : Amount) :
    Except LedgerError ShareLedger :=
  let balance := l.balanceOf owner
  if h : amount ≤ balance then
    .ok { l.setBalance owner (balance.sub amount h) with
      totalSupply := l.totalSupply.subWrap amount }
  else .error (.insufficientBalance owner balance amount)

/-- Moves shares from one account to another. -/
def transfer (l : ShareLedger) (owner receiver : Account) (amount : Amount) :
    Except LedgerError ShareLedger :=
  let balance := l.balanceOf owner
  if h : amount ≤ balance then
    if owner = receiver ∨ amount = 0 then .ok l
    else
      match (l.balanceOf receiver).add? amount with
      | some credited =>
        .ok ((l.setBalance owner (balance.sub amount h)).setBalance receiver credited)
      | none => .error .overflow
  else .error (.insufficientBalance owner balance amount)

/-- Raises the mark to a value per share, if that is higher. -/
def raiseMark (l : ShareLedger) (price : Amount) : ShareLedger :=
  { l with highWaterMark := max l.highWaterMark price }

/-- Notes that fees have been charged up to a time. -/
def recordCharge (l : ShareLedger) (time : Timestamp) : ShareLedger :=
  { l with lastFeeCharge := time }

end ShareLedger

/-! ### Written forms -/

instance : JsonCodec ShareLedger where
  toJson l := .object
    [("total_supply", toJson l.totalSupply), ("balances", toJson l.balances),
      ("high_water_mark_per_share", toJson l.highWaterMark),
      ("last_fee_charge_at", toJson l.lastFeeCharge)]
  ofJson? v := do
    let [supply, balances, mark, last] ← v.slots?
      ["total_supply", "balances", "high_water_mark_per_share", "last_fee_charge_at"] | none
    return ⟨← supply.required?, ← balances.required?, ← mark.required?, ← last.required?⟩

instance : ByteCodec ShareLedger where
  encode l := ByteCodec.encode l.totalSupply ++ ByteCodec.encode l.balances ++
    ByteCodec.encode l.highWaterMark ++ ByteCodec.encode l.lastFeeCharge
  decode := do
    let supply ← ByteCodec.decode
    let balances ← ByteCodec.decode
    let mark ← ByteCodec.decode
    let last ← ByteCodec.decode
    return ⟨supply, balances, mark, last⟩
  fits l := ByteCodec.fits l.balances

end ShareVault
