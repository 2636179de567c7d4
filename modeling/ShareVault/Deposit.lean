import ShareVault.Error

/-!
# Planning a deposit

How many shares a basket buys, and which part of the basket the vault takes.  The scarcest asset
decides: the shares are the least that any significant asset pays for, and of every other asset
only as much is taken as these shares cost.

* `shareAmount` — the shares that a basket buys;
* `normalize` — the part of a basket that some shares cost;
* `planDeposit` — shares of the whole basket, then its part, then the shares of that part.

An asset counts as significant when the vault holds at least its threshold.  An empty vault, or one
with dust only, takes everything and issues as many shares as the largest amount.
-/

namespace ShareVault

/-- The largest of some amounts, zero of none. -/
def largestAmount (amounts : List Amount) : Amount := amounts.foldl max 0

/-- The entries of three lists side by side, as far as all three go. -/
def sideBySide (tvl amounts existentials : List Amount) : List (Amount × Amount × Amount) :=
  tvl.zip (amounts.zip existentials)

/-- The least number of shares that a significant asset pays for, if there is one. -/
def leastShares (supply : Amount) :
    List (Amount × Amount × Amount) → Option Amount → Except MathError (Option Amount)
  | [], least => .ok least
  | (tvl, amount, existential) :: rest, least =>
    if tvl < existential then leastShares supply rest least
    else do
      let candidate ← mulDiv amount supply tvl
      leastShares supply rest (some (match least with
        | some current => min current candidate
        | none => candidate))

/-- The shares that amounts buy, and whether a significant asset decided. -/
def shareAmount (tvl amounts : List Amount) (supply : Amount) (existentials : List Amount) :
    Except MathError (Amount × Bool) :=
  if supply = 0 then .ok (largestAmount amounts, false)
  else do
    match ← leastShares supply (sideBySide tvl amounts existentials) none with
    | some shares => return (shares, true)
    | none => return (largestAmount amounts, false)

/-- What some shares cost of one asset: nothing of dust, and at most what is offered. -/
def trim (shares supply : Amount) : Amount × Amount × Amount → Except MathError Amount
  | (tvl, amount, existential) =>
    if tvl < existential then .ok 0
    else do
      let cost ← mulDiv tvl shares supply
      return min amount cost

/-- The part of a basket that some shares cost; the whole basket when no significant asset
decided. -/
def normalize (tvl amounts : List Amount) (shares supply : Amount) (significant : Bool)
    (existentials : List Amount) : Except MathError (List Amount) :=
  if significant then (sideBySide tvl amounts existentials).mapM (trim shares supply)
  else .ok amounts

structure DepositPlan where
  shares : Amount
  amounts : List Amount
deriving DecidableEq

/-- Accepts a first deposit of enough of every asset; else names the first that is too little,
counted from `index`. -/
def checkFirstDeposit (index : Nat) : List (Amount × Amount) → Except VaultError Unit
  | [] => .ok ()
  | (amount, existential) :: rest =>
    let minimum := existential.mulSat firstDepositMultiplier
    if amount < minimum then .error (.firstDepositTooSmall index amount minimum)
    else checkFirstDeposit (index + 1) rest

/-- The plan of a deposit into a vault with these upper bounds and this supply. -/
def planDeposit (upper requested : List Amount) (supply : Amount) (existentials : List Amount) :
    Except VaultError DepositPlan := do
  checkLength existentials.length requested.length
  checkLength existentials.length upper.length
  let (provisional, significant) ←
    (shareAmount upper requested supply existentials).mapError .math
  let amounts ←
    (normalize upper requested provisional supply significant existentials).mapError .math
  let (shares, _) ← (shareAmount upper amounts supply existentials).mapError .math
  if supply = 0 then
    checkFirstDeposit 0 (amounts.zip existentials)
  if shares = 0 then
    throw .zeroShares
  return ⟨shares, amounts⟩

end ShareVault
