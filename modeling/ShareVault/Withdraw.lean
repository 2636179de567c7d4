import ShareVault.Error

/-!
# Planning a withdrawal

What some shares are paid out in: of every asset the part of its lower bound that the shares are
of the supply, and never more than there is.

* `payout` — the amount of one asset;
* `planWithdraw` — the amounts of all assets, each held to the caller's floor.
-/

namespace ShareVault

/-- The amount of one asset that is paid out. -/
def payout (tvl shares supply held : Amount) : Except MathError Amount := do
  let share ← mulDiv tvl shares supply
  return min share held

/-- The amounts of all assets, from their bounds, holdings and floors; else the first that falls
short, counted from `index`. -/
def payouts (shares supply : Amount) (index : Nat) :
    List (Amount × Amount × Amount) → Except VaultError (List Amount)
  | [] => .ok []
  | (tvl, held, minimum) :: rest => do
    let amount ← (payout tvl shares supply held).mapError .math
    if amount < minimum then
      throw (.slippage (.asset index) amount minimum)
    let rest ← payouts shares supply (index + 1) rest
    return amount :: rest

/-- The plan of a withdrawal from a vault with these lower bounds, holdings and supply. -/
def planWithdraw (lower holdings : List Amount) (shares supply : Amount)
    (minAmounts : List Amount) : Except VaultError (List Amount) := do
  checkLength lower.length minAmounts.length
  checkLength lower.length holdings.length
  if supply = 0 then
    throw .emptyVault
  if shares = 0 then
    throw .zeroShares
  payouts shares supply 0 (lower.zip (holdings.zip minAmounts))

end ShareVault
