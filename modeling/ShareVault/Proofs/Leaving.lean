import ShareVault.Proofs.Accrual
import ShareVault.Proofs.Assets
import ShareVault.Proofs.Preview

/-!
# Leaving is always possible

Whoever holds shares can give them back, as long as nothing overflows.  Everything that a withdrawal
asks for is there: the holder has the shares, and no fee takes any of them; the supply is at least
as large; a part of what the vault holds is no more than all of it; and without floors no amount is
too small.  What is left are sums that may be too large: the value of the holdings, the fees, and
what the recipient holds afterwards.

* `payouts_ok_of_le`, `Custody.debitFrom_of_le`, `Custody.release_cases` — the parts that always
  succeed, and the one that may overflow;
* `exists_charge_of_free` — without rates nothing is charged, and nothing fails;
* `World.InOrder` — a vault among collaborators in memory, over as many assets as it has;
* `InMemory.valuation_eq`, `charge_eq`, `exists_release` — what they answer;
* `Effectful.Ends` — how a step ends, whatever state it leaves;
* `World.Owes`, `World.Leaves` — what a holder is owed, and how a withdrawal ends;
* `leaving_is_possible` — the result.
-/

namespace ShareVault

/-! ### Paying out -/

/-- Shares that are no more than the supply are paid out, if nobody asks for more. -/
theorem payouts_ok_of_le {shares supply : Amount} (hsupply : supply ≠ 0) (hle : shares ≤ supply)
    (index : Nat) {entries : List (Amount × Amount × Amount)}
    (hfloors : ∀ entry ∈ entries, entry.2.2 = 0) :
    ∃ amounts, payouts shares supply index entries = .ok amounts := by
  induction entries generalizing index with
  | nil => exact ⟨[], rfl⟩
  | cons entry rest ih =>
    obtain ⟨tvl, held, minimum⟩ := entry
    rw [List.forall_mem_cons] at hfloors
    obtain rfl : minimum = 0 := hfloors.1
    obtain ⟨share, hshare, _⟩ := mulDiv_of_le (a := tvl) hsupply hle
    obtain ⟨amounts, hamounts⟩ := ih (index + 1) hfloors.2
    have hpayout : (payout tvl shares supply held).mapError VaultError.math =
        .ok (min share held) := by
      unfold payout
      rw [hshare]
      rfl
    have hfloor : ¬ min share held < 0 := Nat.not_lt_zero _
    refine ⟨min share held :: amounts, ?_⟩
    unfold payouts
    refine Attempt.bind_eq_ok.mpr ⟨min share held, hpayout, ?_⟩
    rw [if_neg hfloor]
    exact Attempt.bind_eq_ok.mpr ⟨amounts, hamounts, rfl⟩

/-- So the plan of a withdrawal without floors succeeds. -/
theorem planWithdraw_ok_of_le {lower holdings : List Amount} {shares supply : Amount} {assets : Nat}
    (hlower : lower.length = assets) (hholdings : holdings.length = assets) (hshares : shares ≠ 0)
    (hle : shares ≤ supply) :
    ∃ amounts, planWithdraw lower holdings shares supply (List.replicate assets 0) =
      .ok amounts := by
  have hsupply : supply ≠ 0 := by
    rintro rfl
    exact hshares (Word.ext (Nat.le_zero.mp hle))
  have hfloors : ∀ entry ∈ lower.zip (holdings.zip (List.replicate assets (0 : Amount))),
      entry.2.2 = 0 := by
    rintro ⟨tvl, held, minimum⟩ hmem
    exact List.eq_of_mem_replicate (List.of_mem_zip (List.of_mem_zip hmem).2).2
  obtain ⟨amounts, hamounts⟩ := payouts_ok_of_le hsupply hle 0 hfloors
  refine ⟨amounts, ?_⟩
  unfold planWithdraw checkLength
  rw [List.length_replicate, if_pos hlower, hlower, if_pos hholdings.symm, if_neg hsupply,
    if_neg hshares]
  exact hamounts

namespace ShareLedger

theorem burn_ok_of_le {l : ShareLedger} {owner : Account} {amount : Amount}
    (hle : amount ≤ l.balanceOf owner) : ∃ l', l.burn owner amount = .ok l' := by
  unfold burn
  exact ⟨_, dif_pos hle⟩

end ShareLedger

namespace Custody

variable {c : Custody} {balances amounts : List Amount}

/-- What is there can be debited. -/
theorem debitFrom_of_le (holder : String) (index : Nat)
    (h : ∀ i, amountAt amounts i ≤ amountAt balances i) :
    ∃ rest, debitFrom holder index balances amounts = .ok rest := by
  induction balances generalizing amounts index with
  | nil => exact ⟨[], rfl⟩
  | cons b bs ih =>
    cases amounts with
    | nil => exact ⟨b :: bs, rfl⟩
    | cons a as =>
      have hle : a ≤ b := h 0
      obtain ⟨rest, hrest⟩ := ih (index + 1) fun i => h (i + 1)
      refine ⟨b.sub a hle :: rest, ?_⟩
      unfold debitFrom
      rw [dif_pos hle]
      exact Attempt.bind_eq_ok.mpr ⟨rest, hrest, rfl⟩

/-- What cannot be credited is too large a sum of some asset. -/
theorem creditUpTo_overflow (h : (creditUpTo balances amounts).2 = false) :
    ∃ i, Word.size 128 ≤ amountAt balances i + amountAt amounts i := by
  induction balances generalizing amounts with
  | nil => cases h
  | cons b bs ih =>
    cases amounts with
    | nil => cases h
    | cons a as =>
      unfold creditUpTo at h
      split at h
      next =>
        obtain ⟨i, hi⟩ := ih h
        exact ⟨i + 1, hi⟩
      next hoverflow => exact ⟨0, Word.add?_eq_none.mp hoverflow⟩

/-- A release of no more than there is goes through, unless the wallet would overflow. -/
theorem release_cases (hs : c.Sized) (hlength : amounts.length = c.assets)
    (hle : ∀ i, amountAt amounts i ≤ amountAt c.holdings i) (account : Account) :
    (∃ c', c.release account amounts = .ok c' ∧
        ∀ i, amountAt (c.wallet account) i + amountAt amounts i < Word.size 128) ∨
      c.release account amounts = .error .overflow ∧
        ∃ i, Word.size 128 ≤ amountAt (c.wallet account) i + amountAt amounts i := by
  obtain ⟨holdings, hdebit⟩ := debitFrom_of_le vaultHolder 0 hle
  have hwallet := hs.wallets account
  cases hall : (creditUpTo (c.wallet account) amounts).2 with
  | true =>
    have hcredit : credit (c.wallet account) amounts =
        .ok (creditUpTo (c.wallet account) amounts).1 := if_pos hall
    refine .inl ⟨_, release_eq_ok.mpr ⟨hlength, holdings, _, hdebit, hcredit, rfl⟩, fun i => ?_⟩
    rw [← (credit_ok (by omega) hcredit).2 i]
    exact Word.lt _
  | false =>
    have hcredit : credit (c.wallet account) amounts = .error .overflow :=
      if_neg (by rw [hall]; exact Bool.false_ne_true)
    refine .inr ⟨?_, creditUpTo_overflow hall⟩
    have hdebit : debit vaultHolder c.holdings amounts = .ok holdings := hdebit
    unfold release
    rw [checkLength_eq_ok (u := ()) |>.mpr hlength, hdebit, hcredit]
    rfl

end Custody

/-! ### Charging without rates -/

/-- None of the three rates is in force. -/
structure FeeSchedule.Free (s : FeeSchedule) : Prop where
  management : s.managementFee = 0
  performance : s.performanceFee = 0
  protocol : s.protocolFee = 0

section Charges

variable {ledger : ShareLedger} {schedule : FeeSchedule} {lower existentials : List Amount}
  {appraise : List Amount → Except ValuationError Amount} {now : Timestamp}

theorem splitManagement_of_free (h : schedule.Free) (elapsed : Timestamp) (supply : Amount) :
    splitManagement schedule elapsed supply = .ok (0, 0) := by
  unfold splitManagement
  rw [h.management, h.protocol]
  rfl

/-- Without rates a charge succeeds. -/
theorem exists_charge_of_free (h : schedule.Free) :
    ∃ fees charged, chargeFees ledger schedule lower existentials appraise now =
      (.ok fees, charged) := by
  have hnever : Attempt.FailsOnly (fun _ => False)
      (Accrual.of ledger schedule lower existentials now) := by
    apply Accrual.of_failsOnly
    intro elapsed supply e hfails
    rw [splitManagement_of_free h] at hfails
    cases hfails
  obtain ⟨accrual, haccrual⟩ := Attempt.exists_ok_of_failsOnly hnever
  cases accrual with
  | skip reason => exact ⟨_, _, (Charges.skip haccrual).chargeFees_eq⟩
  | idle => exact ⟨_, _, (Charges.idle haccrual).chargeFees_eq⟩
  | due strategy protocol =>
    have hsplit := Accrual.of_due haccrual
    rw [splitManagement_of_free h] at hsplit
    cases hsplit
    have hrate : ¬ 0 < schedule.performanceFee := by
      rw [h.performance]
      exact Nat.lt_irrefl _
    have hmint (l : ShareLedger) (treasury : Account) := l.mint_zero treasury
    have hcharges : Charges ledger schedule lower existentials appraise now _ _ :=
      .due haccrual (.free hrate) (hmint ..) (hmint ..) (hmint ..)
    exact ⟨_, _, hcharges.chargeFees_eq⟩

end Charges

/-! ### Collaborators in memory -/

/-- A vault that a run among collaborators in memory leads to.  It has a source of prices in force,
and this and the custody have as many assets as the vault. -/
structure World.InOrder (w : World InMemory Handle) (adapter : UnitPriceAdapter) : Prop where
  reached : Reachable InMemory.host w
  source : ∃ handle, w.vault.source? = some handle ∧
    w.host.adapters[handle.index]? = some adapter
  prices : adapter.prices.length = w.vault.tokenCount
  assets : w.host.custody.assets = w.vault.tokenCount
  /-- Every custody is, by `Custody.sized_after`, that was made empty. -/
  sized : w.host.custody.Sized

/-- The charge that an operation begins with, when the holdings have these lower bounds. -/
def World.chargeOn (w : World InMemory Handle) (adapter : UnitPriceAdapter) (lower : List Amount) :
    Except VaultError FeeCharge × ShareLedger :=
  chargeFees w.vault.state.ledger w.vault.state.governance.schedule lower
    w.vault.config.existentials adapter.convert w.host.clock.now

section Answers

variable {w : World InMemory Handle} {adapter : UnitPriceAdapter} {handle : Handle}

namespace World.InOrder

/-- The bounds are always there. -/
theorem exists_bounds (hw : w.InOrder adapter) :
    ∃ lower, adapter.tvl w.host.custody.holdings = .ok ⟨lower, w.host.custody.holdings⟩ ∧
      lower.length = w.vault.tokenCount ∧
      w.host.custody.holdings.length = w.vault.tokenCount := by
  have hholdings : w.host.custody.holdings.length = w.vault.tokenCount :=
    hw.sized.holdings.trans hw.assets
  obtain ⟨⟨lower, upper⟩, htvl⟩ := UnitPriceAdapter.exists_tvl (hw.prices.trans hholdings.symm)
  obtain ⟨rfl, hlength, _⟩ := UnitPriceAdapter.tvl_exact htvl
  exact ⟨lower, htvl, hlength.trans hholdings, hholdings⟩

end World.InOrder

namespace InMemory

theorem askAdapter_eq {α : Type} {m : InMemory}
    (hadapter : m.adapters[handle.index]? = some adapter)
    (question : UnitPriceAdapter → Except ValuationError α) :
    m.askAdapter handle question = question adapter := by
  unfold askAdapter
  rw [hadapter]

/-- An appraisal, once a call has begun. -/
theorem valuation_eq (hadapter : w.host.adapters[handle.index]? = some adapter)
    {holdings : List Amount} {bounds : Tvl} (hholdings : w.host.custody.holdings = holdings)
    (hbounds : adapter.tvl holdings = .ok bounds)
    (hheld : w.vault.tokenCount = holdings.length)
    (hlower : w.vault.tokenCount = bounds.lower.length)
    (hupper : w.vault.tokenCount = bounds.upper.length) :
    Operation.valuation host.nested host handle (w.mapVault .begin) =
      .ok (holdings, bounds) (w.mapVault .begin) := by
  refine Operation.valuation_eq_ok.mpr ⟨congrArg Except.ok hholdings, ?_, hheld, hlower, hupper⟩
  show (w.host.askAdapter handle (·.tvl holdings), w.mapVault .begin) = _
  rw [askAdapter_eq hadapter, hbounds]

/-- A charge after it: the charge on the ledger, at the value that the source of prices gives. -/
theorem charge_eq (hadapter : w.host.adapters[handle.index]? = some adapter) (lower : List Amount) :
    Operation.charge host.nested host handle w.vault.state.ledger
        w.vault.state.governance.schedule lower (host.now w.host) (w.mapVault .begin) =
      match w.chargeOn adapter lower with
      | (.ok fees, charged) => .ok (fees, charged) (w.mapVault .begin)
      | (.error e, _) => .error e (w.mapVault .begin) := by
  have hfees (value : Except ValuationError Amount)
      (h : asksValue w.vault.state.ledger w.vault.state.governance.schedule lower
        w.vault.config.existentials w.host.clock.now = true → value = adapter.convert lower) :
      w.chargeOn adapter lower =
        chargeFees w.vault.state.ledger w.vault.state.governance.schedule lower
          w.vault.config.existentials (fun _ => value) w.host.clock.now :=
    (chargeFees_congr h).symm
  refine (Effectful.bind_of_ok (Effectful.get_eq_ok.mpr ⟨rfl, rfl⟩)).trans ?_
  by_cases hasks : asksValue w.vault.state.ledger w.vault.state.governance.schedule lower
      w.vault.config.existentials w.host.clock.now = true
  · have hanswer : Operation.consult host.nested (host.convert handle lower) (w.mapVault .begin) =
        .ok (adapter.convert lower) (w.mapVault .begin) := by
      refine Operation.consult_eq_ok.mpr ?_
      show (w.host.askAdapter handle (·.convert lower), w.mapVault .begin) = _
      rw [askAdapter_eq hadapter]
    refine (congrFun (if_pos hasks) _).trans ((Effectful.bind_of_ok hanswer).trans ?_)
    rw [hfees _ fun _ => rfl]
    exact Operation.takeOver_eq _
  · refine (congrFun (if_neg hasks) _).trans ?_
    rw [hfees (.ok 0) fun h => (hasks h).elim]
    exact Operation.takeOver_eq _

theorem move_fst (m : InMemory) (change : Custody → Except CustodyError Custody) :
    (m.move change).1 = (change m.custody).map fun _ => () := by
  unfold move
  cases change m.custody with
  | ok custody => rfl
  | error e => rfl

/-- A payment, once a call has begun, is answered as the custody answers. -/
theorem exists_release {account : Account} {amounts : List Amount}
    {answer : Except CustodyError Custody}
    (hanswer : w.host.custody.release account amounts = answer) :
    ∃ w', Operation.consult host.nested (host.release account amounts) (w.mapVault .begin) =
      .ok (answer.map fun _ => ()) w' := by
  refine ⟨{ w.mapVault .begin with host := (w.host.move (·.release account amounts)).2 },
    Operation.consult_eq_ok.mpr ?_⟩
  show ((w.host.move (·.release account amounts)).1, _) = _
  rw [move_fst, hanswer]
  rfl

end InMemory

end Answers

/-! ### How a call ends -/

namespace Effectful

variable {ε τ α β : Type} {s s' : τ} {Q : Except ε β → Prop}

/-- In this state the step ends in such a way, whatever state it leaves. -/
def Ends (Q : Except ε β → Prop) (m : EStateM ε τ β) (s : τ) : Prop :=
  match m s with
  | .ok b _ => Q (.ok b)
  | .error e _ => Q (.error e)

theorem ends_bind_of_ok {m : EStateM ε τ α} {f : α → EStateM ε τ β} {a : α} (h : m s = .ok a s')
    (hf : Ends Q (f a) s') : Ends Q (m >>= f) s := by
  unfold Ends
  rw [bind_of_ok h]
  exact hf

theorem ends_bind_of_error {m : EStateM ε τ α} {f : α → EStateM ε τ β} {e : ε}
    (h : m s = .error e s') (he : Q (.error e)) : Ends Q (m >>= f) s := by
  unfold Ends
  rw [bind_eq_error.mpr (.inl h)]
  exact he

end Effectful

section Calls

open Effectful

variable {σ A α : Type} {host : Host σ A} {w : World σ A}

theorem Operation.ends_mutate {body : VaultState → Timestamp → Operation σ A (Effect α)}
    {Q : Except VaultError α → Prop} (hidle : w.vault.entered = false)
    (h : Ends (fun r => Q (r.map Effect.output)) (body w.vault.state (host.now w.host))
      (w.mapVault .begin)) : Ends Q (mutate host body) w := by
  unfold Ends at h ⊢
  rw [mutate_idle hidle]
  split at h
  next hbody =>
    rw [hbody]
    exact h
  next hbody =>
    rw [hbody]
    exact h

theorem perform_of_ends {c : Call A} {Q : Outcome → Prop}
    (h : Ends Q (Operation.ofCall host.nested host c) w) : Q (perform host c w).1 := by
  unfold Ends at h
  split at h
  next hcall =>
    rw [perform_eq_ok.mpr hcall]
    exact h
  next hcall =>
    rw [perform_eq_error.mpr hcall]
    exact h

end Calls

/-! ### The result -/

section Withdrawals

variable {w : World InMemory Handle} {adapter : UnitPriceAdapter} {caller recipient : Account}
  {shares : Amount} {amounts : List Amount}

/-- No floors for what a withdrawal pays. -/
abbrev World.noFloors (w : World InMemory Handle) : List Amount :=
  List.replicate w.vault.tokenCount 0

/-- The amounts that a holder is owed for shares, once fees are charged. -/
inductive World.Owes (w : World InMemory Handle) (adapter : UnitPriceAdapter) (caller : Account)
    (shares : Amount) : List Amount → Prop where
  | settled {lower amounts : List Amount} {fees : FeeCharge} {charged ledger : ShareLedger}
      (bounds : adapter.tvl w.host.custody.holdings = .ok ⟨lower, w.host.custody.holdings⟩)
      (charges : w.chargeOn adapter lower = (.ok fees, charged))
      (settles : settleWithdrawal charged lower w.host.custody.holdings caller shares w.noFloors =
        .ok (ledger, amounts)) : Owes w adapter caller shares amounts

/-- How a withdrawal without floors ends.  The holder is paid, or some sum is too large. -/
inductive World.Leaves (w : World InMemory Handle) (adapter : UnitPriceAdapter)
    (caller recipient : Account) (shares : Amount) : Outcome → Prop where
  | paid {amounts : List Amount} (owed : w.Owes adapter caller shares amounts)
      (fits : ∀ i, amountAt (w.host.custody.wallet recipient) i + amountAt amounts i <
        Word.size 128) : Leaves w adapter caller recipient shares (.ok (.withdrawn amounts))
  /-- The value of the holdings, the fees, or a balance with the fees would overflow. -/
  | uncharged {lower : List Amount} {e : VaultError}
      (bounds : adapter.tvl w.host.custody.holdings = .ok ⟨lower, w.host.custody.holdings⟩)
      (fails : (w.chargeOn adapter lower).1 = .error e)
      (overflows : ChargeError (.error (.math .overflow)) e) :
      Leaves w adapter caller recipient shares (.error e)
  /-- The wallet of the recipient would overflow. -/
  | uncredited {amounts : List Amount} {i : Nat} (owed : w.Owes adapter caller shares amounts)
      (overflows : Word.size 128 ≤
        amountAt (w.host.custody.wallet recipient) i + amountAt amounts i) :
      Leaves w adapter caller recipient shares (.error (.custody .overflow))

namespace World.InOrder

/-- After a charge the holder still has the shares, and the supply is as large. -/
theorem exists_settlement (hw : w.InOrder adapter) (hshares : shares ≠ 0)
    (hheld : shares ≤ w.vault.state.ledger.balanceOf caller) {lower : List Amount}
    (hlower : lower.length = w.vault.tokenCount) {fees : FeeCharge} {charged : ShareLedger}
    (hcharges : w.chargeOn adapter lower = (.ok fees, charged)) :
    ∃ ledger amounts, settleWithdrawal charged lower w.host.custody.holdings caller shares
      w.noFloors = .ok (ledger, amounts) := by
  have hcharges := chargeFees_ok hcharges
  have hbalance : shares ≤ charged.balanceOf caller :=
    Nat.le_trans hheld (hcharges.balanceOf_le caller)
  have hsupply : shares ≤ charged.totalSupply :=
    Nat.le_trans hbalance ((hcharges.sound hw.reached.sound.ledger).balanceOf_le caller)
  obtain ⟨amounts, hplan⟩ :=
    planWithdraw_ok_of_le hlower (hw.sized.holdings.trans hw.assets) hshares hsupply
  obtain ⟨ledger, hburn⟩ := ShareLedger.burn_ok_of_le hbalance
  refine ⟨ledger, amounts, ?_⟩
  unfold settleWithdrawal
  simp only [Attempt.bind_eq_ok, Attempt.mapError_eq_ok, Attempt.pure_eq_ok]
  exact ⟨amounts, hplan, ledger, hburn, rfl⟩

/-- A charge that fails overflows. -/
theorem chargeOn_error (hw : w.InOrder adapter) {lower : List Amount}
    (hlower : lower.length = w.vault.tokenCount) {e : VaultError}
    (hfails : (w.chargeOn adapter lower).1 = .error e) :
    ChargeError (.error (.math .overflow)) e := by
  have herror : ChargeError (adapter.convert lower) e := chargeFees_failsOnly _ _ _ _ _ _ e hfails
  cases herror with
  | amounts => exact .amounts
  | minting => exact .minting
  | appraisal fails =>
    obtain rfl := convert_failsOnly adapter (hw.prices.trans hlower.symm) _ fails
    exact .appraisal rfl

open Effectful in
theorem leaves (hw : w.InOrder adapter) (hshares : shares ≠ 0)
    (hheld : shares ≤ w.vault.state.ledger.balanceOf caller) :
    w.Leaves adapter caller recipient shares
      (perform InMemory.host (.withdraw caller shares w.noFloors recipient) w).1 := by
  obtain ⟨handle, hsource, hadapter⟩ := hw.source
  obtain ⟨lower, hbounds, hlower, hholdings⟩ := hw.exists_bounds
  apply perform_of_ends
  rw [Operation.ofCall, Operation.withdraw]
  apply Operation.ends_mutate hw.reached.idle
  -- up to the charge nothing fails
  refine ends_bind_of_ok (Effectful.get_eq_ok.mpr ⟨rfl, rfl⟩) ?_
  have hfloors : checkLength w.vault.tokenCount w.noFloors.length = .ok () :=
    Operation.checkLength_eq_ok.mpr List.length_replicate.symm
  refine ends_bind_of_ok (Operation.lift_eq_ok.mpr ⟨hfloors, rfl⟩) ?_
  refine ends_bind_of_ok (Operation.adapterOf_eq_ok.mpr ⟨hsource, rfl⟩) ?_
  refine ends_bind_of_ok (InMemory.valuation_eq hadapter rfl hbounds hholdings.symm hlower.symm
    hholdings.symm) ?_
  have hcharge := InMemory.charge_eq hadapter lower
  rcases hend : w.chargeOn adapter lower with ⟨e | fees, charged⟩
  · rw [hend] at hcharge
    have hfails : (w.chargeOn adapter lower).1 = .error e := congrArg Prod.fst hend
    exact ends_bind_of_error hcharge (.uncharged hbounds hfails (hw.chargeOn_error hlower hfails))
  · rw [hend] at hcharge
    obtain ⟨ledger, amounts, hsettles⟩ := hw.exists_settlement hshares hheld hlower hend
    have howed : w.Owes adapter caller shares amounts := .settled hbounds hend hsettles
    obtain ⟨hlength, hpays⟩ := planWithdraw_ok (Operation.settleWithdrawal_ok hsettles).1
    refine ends_bind_of_ok hcharge ?_
    refine ends_bind_of_ok (Operation.lift_eq_ok.mpr ⟨hsettles, rfl⟩) ?_
    rcases Custody.release_cases hw.sized (hlength.trans hw.sized.holdings)
      (fun i => (hpays i).1) recipient with ⟨custody, hpaid, hfits⟩ | ⟨hrefused, i, hoverflow⟩
    · obtain ⟨w', hanswer⟩ := InMemory.exists_release hpaid
      exact ends_bind_of_ok hanswer (.paid howed hfits)
    · obtain ⟨w', hanswer⟩ := InMemory.exists_release hrefused
      exact ends_bind_of_ok hanswer (.uncredited howed hoverflow)

end World.InOrder

/-- A withdrawal without floors that fails has overflowed. -/
theorem World.Leaves.overflow {e : VaultError}
    (h : w.Leaves adapter caller recipient shares (.error e)) :
    e = .valuation (.math .overflow) ∨ e = .math .overflow ∨ e = .ledger .overflow ∨
      e = .custody .overflow := by
  cases h with
  | uncredited owed overflows => simp
  | uncharged bounds fails overflows =>
    cases overflows with
    | amounts => simp
    | minting => simp
    | appraisal hvalue =>
      cases hvalue
      simp

/-- Whoever holds shares can give any part of them back, to whatever recipient, and is paid what is
owed for them, unless something overflows: the value of the holdings, the fees, or the wallet of the
recipient.  Without rates nothing but the wallet can. -/
theorem leaving_is_possible (hw : w.InOrder adapter) (hshares : shares ≠ 0)
    (hheld : shares ≤ w.vault.state.ledger.balanceOf caller) (recipient : Account) :
    let outcome := (perform InMemory.host (.withdraw caller shares w.noFloors recipient) w).1
    w.Leaves adapter caller recipient shares outcome ∧
      (∀ e, outcome = .error e → e = .valuation (.math .overflow) ∨ e = .math .overflow ∨
        e = .ledger .overflow ∨ e = .custody .overflow) ∧
      (w.vault.state.governance.schedule.Free →
        ∃ amounts, w.Owes adapter caller shares amounts ∧
          (outcome = .ok (.withdrawn amounts) ∨
            outcome = .error (.custody .overflow) ∧ ∃ i, Word.size 128 ≤
              amountAt (w.host.custody.wallet recipient) i + amountAt amounts i)) := by
  intro outcome
  have hleaves : w.Leaves adapter caller recipient shares outcome := hw.leaves hshares hheld
  clear_value outcome
  refine ⟨hleaves, ?_, ?_⟩
  · rintro e rfl
    exact hleaves.overflow
  · intro hfree
    cases hleaves with
    | @paid amounts owed fits => exact ⟨amounts, owed, .inl rfl⟩
    | @uncredited amounts i owed overflows => exact ⟨amounts, owed, .inr ⟨rfl, i, overflows⟩⟩
    | uncharged bounds fails overflows =>
      obtain ⟨fees, charged, hcharges⟩ := exists_charge_of_free hfree
      have hcharges : w.chargeOn adapter _ = (.ok fees, charged) := hcharges
      rw [hcharges] at fails
      cases fails

end Withdrawals

namespace SmallVault

/-- Alice has deposited everything, the fee has been waived, and Alice has all the money in the
world. -/
def waived : World InMemory Handle :=
  play InMemory.host start
    [.call (.deposit "alice" [.saturate 128 1000] 0 0),
      .call (.stage "admin" .managementFee (.rate 0)),
      .outside (surroundings 1 1000 (Word.size 128)),
      .call (.commit "admin" .managementFee)]

/-- Alice gives half of her shares back. -/
def leaveTo (recipient : Account) : Outcome :=
  (perform InMemory.host (.withdraw "alice" (.saturate 128 500) waived.noFloors recipient) waived).1

theorem inOrder_waived : waived.InOrder (.atPar "par" 1 0) where
  reached := reachable _
  source := ⟨⟨"par", 0⟩, by decide +kernel, rfl⟩
  prices := by decide +kernel
  assets := by decide +kernel
  sized := by
    have hcustody : waived.host.custody = (Custody.new 1).after
        [.donate [.saturate 128 1000], .fund "alice" [.largest 128]] := by
      decide +kernel
    rw [hcustody]
    exact Custody.sized_after (Custody.sized_new 1) _

end SmallVault

open SmallVault in
/-- Bob can be paid, but in Alice's wallet there is no room. -/
theorem leaving_is_possible_waived :
    waived.vault.state.governance.schedule.Free ∧
      leaveTo "bob" = .ok (.withdrawn [.saturate 128 500]) ∧
      waived.Leaves (.atPar "par" 1 0) "alice" "bob" (.saturate 128 500) (leaveTo "bob") ∧
      ∃ amounts, waived.Owes (.atPar "par" 1 0) "alice" (.saturate 128 500) amounts ∧
        leaveTo "alice" = .error (.custody .overflow) ∧
        ∃ i, Word.size 128 ≤
          amountAt (waived.host.custody.wallet "alice") i + amountAt amounts i := by
  have hfree : waived.vault.state.governance.schedule.Free :=
    ⟨by decide +kernel, by decide +kernel, by decide +kernel⟩
  have hshares : (.saturate 128 500 : Amount) ≠ 0 := by decide
  have hheld : .saturate 128 500 ≤ waived.vault.state.ledger.balanceOf "alice" := by
    decide +kernel
  have hfull : leaveTo "alice" = .error (.custody .overflow) := by decide +kernel
  obtain ⟨amounts, howed, hpaid | ⟨_, hoverflow⟩⟩ :=
    (leaving_is_possible inOrder_waived hshares hheld "alice").2.2 hfree
  · rw [show leaveTo "alice" = _ from hpaid] at hfull
    cases hfull
  · exact ⟨hfree, by decide +kernel, (leaving_is_possible inOrder_waived hshares hheld "bob").1,
      amounts, howed, hfull, hoverflow⟩

end ShareVault
