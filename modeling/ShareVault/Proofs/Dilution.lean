import ShareVault.Proofs.Booking
import ShareVault.Proofs.Rounding

/-!
# No dilution

Whoever keeps their shares while others deposit or withdraw does not come to own less: every share
stands for no less of an asset after the operation than it did once the fees were charged.  Both
passes of a deposit's plan are floored, and so are a withdrawal's amounts, which moreover go by the
lower bounds.

* `Undiluted` — that comparison, without division;
* `Host.PricesByUnit` — a custody in memory beside sources of prices that have one price a unit;
* `Host.PricesByUnit.deposit`, `deposit_dust`, `withdraw` — what the two operations move;
* `no_dilution` — the result.
-/

namespace ShareVault

/-! ### Shares and what they stand for -/

/-- A share of the second supply stands for no less of the second holdings than a share of the first
supply did of the first holdings.  Taken crosswise, as supplies may be zero. -/
def Undiluted (held supply held' supply' : Nat) : Prop := held * supply' ≤ held' * supply

namespace Undiluted

variable {held supply held' supply' amount minted burned : Nat}

/-- New shares that are paid for. -/
theorem deposit (h : minted * held ≤ amount * supply) :
    Undiluted held supply (held + amount) (supply + minted) := by
  unfold Undiluted
  rw [Nat.mul_add, Nat.add_mul, Nat.mul_comm held minted]
  omega

/-- Shares that are paid out at no more than they are worth. -/
theorem withdraw (hheld : held' + amount = held) (hsupply : supply' + burned = supply)
    (h : amount * supply ≤ held * burned) : Undiluted held supply held' supply' := by
  unfold Undiluted
  have hall : held * supply' + held * burned = held' * supply + amount * supply := by
    rw [← Nat.mul_add, ← Nat.add_mul, hheld, hsupply]
  omega

end Undiluted

/-! ### Prices by the unit -/

/-- A custody in memory, with sources of prices that give their bounds as one price for a unit of
each asset does.  Which prices and which haircut may change at any time. -/
structure Host.PricesByUnit {σ A : Type} (host : Host σ A) (books : σ → Custody) : Prop
    extends host.OverCustody books where
  priced : ∀ adapter holdings s t s', host.tvl adapter holdings s = .answer (.ok t) s' →
    ∃ a : UnitPriceAdapter, a.tvl holdings = .ok t

theorem InMemory.pricesByUnit : host.PricesByUnit InMemory.custody where
  toOverCustody := overCustody
  priced adapter holdings s t s' h := by
    have hanswer : s.askAdapter adapter (·.tvl holdings) = .ok t := (Script.answer.inj h).1
    unfold askAdapter at hanswer
    split at hanswer
    next a _ => exact ⟨a, hanswer⟩
    next => cases hanswer

section Units

variable {σ A : Type} {host : Host σ A} {books : σ → Custody} {nested : Performer σ A}
  {w w' : World σ A} {caller recipient : Account} {shares minShares : Amount}
  {amounts minAmounts : List Amount} {deadline : Timestamp}

/-- What the custody holds of an asset for the vault. -/
def World.held (books : σ → Custody) (w : World σ A) (i : Nat) : Nat :=
  amountAt (books w.host).holdings i

namespace Host.PricesByUnit

open Operation

/-- What is appraised are the holdings of the custody.  They are the upper bounds themselves. -/
theorem appraised (hp : host.PricesByUnit books) {adapter : A} {holdings : List Amount} {tvl : Tvl}
    (h : valuation nested host adapter w = .ok (holdings, tvl) w') :
    holdings = (books w.host).holdings ∧ tvl.upper = (books w.host).holdings ∧
      ∀ i, amountAt tvl.lower i ≤ w.held books i := by
  obtain ⟨w₁, hholdings, _, htvl, _, _⟩ := valuation_ok h
  rw [hp.holdings] at hholdings
  obtain ⟨hanswer, hfirst⟩ := Prod.mk.inj hholdings
  cases hanswer
  subst hfirst
  obtain ⟨answer, s', hscript, _⟩ := hp.tvl adapter (books w.host).holdings w.host
  rw [hscript] at htvl
  obtain rfl : answer = .ok tvl := (Prod.mk.inj htvl).1
  obtain ⟨a, ha⟩ := hp.priced _ _ _ _ _ hscript
  obtain ⟨hupper, hlower⟩ := UnitPriceAdapter.tvl_ok ha
  exact ⟨rfl, hupper, hlower⟩

/-- A deposit into a vault with shares adds what it takes to the holdings, and issues no more shares
than each asset pays for that is more than dust. -/
theorem deposit (hp : host.PricesByUnit books) (hn : nested.Attends)
    (run : DepositRun nested host caller amounts minShares deadline w)
    (hsupply : run.charged.totalSupply ≠ 0) (i : Nat) :
    run.paid.held books i = w.held books i + amountAt run.plan.amounts i ∧
      (amountAt w.vault.config.existentials i ≤ w.held books i →
        run.plan.shares.toNat * w.held books i ≤
          amountAt run.plan.amounts i * run.charged.totalSupply.toNat) := by
  obtain ⟨_, hupper, _⟩ := hp.appraised run.appraises
  obtain ⟨hplan, _⟩ := settleDeposit_ok run.settles
  obtain ⟨hlength, hrate⟩ := planDeposit_ok hsupply hplan
  rw [(run.meanwhile hn).1.vault.config_eq, hupper] at hrate
  rw [hupper] at hlength
  obtain ⟨hpull, _, _⟩ := (hp.pull caller run.plan.amounts run.settled.host).made run.pulls
  rw [hp.settled_books run.appraises run.charges] at hpull
  exact ⟨Custody.pull_ok hlength hpull i, hrate i⟩

/-- It takes nothing of an asset that is dust, if some other asset is more. -/
theorem deposit_dust (hp : host.PricesByUnit books) (hn : nested.Attends)
    (run : DepositRun nested host caller amounts minShares deadline w)
    (hsupply : run.charged.totalSupply ≠ 0) {i j : Nat} (hj : j < w.vault.tokenCount)
    (hdust : w.held books i < amountAt w.vault.config.existentials i)
    (hworth : amountAt w.vault.config.existentials j ≤ w.held books j) :
    amountAt run.plan.amounts i = 0 := by
  obtain ⟨_, hupper, _⟩ := hp.appraised run.appraises
  obtain ⟨_, _, _, _, _, hcount⟩ := valuation_ok run.appraises
  have hcount : w.vault.tokenCount = run.tvl.upper.length := hcount
  obtain ⟨hplan, _⟩ := settleDeposit_ok run.settles
  rw [(run.meanwhile hn).1.vault.config_eq] at hplan
  refine planDeposit_dust hsupply hplan ?_ (by omega : j < run.tvl.upper.length) ?_
  · rw [hupper]
    exact hdust
  · rw [hupper]
    exact hworth

/-- A withdrawal takes what it pays from the holdings, and pays no more of any asset than its shares
are worth. -/
theorem withdraw (hp : host.PricesByUnit books)
    (run : WithdrawalRun nested host caller shares minAmounts recipient w) (i : Nat) :
    run.paid.held books i + amountAt run.amounts i = w.held books i ∧
      amountAt run.amounts i * run.charged.totalSupply.toNat ≤ w.held books i * shares.toNat := by
  obtain ⟨hholdings, _, hlower⟩ := hp.appraised run.appraises
  obtain ⟨hplan, _⟩ := settleWithdrawal_ok run.settles
  obtain ⟨hlength, hrate⟩ := planWithdraw_ok hplan
  rw [hholdings] at hlength
  obtain ⟨hrelease, _, _⟩ := (hp.release recipient run.amounts run.settled.host).made run.releases
  rw [hp.settled_books run.appraises run.charges] at hrelease
  have hworth : amountAt run.amounts i * run.charged.totalSupply.toNat ≤
      w.held books i * shares.toNat :=
    Nat.le_trans (hrate i).2 (Nat.mul_le_mul_right _ (hlower i))
  exact ⟨Custody.release_ok hlength hrelease i, hworth⟩

end Host.PricesByUnit

/-! ### The result -/

/-- Nobody who keeps their shares is diluted by others.  A withdrawal leaves no less of any asset
for each share than there was once its fees were charged.  So does a deposit into a vault with
shares, of every asset that was more than dust; of dust it takes nothing, if some other asset is
more. -/
theorem no_dilution (hp : host.PricesByUnit books) (hw : Reachable host w) :
    (∀ caller shares minAmounts recipient reply w',
      perform host (.withdraw caller shares minAmounts recipient) w = (.ok reply, w') →
      ∃ fees charged,
        Call.charge? host w (.withdraw caller shares minAmounts recipient) =
          some (fees, charged) ∧
        ∀ i, Undiluted (w.held books i) charged.totalSupply.toNat (w'.held books i)
          w'.vault.state.ledger.totalSupply.toNat) ∧
    (∀ caller amounts minShares deadline reply w',
      perform host (.deposit caller amounts minShares deadline) w = (.ok reply, w') →
      ∃ fees charged,
        Call.charge? host w (.deposit caller amounts minShares deadline) =
          some (fees, charged) ∧
        (0 < charged.totalSupply →
          (∀ i, amountAt w.vault.config.existentials i ≤ w.held books i →
            Undiluted (w.held books i) charged.totalSupply.toNat (w'.held books i)
              w'.vault.state.ledger.totalSupply.toNat) ∧
          ∀ i j, j < w.vault.tokenCount →
            w.held books i < amountAt w.vault.config.existentials i →
            amountAt w.vault.config.existentials j ≤ w.held books j →
            w'.held books i = w.held books i)) := by
  refine ⟨?withdraw, ?deposit⟩
  case withdraw =>
    intro caller shares minAmounts recipient reply w' h
    obtain ⟨_, run, _, rfl⟩ := Operation.withdraw_ok (perform_eq_ok.mp h)
    refine ⟨run.fees, run.charged, run.charge?_eq (congrArg Prod.fst h), fun i => ?_⟩
    obtain ⟨_, hburn⟩ := Operation.settleWithdrawal_ok run.settles
    obtain ⟨value, hcharges, _⟩ := Operation.charge_ok run.charges
    have hsound := (chargeFees_ok hcharges).sound hw.sound.ledger
    have hsupply := ShareLedger.supply_of_burn hsound hburn
    obtain ⟨hheld, hworth⟩ := hp.withdraw run i
    exact .withdraw hheld hsupply hworth
  case deposit =>
    intro caller amounts minShares deadline reply w' h
    obtain ⟨_, run, _, rfl⟩ := Operation.deposit_ok (perform_eq_ok.mp h)
    refine ⟨run.fees, run.charged, run.charge?_eq (congrArg Prod.fst h), fun hpos => ?_⟩
    have hsupply : run.charged.totalSupply ≠ 0 := by
      intro hzero
      rw [hzero] at hpos
      exact Nat.lt_irrefl _ hpos
    have hn := nested_attends host
    obtain ⟨_, _, _, hmint⟩ := Operation.settleDeposit_ok run.settles
    refine ⟨fun i hworth => ?_, fun i j hj hdust hworth => ?_⟩
    · obtain ⟨hheld, hrate⟩ := hp.deposit hn run hsupply i
      show Undiluted _ _ (run.paid.held books i) run.ledger.totalSupply.toNat
      rw [hheld, ShareLedger.supply_of_mint hmint]
      exact .deposit (hrate hworth)
    · obtain ⟨hheld, _⟩ := hp.deposit hn run hsupply i
      rw [hp.deposit_dust hn run hsupply hj hdust hworth, Nat.add_zero] at hheld
      exact hheld

end Units

/-! ### A vault of two assets -/

namespace PairVault

/-- Two assets, which are dust below ten units, beside each other. -/
def config : VaultConfig := ⟨["eur", "usd"], [.saturate 128 10, .saturate 128 10], .default⟩

/-- The surroundings after some years, with this much of the assets in the vault, and with an
account.  The haircut on lower bounds is a hundredth. -/
def surroundings (years : Nat) (holdings : List Nat) (account : Account) (wallet : List Nat) :
    InMemory where
  clock := ⟨.saturate 64 (years * secondsPerYear)⟩
  custody := ⟨2, holdings.map (.saturate 128), .ofList [(account, wallet.map (.saturate 128))]⟩
  adapters := [.atPar "par" 2 100]

def vault : Vault Handle :=
  .ofParts ⟨0⟩ config
    ⟨.new 0, .new SmallVault.schedule, .withAdmin "admin", .default, .unlimited, false, ∅⟩
    [("par", ⟨"par", 0⟩)]

/-- The vault when it is new, and Alice has a thousand units of both assets. -/
def start : World InMemory Handle :=
  ⟨vault, .empty, surroundings 0 [0, 0] "alice" [1000, 1000]⟩

theorem created : Vault.create ⟨0⟩ config "admin" SmallVault.schedule
    (InMemory.host.reference ⟨"par", 0⟩, ⟨"par", 0⟩) (InMemory.host.now start.host) =
      .ok vault := rfl

/-- Alice has deposited everything.  A year has gone by and most of the second asset is lost, when
Bob comes. -/
def bobArrives : World InMemory Handle :=
  play InMemory.host start
    [.call (.deposit "alice" [.saturate 128 1000, .saturate 128 1000] 0 0),
      .outside (surroundings 1 [1000, 5] "bob" [70, 70])]

theorem reachable : Reachable InMemory.host bobArrives := (Reachable.create created).play _

/-- Bob deposits seventy units of both assets. -/
def bobDeposits : Call Handle :=
  .deposit "bob" [.saturate 128 70, .saturate 128 70] 0 (.largest 64)

def bobDeposited : Outcome × World InMemory Handle := perform InMemory.host bobDeposits bobArrives

/-- Alice withdraws a hundred shares. -/
def aliceWithdraws : Call Handle := .withdraw "alice" (.saturate 128 100) [0, 0] "alice"

def aliceWithdrew : Outcome × World InMemory Handle :=
  perform InMemory.host aliceWithdraws bobArrives

end PairVault

open PairVault in
/-- Bob's deposit keeps what a share stands for of the first asset, and leaves the second one, which
is dust, alone.  Alice's withdrawal pays less than a hundred shares are worth. -/
theorem no_dilution_pair :
    bobDeposited.1 = .ok (.deposited (.saturate 128 77) [.saturate 128 70, 0]) ∧
    (∃ fees charged, bobDeposits.charge? InMemory.host bobArrives = some (fees, charged) ∧
      Undiluted (bobArrives.held InMemory.custody 0) charged.totalSupply.toNat
        (bobDeposited.2.held InMemory.custody 0)
        bobDeposited.2.vault.state.ledger.totalSupply.toNat ∧
      bobDeposited.2.held InMemory.custody 1 = bobArrives.held InMemory.custody 1) ∧
    aliceWithdrew.1 = .ok (.withdrawn [.saturate 128 90, 0]) ∧
    ∃ fees charged, aliceWithdraws.charge? InMemory.host bobArrives = some (fees, charged) ∧
      ∀ i, Undiluted (bobArrives.held InMemory.custody i) charged.totalSupply.toNat
        (aliceWithdrew.2.held InMemory.custody i)
        aliceWithdrew.2.vault.state.ledger.totalSupply.toNat := by
  have hdeposited : bobDeposited.1 = .ok (.deposited (.saturate 128 77) [.saturate 128 70, 0]) :=
    rfl
  have hwithdrew : aliceWithdrew.1 = .ok (.withdrawn [.saturate 128 90, 0]) := rfl
  obtain ⟨hwithdraw, hdeposit⟩ := no_dilution InMemory.pricesByUnit PairVault.reachable
  refine ⟨hdeposited, ?_, hwithdrew, hwithdraw _ _ _ _ _ _ (Prod.ext hwithdrew rfl)⟩
  obtain ⟨fees, charged, hcharge, hshares⟩ := hdeposit _ _ _ _ _ _ (Prod.ext hdeposited rfl)
  have hsupply : 0 < charged.totalSupply := by
    have hbefore : 0 < bobArrives.vault.state.ledger.totalSupply.toNat := by decide +kernel
    obtain ⟨_, _, _, _, hcharges⟩ := Call.charge?_eq_some hcharge
    exact Word.lt_def.mpr (Nat.lt_of_lt_of_le hbefore hcharges.supply_le)
  obtain ⟨hworth, hdust⟩ := hshares hsupply
  refine ⟨fees, charged, hcharge, hworth 0 ?_, hdust 1 0 ?_ ?_ ?_⟩
  · decide +kernel
  · decide +kernel
  · decide +kernel
  · decide +kernel

end ShareVault
