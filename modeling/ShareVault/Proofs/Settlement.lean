import ShareVault.Proofs.Assets
import ShareVault.Proofs.Dilution
import ShareVault.Proofs.Preview

/-!
# What a deposit and a withdrawal come to

A deposit or a withdrawal charges fees first.  Its plan is made on the ledger after these fees, for
the bounds of what the custody holds at the start, and what it commits and what it pays are just
what the plan says.

* `World.asked_eq`, `toldHoldings_eq` — what outside code answers to a busy vault, and that the
  custody tells what it holds;
* `World.Opens` — how a deposit or a withdrawal opens: what is appraised, and the charge;
* `ShareLedger.Adds`, `Adds.within` — one ledger has some shares more for one account than another,
  within the limits;
* `FirstDeposit`, `planDeposit_first` — the plan of a deposit when there are no shares;
* `DepositEffect`, `deposit_has_exact_effect` — all that a deposit does;
* `WithdrawalEffect`, `withdrawal_has_exact_effect` — all that a withdrawal does.
-/

namespace ShareVault

section Worlds

variable {σ A α : Type} {host : Host σ A} {books : σ → Custody} {w w' : World σ A}

/-! ### How both open -/

namespace World

/-- While a call is in progress, outside code answers what it would answer if its calls got the
replies of a busy vault. -/
theorem asked_eq (w : World σ A) (script : σ → Script σ A α) :
    ((w.mapVault .begin).asked host script).1 =
      ((script w.host).resolve (w.vault.busyReply w.store)).1 := by
  have hlogged : Logged host w ((w.beside []).mapVault .begin) := ⟨rfl, fun e he => by cases he⟩
  obtain ⟨_, hresolved⟩ := hlogged.run (script w.host)
  obtain ⟨hanswer, _⟩ := (script w.host).run_journaled host.nested [] w.vault.begin w.store
  rw [hresolved]
  exact hanswer.symm

/-- A custody tells what it holds. -/
theorem toldHoldings_eq (hc : host.KeepsCustody books) (w : World σ A) :
    (w.toldHoldings host).1 = .ok (books w.host).holdings := by
  have hsilent := (hc (w.vault.busyReply w.store)).holdings w.host
  have hanswer := (Script.answer.inj hsilent).1
  rw [← hanswer]
  exact w.asked_eq host.holdings

/-- How a deposit or a withdrawal opens: by the source of prices in force the holdings have these
bounds, and the charge by the schedule in force, at the lower ones, leads to this ledger. -/
structure Opens (host : Host σ A) (w : World σ A) (adapter : A) (holdings : List Amount) (tvl : Tvl)
    (fees : FeeCharge) (charged : ShareLedger) : Prop where
  source : w.vault.source? = some adapter
  held : (w.toldHoldings host).1 = .ok holdings
  bounds : (w.toldBounds host adapter holdings).1 = .ok tvl
  sized : w.vault.tokenCount = holdings.length ∧ w.vault.tokenCount = tvl.lower.length ∧
    w.vault.tokenCount = tvl.upper.length
  charges : chargeFees w.vault.state.ledger w.vault.state.governance.schedule tvl.lower
    w.vault.config.existentials (fun amounts => (w.toldValue host adapter holdings amounts).1)
    (host.now w.host) = (.ok fees, charged)

variable {adapter : A} {holdings : List Amount} {tvl : Tvl} {fees : FeeCharge}
  {charged : ShareLedger}

/-- Over a custody the holdings are what it holds. -/
theorem Opens.holdings_eq (hc : host.KeepsCustody books)
    (h : w.Opens host adapter holdings tvl fees charged) :
    holdings = (books w.host).holdings := by
  have hheld := h.held
  rw [toldHoldings_eq hc] at hheld
  exact (Except.ok.inj hheld).symm

/-- What an appraisal and the charge after it have gone through. -/
theorem opens_of_charge {priced settled : World σ A} (known : w.vault.source? = some adapter)
    (appraises : Operation.valuation host.nested host adapter (w.mapVault .begin) =
      .ok (holdings, tvl) priced)
    (charges : Operation.charge host.nested host adapter w.vault.state.ledger
      w.vault.state.governance.schedule tvl.lower (host.now w.host) priced =
        .ok (fees, charged) settled) :
    w.Opens host adapter holdings tvl fees charged := by
  obtain ⟨hholdings, hbounds, hheld, hlower, hupper⟩ := Operation.valuation_eq_ok.mp appraises
  obtain ⟨value, hfees, hvalue⟩ := Operation.charge_eq_ok.mp charges
  rw [Operation.valuation_config (nested_attends host) appraises] at hfees hvalue
  refine ⟨known, hholdings, congrArg Prod.fst hbounds, ⟨hheld, hlower, hupper⟩, ?_⟩
  rw [← hfees]
  refine chargeFees_congr fun hasks => ?_
  rw [if_pos hasks] at hvalue
  simp only [toldValue, hbounds]
  exact congrArg Prod.fst hvalue

end World

end Worlds

/-! ### Shares added to an account -/

/-- The second ledger is the first one with some shares more for an account: of these its supply and
the balance of the account have more, and nothing else is different. -/
structure ShareLedger.Adds (l : ShareLedger) (account : Account) (shares : Amount)
    (l' : ShareLedger) : Prop where
  supply : l'.totalSupply.toNat = l.totalSupply.toNat + shares.toNat
  balance : (l'.balanceOf account).toNat = (l.balanceOf account).toNat + shares.toNat
  others : ∀ a, a ≠ account → l'.balances.get? a = l.balances.get? a
  mark : l'.highWaterMark = l.highWaterMark
  time : l'.lastFeeCharge = l.lastFeeCharge

namespace ShareLedger

variable {l l' : ShareLedger} {account : Account} {shares : Amount}

theorem adds_of_mint (h : l.mint account shares = .ok l') : l.Adds account shares l' where
  supply := supply_of_mint h
  balance := by
    have hbalance := balanceOf_of_mint h account
    rw [if_pos rfl] at hbalance
    exact hbalance
  others _ hother := get?_of_mint h hother
  mark := congrArg Prod.fst (marks_of_mint h)
  time := congrArg Prod.snd (marks_of_mint h)

theorem adds_of_burn (hl : l.Sound) (h : l.burn account shares = .ok l') :
    l'.Adds account shares l where
  supply := (supply_of_burn hl h).symm
  balance := by
    have hbalance := balanceOf_of_burn h account
    rw [if_pos rfl] at hbalance
    exact hbalance.symm
  others _ hother := (get?_of_burn h hother).symm
  mark := (congrArg Prod.fst (marks_of_burn h)).symm
  time := (congrArg Prod.snd (marks_of_burn h)).symm

end ShareLedger

/-! ### First deposits -/

/-- What a first deposit gets, and what it has to bring. -/
structure FirstDeposit (existentials amounts : List Amount) (shares : Amount)
    (taken : List Amount) : Prop where
  whole : taken = amounts
  /-- As many shares as the largest amount. -/
  attained : shares ∈ amounts
  greatest : ∀ a ∈ amounts, a ≤ shares
  /-- Ten times the threshold of every asset, or the largest amount there is. -/
  enough : ∀ i, i < existentials.length →
    min (10 * amountAt existentials i) (Word.size 128 - 1) ≤ amountAt amounts i

theorem checkFirstDeposit_ok {index : Nat} {amounts existentials : List Amount}
    (hlength : existentials.length = amounts.length)
    (h : checkFirstDeposit index (amounts.zip existentials) = .ok ()) (i : Nat)
    (hi : i < existentials.length) :
    min (10 * amountAt existentials i) (Word.size 128 - 1) ≤ amountAt amounts i := by
  have ha := List.getElem?_eq_getElem (hlength ▸ hi : i < amounts.length)
  have he := List.getElem?_eq_getElem hi
  have hentry : (amounts.zip existentials)[i]? = some (_, _) :=
    List.getElem?_zip_eq_some.mpr ⟨ha, he⟩
  have hmem := List.mem_of_getElem? hentry
  have hle := Word.le_def.mp ((checkFirstDeposit_eq_ok index).mp h _ hmem)
  rw [Word.toNat_mulSat, Nat.mul_comm] at hle
  rw [amountAt_of_getElem? ha, amountAt_of_getElem? he]
  exact hle

/-- The plan of a deposit when there are no shares. -/
theorem planDeposit_first {upper amounts existentials : List Amount} {supply : Amount}
    {plan : DepositPlan} (hempty : supply = 0)
    (h : planDeposit upper amounts supply existentials = .ok plan) :
    FirstDeposit existentials amounts plan.shares plan.amounts := by
  have hpasses := planDeposit_passes h
  have hpos := hpasses.positive
  have hoffered := hpasses.offered
  have hfirst := hpasses.first hempty
  obtain ⟨provisional, significant, decided, hprovisional, hamounts, hshares⟩ := hpasses.rounds
  simp only [shareAmount, if_pos hempty] at hprovisional hshares
  obtain ⟨_, rfl⟩ := Prod.mk.inj (Except.ok.inj hprovisional)
  obtain rfl : amounts = plan.amounts := Except.ok.inj hamounts
  obtain ⟨hlargest, _⟩ := Prod.mk.inj (Except.ok.inj hshares)
  obtain ⟨hmem, _, hgreatest⟩ := foldl_max_ok plan.amounts 0
  rw [← hlargest] at hpos ⊢
  exact ⟨rfl, hmem.resolve_left hpos, hgreatest, checkFirstDeposit_ok hoffered hfirst⟩

section Effects

variable {σ A : Type} {host : Host σ A} {books : σ → Custody} {w w' : World σ A} {reply : Reply}
  {caller recipient : Account} {assets : Nat} {calls : List CustodyCall}

/-! ### Deposits -/

theorem DepositLimits.check_ok {limits : DepositLimits} {supplyAfter balanceAfter : Amount}
    (h : limits.check supplyAfter balanceAfter = .ok ()) :
    supplyAfter ≤ limits.tokenLimit ∧ balanceAfter ≤ limits.tokenLimitPerAddress := by
  simp only [DepositLimits.check, DepositLimits.check?] at h
  by_cases htotal : limits.tokenLimit < supplyAfter
  · rw [if_pos htotal] at h
    cases h
  rw [if_neg htotal] at h
  by_cases heach : limits.tokenLimitPerAddress < balanceAfter
  · rw [if_pos heach] at h
    cases h
  exact ⟨Nat.not_lt.mp htotal, Nat.not_lt.mp heach⟩

/-- The limits are held against sums that stop at the largest amount.  Where the shares could be
added, these are exact. -/
theorem ShareLedger.Adds.within {l l' : ShareLedger} {shares : Amount} {limits : DepositLimits}
    (h : l.Adds caller shares l')
    (hlimits : limits.check (l.totalSupply.addSat shares) ((l.balanceOf caller).addSat shares) =
      .ok ()) :
    l'.totalSupply ≤ limits.tokenLimit ∧ l'.balanceOf caller ≤ limits.tokenLimitPerAddress := by
  obtain ⟨hsupply, hbalance⟩ := DepositLimits.check_ok hlimits
  have hsupply_lt := l'.totalSupply.lt
  have hbalance_lt := (l'.balanceOf caller).lt
  rw [Word.le_def, Word.toNat_addSat, ← h.supply] at hsupply
  rw [Word.le_def, Word.toNat_addSat, ← h.balance] at hbalance
  constructor
  · rw [Word.le_def]
    omega
  · rw [Word.le_def]
    omega

/-- All that a deposit that succeeds does, when its charge has led to a ledger and the holdings have
these upper bounds. -/
structure DepositEffect (host : Host σ A) (books : σ → Custody) (w : World σ A) (caller : Account)
    (amounts : List Amount) (minShares : Amount) (deadline : Timestamp) (upper : List Amount)
    (charged : ShareLedger) (shares : Amount) (taken : List Amount) (w' : World σ A) : Prop where
  inTime : host.now w.host ≤ deadline
  allowed : w.vault.state.governance.privateVault = true →
    w.vault.state.governance.allowlist.contains caller = true
  /-- The plan is made on the supply after the fees. -/
  planned : planDeposit upper amounts charged.totalSupply w.vault.config.existentials =
    .ok ⟨shares, taken⟩
  floor : max 1 minShares.toNat ≤ shares.toNat
  offered : taken.length = amounts.length ∧ ∀ i, amountAt taken i ≤ amountAt amounts i
  first : charged.totalSupply = 0 →
    FirstDeposit w.vault.config.existentials amounts shares taken
  /-- The shares are added to the ledger after the fees. -/
  issued : charged.Adds caller shares w'.vault.state.ledger
  governance : w'.vault.state.governance = w.vault.state.governance
  supply_le : w'.vault.state.ledger.totalSupply ≤ w.vault.state.governance.limits.tokenLimit
  balance_le : w'.vault.state.ledger.balanceOf caller ≤
    w.vault.state.governance.limits.tokenLimitPerAddress
  /-- What is taken moves from the caller's wallet into the vault. -/
  paid : (books w.host).Moves caller taken (books w'.host)

/-- What a deposit has gone through, but for the payment. -/
theorem Operation.DepositRun.effect {amounts : List Amount} {minShares : Amount}
    {deadline : Timestamp}
    (run : DepositRun host.nested host caller amounts minShares deadline w)
    (hledger : w'.vault.state = { w.vault.state with ledger := run.ledger })
    (hpaid : (books w.host).Moves caller run.plan.amounts (books w'.host)) :
    DepositEffect host books w caller amounts minShares deadline run.tvl.upper run.charged
      run.plan.shares run.plan.amounts w' := by
  have hsettles := run.settles
  rw [(run.meanwhile (nested_attends host)).1.vault.config_eq] at hsettles
  obtain ⟨hplan, hfloor, hlimits, hmint⟩ := settleDeposit_ok hsettles
  have hpasses := planDeposit_passes hplan
  obtain ⟨hlength, hoffered⟩ := hpasses.taken
  have hissued : run.charged.Adds caller run.plan.shares w'.vault.state.ledger := by
    rw [hledger]
    exact ShareLedger.adds_of_mint hmint
  obtain ⟨hsupply, hbalance⟩ := hissued.within hlimits
  refine {
    inTime := Nat.not_lt.mp run.inTime
    allowed := ?_
    planned := hplan
    floor := ?_
    offered := ⟨?_, hoffered⟩
    first := fun hempty => planDeposit_first hempty hplan
    issued := hissued
    governance := by rw [hledger]
    supply_le := hsupply
    balance_le := hbalance
    paid := hpaid }
  · intro hprivate
    have hmay := run.allowed
    rw [VaultGovernance.mayDeposit, hprivate] at hmay
    exact hmay
  · have hshares : run.plan.shares.toNat ≠ 0 := by
      intro hzero
      exact hpasses.positive (Word.ext hzero)
    have hfloor := Nat.not_lt.mp hfloor
    omega
  · rw [hlength, ← hpasses.bounded, hpasses.offered]

/-- A deposit that succeeds, in a vault over a custody that was made empty, comes in time from a
caller that may deposit.  It charges fees, and on the ledger after these it issues and takes what
its plan says: no fewer shares than the caller's floor, no more of an asset than the caller offers,
and within the limits. -/
theorem deposit_has_exact_effect {amounts : List Amount} {minShares : Amount}
    {deadline : Timestamp} (hc : host.KeepsCustody books) (hw : Reachable host w)
    (hmade : books w.host = (Custody.new assets).after calls)
    (h : perform host (.deposit caller amounts minShares deadline) w = (.ok reply, w')) :
    ∃ adapter tvl fees charged shares taken, reply = .deposited shares taken ∧
      w.Opens host adapter (books w.host).holdings tvl fees charged ∧
      DepositEffect host books w caller amounts minShares deadline tvl.upper charged shares taken
        w' := by
  have hhandles := perform_handles hc hw.idle (.deposit caller amounts minShares deadline)
  rw [h] at hhandles
  obtain ⟨shares, taken, hreply, hpulls⟩ := hhandles.deposit
  have hsized : (books w.host).Sized :=
    hmade ▸ Custody.sized_after (Custody.sized_new assets) calls
  obtain ⟨hpaid, _⟩ := Custody.pull_moves hsized hpulls
  obtain ⟨_, run, hdeposited, hcommitted⟩ := Operation.deposit_ok (perform_eq_ok.mp h)
  rw [hreply] at hdeposited
  cases hdeposited
  have hopens := World.opens_of_charge run.known run.appraises run.charges
  rw [hopens.holdings_eq hc] at hopens
  have heffect := run.effect (by rw [hcommitted]; rfl) hpaid
  exact ⟨run.adapter, run.tvl, run.fees, run.charged, _, _, hreply, hopens, heffect⟩

end Effects

namespace PairVault

/-- As when Bob arrives, but the units are with the strategy's treasury. -/
def treasuryArrives : World InMemory Handle :=
  play InMemory.host start
    [.call (.deposit "alice" [.saturate 128 1000, .saturate 128 1000] 0 0),
      .outside (surroundings 1 [1000, 5] "strategy" [70, 70])]

/-- It deposits seventy units of both assets. -/
def treasuryDeposits : Outcome × World InMemory Handle :=
  perform InMemory.host
    (.deposit "strategy" [.saturate 128 70, .saturate 128 70] 0 (.largest 64)) treasuryArrives

/-- It withdraws a hundred shares for Carol. -/
def treasuryWithdraws : Outcome × World InMemory Handle :=
  perform InMemory.host (.withdraw "strategy" (.saturate 128 100) [0, 0] "carol") treasuryArrives

theorem treasuryArrives_reachable : Reachable InMemory.host treasuryArrives :=
  (Reachable.create created).play _

theorem treasuryArrives_custody : treasuryArrives.host.custody =
    (Custody.new 2).after [.donate [.saturate 128 1000, .saturate 128 5],
      .fund "strategy" [.saturate 128 70, .saturate 128 70]] := by decide +kernel

end PairVault

/-- Alice brings everything to the new vault. -/
def SmallVault.openingDeposit : Outcome × World InMemory Handle :=
  perform InMemory.host (.deposit "alice" [.saturate 128 1000] 0 0) start

open PairVault SmallVault in
/-- The treasury gets a hundred shares in the charge and seventy-seven for its deposit.  Alice's
first deposit gets as many shares as it brings units. -/
theorem deposit_has_exact_effect_treasury :
    (∃ adapter tvl fees charged,
      treasuryDeposits.1 = .ok (.deposited (.saturate 128 77) [.saturate 128 70, 0]) ∧
      treasuryArrives.Opens InMemory.host adapter [.saturate 128 1000, .saturate 128 5] tvl fees
        charged ∧
      DepositEffect InMemory.host InMemory.custody treasuryArrives "strategy"
        [.saturate 128 70, .saturate 128 70] 0 (.largest 64) tvl.upper charged (.saturate 128 77)
        [.saturate 128 70, 0] treasuryDeposits.2 ∧
      (charged.balanceOf "strategy").toNat = 100 ∧
      (treasuryDeposits.2.vault.state.ledger.balanceOf "strategy").toNat = 177) ∧
    ∃ adapter tvl fees charged,
      openingDeposit.1 = .ok (.deposited (.saturate 128 1000) [.saturate 128 1000]) ∧
      SmallVault.start.Opens InMemory.host adapter [0] tvl fees charged ∧
      charged.totalSupply = 0 ∧
      FirstDeposit SmallVault.config.existentials [.saturate 128 1000] (.saturate 128 1000)
        [.saturate 128 1000] := by
  constructor
  · have hdeposits :
        treasuryDeposits.1 = .ok (.deposited (.saturate 128 77) [.saturate 128 70, 0]) := rfl
    obtain ⟨adapter, tvl, fees, charged, shares, taken, hreply, hopens, heffect⟩ :=
      deposit_has_exact_effect InMemory.overCustody.keepsCustody treasuryArrives_reachable
        treasuryArrives_custody (Prod.ext hdeposits rfl)
    cases hreply
    have hbalance : (treasuryDeposits.2.vault.state.ledger.balanceOf "strategy").toNat =
        (charged.balanceOf "strategy").toNat + 77 := heffect.issued.balance
    have hcommitted :
        (treasuryDeposits.2.vault.state.ledger.balanceOf "strategy").toNat = 177 := by
      decide +kernel
    exact ⟨adapter, tvl, fees, charged, hdeposits, hopens, heffect, by omega, hcommitted⟩
  · have hdeposits : openingDeposit.1 =
        .ok (.deposited (.saturate 128 1000) [.saturate 128 1000]) := rfl
    have hmade : SmallVault.start.host.custody =
        (Custody.new 1).after [.fund "alice" [.saturate 128 1000]] := by decide +kernel
    obtain ⟨adapter, tvl, fees, charged, shares, taken, hreply, hopens, heffect⟩ :=
      deposit_has_exact_effect InMemory.overCustody.keepsCustody (SmallVault.reachable [])
        hmade (Prod.ext hdeposits rfl)
    cases hreply
    have hsupply : openingDeposit.2.vault.state.ledger.totalSupply.toNat =
        charged.totalSupply.toNat + 1000 := heffect.issued.supply
    have hcommitted : openingDeposit.2.vault.state.ledger.totalSupply.toNat = 1000 := by
      decide +kernel
    have hempty : charged.totalSupply = 0 := by
      apply Word.ext
      rw [Word.toNat_zero]
      omega
    exact ⟨adapter, tvl, fees, charged, hdeposits, hopens, hempty, heffect.first hempty⟩

section Effects

variable {σ A : Type} {host : Host σ A} {books : σ → Custody} {w w' : World σ A} {reply : Reply}
  {caller recipient : Account} {assets : Nat} {calls : List CustodyCall}

/-! ### Withdrawals -/

/-- All that a withdrawal that succeeds does, when its charge has led to a ledger and the holdings
have these bounds. -/
structure WithdrawalEffect (books : σ → Custody) (w : World σ A) (caller : Account)
    (shares : Amount) (minAmounts : List Amount) (recipient : Account) (tvl : Tvl)
    (charged : ShareLedger) (released : List Amount) (w' : World σ A) : Prop where
  positive : 1 ≤ shares.toNat
  owned : shares ≤ charged.balanceOf caller
  /-- Of every asset the part of its lower bound that the shares are of the supply after the fees,
  or all there is. -/
  exact : released.length = (books w.host).holdings.length ∧ ∀ i, amountAt released i =
    min (amountAt tvl.lower i * shares.toNat / charged.totalSupply.toNat)
      (amountAt (books w.host).holdings i)
  floor : ∀ i, amountAt minAmounts i ≤ amountAt released i
  /-- A source of prices with one price a unit never puts the bounds so high that there is less. -/
  uncapped : ∀ a : UnitPriceAdapter, a.tvl (books w.host).holdings = .ok tvl → ∀ i,
    amountAt tvl.lower i * shares.toNat / charged.totalSupply.toNat ≤
      amountAt (books w.host).holdings i
  /-- The shares are taken from the ledger after the fees. -/
  burned : w'.vault.state.ledger.Adds caller shares charged
  governance : w'.vault.state.governance = w.vault.state.governance
  /-- What is released moves from the vault into the recipient's wallet. -/
  paid : (books w'.host).Moves recipient released (books w.host)

/-- A part of a bound, up to all of it, is no more than what the bound is a bound of. -/
theorem UnitPriceAdapter.share_le {a : UnitPriceAdapter} {holdings : List Amount} {tvl : Tvl}
    {shares supply : Nat} (h : a.tvl holdings = .ok tvl) (hle : shares ≤ supply) (i : Nat) :
    amountAt tvl.lower i * shares / supply ≤ amountAt holdings i := by
  obtain ⟨_, hlower⟩ := tvl_ok h
  calc amountAt tvl.lower i * shares / supply
      ≤ amountAt tvl.lower i := part_le hle _
    _ ≤ amountAt holdings i := hlower i

/-- What a withdrawal has gone through, but for the payment. -/
theorem Operation.WithdrawalRun.effect {shares : Amount} {minAmounts : List Amount}
    (run : WithdrawalRun host.nested host caller shares minAmounts recipient w)
    (hsound : run.charged.Sound) (hheld : run.holdings = (books w.host).holdings)
    (hledger : w'.vault.state = { w.vault.state with ledger := run.ledger })
    (hpaid : (books w'.host).Moves recipient run.amounts (books w.host)) :
    WithdrawalEffect books w caller shares minAmounts recipient run.tvl run.charged run.amounts
      w' := by
  obtain ⟨hplan, hburn⟩ := settleWithdrawal_ok run.settles
  rw [hheld] at hplan
  obtain ⟨_, hshares, hlength, hexact⟩ := planWithdraw_exact hplan
  have hburned : w'.vault.state.ledger.Adds caller shares run.charged := by
    rw [hledger]
    exact ShareLedger.adds_of_burn hsound hburn
  have howned : shares.toNat ≤ (run.charged.balanceOf caller).toNat := by
    rw [hburned.balance]
    exact Nat.le_add_left _ _
  refine {
    positive := Nat.pos_of_ne_zero fun hzero => hshares (Word.ext hzero)
    owned := howned
    exact := ⟨hlength, fun i => (hexact i).1⟩
    floor := fun i => (hexact i).2
    uncapped := fun a ha => UnitPriceAdapter.share_le ha ?_
    burned := hburned
    governance := by rw [hledger]
    paid := hpaid }
  exact Nat.le_trans howned (hsound.balanceOf_le caller)

/-- A withdrawal that succeeds, in a vault over a custody that was made empty, charges fees first.
It burns shares that the caller holds by then, and releases to the recipient the part of the lower
bounds that the shares are of the supply by then, as far as the custody holds as much. -/
theorem withdrawal_has_exact_effect {shares : Amount} {minAmounts : List Amount}
    (hc : host.KeepsCustody books) (hw : Reachable host w)
    (hmade : books w.host = (Custody.new assets).after calls)
    (h : perform host (.withdraw caller shares minAmounts recipient) w = (.ok reply, w')) :
    ∃ adapter tvl fees charged released, reply = .withdrawn released ∧
      w.Opens host adapter (books w.host).holdings tvl fees charged ∧
      WithdrawalEffect books w caller shares minAmounts recipient tvl charged released w' := by
  have hhandles := perform_handles hc hw.idle (.withdraw caller shares minAmounts recipient)
  rw [h] at hhandles
  obtain ⟨released, hreply, hreleases⟩ := hhandles.withdraw
  have hsized : (books w.host).Sized :=
    hmade ▸ Custody.sized_after (Custody.sized_new assets) calls
  obtain ⟨hpaid, _⟩ := Custody.release_moves hsized hreleases
  obtain ⟨_, run, hwithdrawn, hcommitted⟩ := Operation.withdraw_ok (perform_eq_ok.mp h)
  rw [hreply] at hwithdrawn
  cases hwithdrawn
  have hopens := World.opens_of_charge run.known run.appraises run.charges
  have hheld := hopens.holdings_eq hc
  rw [hheld] at hopens
  have hsound := (chargeFees_ok hopens.charges).sound hw.sound.ledger
  have heffect := run.effect hsound hheld (by rw [hcommitted]; rfl) hpaid
  exact ⟨run.adapter, run.tvl, run.fees, run.charged, _, hreply, hopens, heffect⟩

end Effects

open PairVault in
/-- The hundred shares that the treasury burns are those it has got in the charge.  Carol gets the
part of the lower bound, and of the second asset, of which there is little, nothing. -/
theorem withdrawal_has_exact_effect_treasury :
    ∃ adapter tvl fees charged,
      treasuryWithdraws.1 = .ok (.withdrawn [.saturate 128 90, 0]) ∧
      treasuryArrives.Opens InMemory.host adapter [.saturate 128 1000, .saturate 128 5] tvl fees
        charged ∧
      WithdrawalEffect InMemory.custody treasuryArrives "strategy" (.saturate 128 100) [0, 0]
        "carol" tvl charged [.saturate 128 90, 0] treasuryWithdraws.2 ∧
      (treasuryArrives.vault.state.ledger.balanceOf "strategy").toNat = 0 ∧
      (charged.balanceOf "strategy").toNat = 100 := by
  have hwithdraws : treasuryWithdraws.1 = .ok (.withdrawn [.saturate 128 90, 0]) := rfl
  obtain ⟨adapter, tvl, fees, charged, released, hreply, hopens, heffect⟩ :=
    withdrawal_has_exact_effect InMemory.overCustody.keepsCustody treasuryArrives_reachable
      treasuryArrives_custody (Prod.ext hwithdraws rfl)
  cases hreply
  have hbalance : (charged.balanceOf "strategy").toNat =
      (treasuryWithdraws.2.vault.state.ledger.balanceOf "strategy").toNat + 100 :=
    heffect.burned.balance
  have hcommitted :
      (treasuryWithdraws.2.vault.state.ledger.balanceOf "strategy").toNat = 0 := by
    decide +kernel
  exact ⟨adapter, tvl, fees, charged, hwithdraws, hopens, heffect, by decide +kernel, by omega⟩

end ShareVault
