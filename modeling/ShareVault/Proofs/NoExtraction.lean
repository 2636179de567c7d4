import Mathlib.Tactic.Linarith
import ShareVault.Proofs.Dilution

/-!
# No extraction by trading with the vault

An account that trades with a vault alone, and that ends without shares, has not been paid more of
an asset than it has paid.  The proof follows what the account has been paid so far together with
its part of the holdings: at no time are the two more than it has paid.

* `Covered` — that invariant, in numbers, without division;
* `Covered.mint`, `Covered.deposit`, `Covered.withdraw` — each kind of change keeps it;
* `ShareLedger.Even` — the invariant of a ledger, which fees and trades keep;
* `Solo`, `Turn.taken`, `Turn.released` — an account that trades alone, what it pays and is paid;
* `World.Even.turn`, `World.Even.play` — the invariant over a turn and over a run;
* `no_extraction` — the result.
-/

namespace ShareVault

/-! ### The invariant in numbers -/

/-- What an account has been paid of an asset, together with its part of the holdings, is no more
than what it has paid.  All three are taken times the supply. -/
def Covered (paid received supply shares holdings : Nat) : Prop :=
  received * supply + shares * holdings ≤ paid * supply

namespace Covered

variable {paid received supply supply' shares shares' holdings amount minted burned : Nat}

/-- Without shares there is only what was paid and received. -/
theorem received_le (h : Covered paid received supply 0 holdings) (hsupply : 0 < supply) :
    received ≤ paid := by
  unfold Covered at h
  rw [Nat.zero_mul, Nat.add_zero] at h
  exact Nat.le_of_mul_le_mul_right h hsupply

/-- An account that holds less is covered as well. -/
theorem mono (h : Covered paid received supply shares holdings) (hle : shares' ≤ shares) :
    Covered paid received supply shares' holdings := by
  unfold Covered at h ⊢
  have := Nat.mul_le_mul_right holdings hle
  omega

/-- Shares for others make the part of an account smaller. -/
theorem mint (h : Covered paid received supply shares holdings) (hsupply : 0 < supply)
    (hle : supply ≤ supply') : Covered paid received supply' shares holdings := by
  unfold Covered at h ⊢
  obtain ⟨added, rfl⟩ := Nat.exists_eq_add_of_le hle
  have hreceived : received ≤ paid := by
    refine Nat.le_of_mul_le_mul_right ?_ hsupply
    omega
  have hadded := Nat.mul_le_mul_right added hreceived
  rw [Nat.mul_add, Nat.mul_add]
  omega

/-- A deposit that issues no more shares than it pays for.  Times the supply, the two sides differ
by what they differed by before, times the new supply, and by what was paid too much, times the
shares of the others. -/
theorem deposit (h : Covered paid received supply shares holdings) (hsupply : 0 < supply)
    (hshares : shares ≤ supply) (hrate : minted * holdings ≤ amount * supply) :
    Covered (paid + amount) received (supply + minted) (shares + minted) (holdings + amount) := by
  unfold Covered at h ⊢
  refine Nat.le_of_mul_le_mul_right ?_ hsupply
  have hbefore : (received * supply + shares * holdings) * (supply + minted) ≤
      paid * supply * (supply + minted) := Nat.mul_le_mul_right _ h
  obtain ⟨others, rfl⟩ := Nat.exists_eq_add_of_le hshares
  obtain ⟨excess, hexcess⟩ := Nat.exists_eq_add_of_le hrate
  have hothers : 0 ≤ excess * others := Nat.zero_le _
  nlinarith

/-- A withdrawal that pays no more than its shares are worth.  Here the amounts are those that are
left. -/
theorem withdraw
    (h : Covered paid received (supply + burned) (shares + burned) (holdings + amount))
    (hsupply : 0 < supply) (hshares : shares ≤ supply)
    (hrate : amount * (supply + burned) ≤ (holdings + amount) * burned) :
    Covered paid (received + amount) supply shares holdings := by
  unfold Covered at h ⊢
  refine Nat.le_of_mul_le_mul_right ?_ (Nat.add_pos_left hsupply burned)
  obtain ⟨others, rfl⟩ := Nat.exists_eq_add_of_le hshares
  obtain ⟨excess, hexcess⟩ := Nat.exists_eq_add_of_le hrate
  have hbefore := Nat.mul_le_mul_right (shares + others) h
  have hothers : 0 ≤ excess * others := Nat.zero_le _
  nlinarith

end Covered

/-! ### The invariant of a ledger -/

/-- The account `y` has shares, and the account `x` is covered. -/
structure ShareLedger.Even (ledger : ShareLedger) (x y : Account) (paid received holdings : Nat) :
    Prop where
  sound : ledger.Sound
  other : 0 < (ledger.balanceOf y).toNat
  covered : Covered paid received ledger.totalSupply.toNat (ledger.balanceOf x).toNat holdings

namespace ShareLedger.Even

variable {x y receiver : Account} {paid received holdings amount : Nat} {shares : Amount}
  {ledger ledger' : ShareLedger}

theorem supply_pos (h : ledger.Even x y paid received holdings) : 0 < ledger.totalSupply.toNat :=
  Nat.lt_of_lt_of_le h.other (h.sound.balanceOf_le y)

/-- Fees are shares for the treasuries. -/
theorem charge {schedule : FeeSchedule} {lower existentials : List Amount}
    {appraise : List Amount → Except ValuationError Amount} {now : Timestamp} {fees : FeeCharge}
    (h : ledger.Even x y paid received holdings) (hx : schedule.Outsider x)
    (hcharges : Charges ledger schedule lower existentials appraise now fees ledger') :
    ledger'.Even x y paid received holdings where
  sound := hcharges.sound h.sound
  other := Nat.lt_of_lt_of_le h.other (hcharges.balanceOf_le y)
  covered := by
    rw [hcharges.balanceOf_eq hx]
    exact h.covered.mint h.supply_pos hcharges.supply_le

/-- The account gets shares for an amount that pays for them. -/
theorem mint (h : ledger.Even x y paid received holdings)
    (hmint : ledger.mint x shares = .ok ledger')
    (hrate : shares.toNat * holdings ≤ amount * ledger.totalSupply.toNat) :
    ledger'.Even x y (paid + amount) received (holdings + amount) where
  sound := h.sound.mint hmint
  other := by
    rw [ShareLedger.balanceOf_of_mint hmint]
    exact Nat.lt_of_lt_of_le h.other (Nat.le_add_right _ _)
  covered := by
    rw [ShareLedger.supply_of_mint hmint, ShareLedger.balanceOf_of_mint hmint, if_pos rfl]
    exact h.covered.deposit h.supply_pos (h.sound.balanceOf_le x) hrate

/-- The account gives shares for an amount that they are worth. -/
theorem burn (h : ledger.Even x y paid received (holdings + amount)) (hne : y ≠ x)
    (hburn : ledger.burn x shares = .ok ledger')
    (hrate : amount * ledger.totalSupply.toNat ≤ (holdings + amount) * shares.toNat) :
    ledger'.Even x y paid (received + amount) holdings := by
  have hsound := h.sound.burn hburn
  have hsupply := ShareLedger.supply_of_burn h.sound hburn
  have hshares := ShareLedger.balanceOf_of_burn hburn x
  rw [if_pos rfl] at hshares
  have hother : 0 < (ledger'.balanceOf y).toNat := by
    have hsame := ShareLedger.balanceOf_of_burn hburn y
    rw [if_neg hne, Nat.add_zero] at hsame
    rw [hsame]
    exact h.other
  have hcovered := h.covered
  rw [← hsupply, ← hshares] at hcovered
  rw [← hsupply] at hrate
  refine ⟨hsound, hother, ?_⟩
  refine hcovered.withdraw ?_ (hsound.balanceOf_le x) hrate
  exact Nat.lt_of_lt_of_le hother (hsound.balanceOf_le y)

/-- The account gives shares away. -/
theorem transfer (h : ledger.Even x y paid received holdings) (hne : y ≠ x)
    (htransfer : ledger.transfer x receiver shares = .ok ledger') :
    ledger'.Even x y paid received holdings where
  sound := h.sound.transfer htransfer
  other := Nat.lt_of_lt_of_le h.other (ShareLedger.balanceOf_of_transfer_ge htransfer hne)
  covered := by
    rw [ShareLedger.supply_of_transfer htransfer]
    exact h.covered.mono (ShareLedger.balanceOf_of_transfer_le htransfer (.inr rfl))

end ShareLedger.Even

/-! ### Trades -/

/-- What a call that ended in this way has taken of an asset from an account. -/
def Call.taken {A : Type} (x : Account) (i : Nat) : Call A → Outcome → Nat
  | .deposit caller .., .ok (.deposited _ amounts) => if caller = x then amountAt amounts i else 0
  | _, _ => 0

/-- What a call that ended in this way has released of an asset to an account, or for it. -/
def Call.released {A : Type} (x : Account) (i : Nat) : Call A → Outcome → Nat
  | .withdraw caller _ _ recipient, .ok (.withdrawn amounts) =>
    if caller = x ∨ recipient = x then amountAt amounts i else 0
  | _, _ => 0

section Trades

variable {σ A : Type} {host : Host σ A}

/-- What a turn takes of an asset from an account. -/
def Turn.taken (host : Host σ A) (x : Account) (i : Nat) (w : World σ A) : Turn σ A → Nat
  | .call c => c.taken x i (perform host c w).1
  | _ => 0

/-- What a turn releases of an asset to an account, or for it. -/
def Turn.released (host : Host σ A) (x : Account) (i : Nat) (w : World σ A) : Turn σ A → Nat
  | .call c => c.released x i (perform host c w).1
  | _ => 0

end Trades

/-! ### Trades among collaborators in memory -/

/-- An account that is no treasury trades alone: nobody else trades, nothing but trades changes the
holdings, the vault is not replaced, and the asset is more than dust whenever the account
deposits. -/
structure Solo (x : Account) (i : Nat) (w : World InMemory Handle) (t : Turn InMemory Handle) :
    Prop where
  outsider : w.vault.state.governance.schedule.Outsider x
  alone : ∀ c account reply, t = .call c → c.trader? = some account →
    (perform InMemory.host c w).1 = .ok reply → account = x
  undisturbed : ∀ s, t = .outside s → s.custody.holdings = w.host.custody.holdings
  kept : ∀ id adapters, t ≠ .restore id adapters
  significant : ∀ amounts minShares deadline reply,
    t = .call (.deposit x amounts minShares deadline) →
    (perform InMemory.host (.deposit x amounts minShares deadline) w).1 = .ok reply →
    amountAt w.vault.config.existentials i ≤ amountAt w.host.custody.holdings i

theorem Solo.of_call {x : Account} {i : Nat} {w : World InMemory Handle} {c : Call Handle}
    (hx : w.vault.state.governance.schedule.Outsider x) (hc : c.trader? = some x)
    (hworth : amountAt w.vault.config.existentials i ≤ amountAt w.host.custody.holdings i) :
    Solo x i w (.call c) where
  outsider := hx
  alone c' account reply h ht _ := by
    cases h
    rw [hc] at ht
    exact (Option.some.inj ht).symm
  undisturbed s h := by cases h
  kept id adapters h := by cases h
  significant amounts minShares deadline reply _ _ := hworth

theorem Solo.of_outside {x : Account} {i : Nat} {w : World InMemory Handle} {s : InMemory}
    (hx : w.vault.state.governance.schedule.Outsider x)
    (hs : s.custody.holdings = w.host.custody.holdings) : Solo x i w (.outside s) where
  outsider := hx
  alone c account reply h := by cases h
  undisturbed s' h := by
    cases h
    exact hs
  kept id adapters h := by cases h
  significant amounts minShares deadline reply h := by cases h

/-- The invariant of a world. -/
def World.Even (x y : Account) (i paid received : Nat) (w : World InMemory Handle) : Prop :=
  w.vault.state.ledger.Even x y paid received (amountAt w.host.custody.holdings i)

namespace World.Even

open Operation

variable {x y : Account} {i paid received : Nat} {w w' : World InMemory Handle}
  {nested : Performer InMemory Handle}

/-- The ledger after the charge before a trade is even. -/
theorem charged {adapter : Handle} {lower : List Amount} {now : Timestamp} {fees : FeeCharge}
    {charged : ShareLedger} {w₁ w₂ : World InMemory Handle}
    (h : w.Even x y i paid received) (hx : w.vault.state.governance.schedule.Outsider x)
    (hcharges : charge nested InMemory.host adapter w.vault.state.ledger
      w.vault.state.governance.schedule lower now w₁ = .ok (fees, charged) w₂) :
    charged.Even x y paid received (w.held InMemory.custody i) := by
  obtain ⟨value, hcharged, _⟩ := charge_ok hcharges
  exact ShareLedger.Even.charge h hx (chargeFees_ok hcharged)

/-- A deposit adds what it takes to what the account has paid. -/
theorem deposit {amounts : List Amount} {minShares : Amount} {deadline : Timestamp}
    (h : w.Even x y i paid received) (hx : w.vault.state.governance.schedule.Outsider x)
    (hn : nested.Attends)
    (hworth : amountAt w.vault.config.existentials i ≤ amountAt w.host.custody.holdings i)
    (run : DepositRun nested InMemory.host x amounts minShares deadline w) :
    run.ledger.Even x y (paid + amountAt run.plan.amounts i) received
      (amountAt run.paid.host.custody.holdings i) := by
  have hcharged := h.charged hx run.charges
  have hsupply : run.charged.totalSupply ≠ 0 := by
    intro hzero
    have hpos := hcharged.supply_pos
    rw [hzero] at hpos
    exact Nat.lt_irrefl _ hpos
  obtain ⟨_, _, _, hmint⟩ := settleDeposit_ok run.settles
  obtain ⟨hheld, hrate⟩ := InMemory.pricesByUnit.deposit hn run hsupply i
  show run.ledger.Even x y _ received (run.paid.held InMemory.custody i)
  rw [hheld]
  exact hcharged.mint hmint (hrate hworth)

/-- A withdrawal adds what it releases to what the account has received. -/
theorem withdraw {shares : Amount} {minAmounts : List Amount} {recipient : Account}
    (h : w.Even x y i paid received) (hx : w.vault.state.governance.schedule.Outsider x)
    (hne : y ≠ x)
    (run : WithdrawalRun nested InMemory.host x shares minAmounts recipient w) :
    run.ledger.Even x y paid (received + amountAt run.amounts i)
      (amountAt run.paid.host.custody.holdings i) := by
  have hcharged := h.charged hx run.charges
  obtain ⟨_, hburn⟩ := settleWithdrawal_ok run.settles
  obtain ⟨hheld, hrate⟩ := InMemory.pricesByUnit.withdraw run i
  rw [← hheld] at hcharged hrate
  exact hcharged.burn hne hburn hrate

/-- Where neither the ledger nor the custody changes. -/
theorem unchanged (h : w.Even x y i paid received)
    (hledger : w'.vault.state.ledger = w.vault.state.ledger)
    (hholdings : w'.host.custody.holdings = w.host.custody.holdings) :
    w'.Even x y i paid received := by
  unfold World.Even
  rw [hledger, hholdings]
  exact h

/-- A call that succeeds, by its kind. -/
theorem succeeds {c : Call Handle} {reply : Reply} (h : w.Even x y i paid received) (hne : y ≠ x)
    (hsolo : Solo x i w (.call c)) (hc : perform InMemory.host c w = (.ok reply, w')) :
    w'.Even x y i (paid + c.taken x i (.ok reply)) (received + c.released x i (.ok reply)) := by
  have houtcome : (perform InMemory.host c w).1 = .ok reply := by rw [hc]
  have hcustody (hp : c.pays = false) : w'.host.custody = w.host.custody :=
    (InMemory.overCustody.ofCall_custody hp).onOk (perform_eq_ok.mp hc)
  have hneither (hp : c.pays = false) (ht : c.trader? = none) : w'.Even x y i paid received :=
    h.unchanged (perform_ledger ht hc) (congrArg Custody.holdings (hcustody hp))
  cases c with
  | deposit caller amounts minShares deadline =>
    obtain rfl : caller = x := hsolo.alone _ _ _ rfl rfl houtcome
    obtain ⟨_, run, rfl, rfl⟩ := deposit_ok (perform_eq_ok.mp hc)
    have hworth := hsolo.significant _ _ _ _ rfl houtcome
    show run.ledger.Even caller y
      (paid + if caller = caller then amountAt run.plan.amounts i else 0) (received + 0) _
    rw [if_pos rfl]
    exact h.deposit hsolo.outsider (nested_attends _) hworth run
  | withdraw caller shares minAmounts recipient =>
    obtain rfl : caller = x := hsolo.alone _ _ _ rfl rfl houtcome
    obtain ⟨_, run, rfl, rfl⟩ := withdraw_ok (perform_eq_ok.mp hc)
    show run.ledger.Even caller y (paid + 0)
      (received + if caller = caller ∨ recipient = caller then amountAt run.amounts i else 0) _
    rw [if_pos (.inl rfl)]
    exact h.withdraw hsolo.outsider hne run
  | transfer caller receiver amount =>
    obtain rfl : caller = x := hsolo.alone _ _ _ rfl rfl houtcome
    have hsame := hcustody rfl
    obtain ⟨_, ledger, htransfer, rfl, rfl⟩ := transfer_ok (perform_eq_ok.mp hc)
    exact ShareLedger.Even.transfer h hne htransfer
  | _ => exact hneither rfl rfl

/-- One turn. -/
theorem turn {t : Turn InMemory Handle} (hw : Reachable InMemory.host w)
    (h : w.Even x y i paid received) (hne : y ≠ x) (hsolo : Solo x i w t) :
    (t.play InMemory.host w).Even x y i (paid + t.taken InMemory.host x i w)
      (received + t.released InMemory.host x i w) := by
  cases t with
  | outside s => exact h.unchanged rfl (hsolo.undisturbed s rfl)
  | restore id adapters => exact (hsolo.kept id adapters rfl).elim
  | call c =>
    show (perform InMemory.host c w).2.Even x y i
      (paid + c.taken x i (perform InMemory.host c w).1)
      (received + c.released x i (perform InMemory.host c w).1)
    rcases hc : perform InMemory.host c w with ⟨e | reply, w'⟩
    · have hcustody := perform_error_custody InMemory.overCustody hw.idle hc
      have hsame := h.unchanged (congrArg VaultState.ledger (perform_error hc).vault.state_eq)
        (congrArg Custody.holdings hcustody)
      cases c with
      | _ => exact hsame
    · exact h.succeeds hne hsolo hc

/-- A whole run, by induction on its turns. -/
theorem play {turns : List (Turn InMemory Handle)} (hw : Reachable InMemory.host w)
    (h : w.Even x y i paid received) (hne : y ≠ x)
    (hsolo : ∀ p ∈ history InMemory.host w turns, Solo x i p.1 p.2) :
    (ShareVault.play InMemory.host w turns).Even x y i
      (paid + total InMemory.host (Turn.taken InMemory.host x i) w turns)
      (received + total InMemory.host (Turn.released InMemory.host x i) w turns) := by
  induction turns generalizing w paid received with
  | nil => exact h
  | cons t rest ih =>
    have hfirst := h.turn hw hne (hsolo (w, t) List.mem_cons_self)
    have hrest := ih (.turn t hw) hfirst fun p hp => hsolo p (List.mem_cons_of_mem _ hp)
    rw [total_cons, total_cons, ← Nat.add_assoc, ← Nat.add_assoc]
    exact hrest

end World.Even

/-! ### The result -/

/-- An account that is no treasury trades alone, from no shares to no shares, while another account
has some.  It has not been paid more of an asset than it has paid, if the asset was more than dust
at its deposits. -/
theorem no_extraction {x y : Account} {i : Nat} {w : World InMemory Handle}
    {turns : List (Turn InMemory Handle)} (hw : Reachable InMemory.host w) (hne : y ≠ x)
    (hx : w.vault.state.ledger.balanceOf x = 0) (hy : 0 < w.vault.state.ledger.balanceOf y)
    (hsolo : ∀ p ∈ history InMemory.host w turns, Solo x i p.1 p.2)
    (hend : (play InMemory.host w turns).vault.state.ledger.balanceOf x = 0) :
    total InMemory.host (Turn.released InMemory.host x i) w turns ≤
      total InMemory.host (Turn.taken InMemory.host x i) w turns := by
  have hstart : w.Even x y i 0 0 := by
    refine ⟨hw.sound.ledger, Word.lt_def.mp hy, ?_⟩
    unfold Covered
    rw [hx, Word.toNat_zero]
    omega
  have heven := hstart.play hw hne hsolo
  have hcovered := heven.covered
  rw [hend, Word.toNat_zero, Nat.zero_add, Nat.zero_add] at hcovered
  exact hcovered.received_le heven.supply_pos

/-- Alice has deposited, a year has gone by, and Bob has a thousand units. -/
def SmallVault.bobArrives : World InMemory Handle :=
  play InMemory.host start
    [.call (.deposit "alice" [.saturate 128 1000] 0 0),
      .outside { surroundings 1 1000 0 with
        custody := ⟨1, [.saturate 128 1000], .ofList [("bob", [.saturate 128 1000])]⟩ }]

/-- Bob deposits everything. -/
def SmallVault.bobDeposits : Turn InMemory Handle :=
  .call (.deposit "bob" [.saturate 128 1000] 0 (.largest 64))

/-- A year after Bob has deposited. -/
def SmallVault.bobWaits : Turn InMemory Handle := .outside (surroundings 2 2000 0)

/-- Bob withdraws all his shares. -/
def SmallVault.bobWithdraws : Turn InMemory Handle :=
  .call (.withdraw "bob" (.saturate 128 1100) [0] "bob")

def SmallVault.bobTrades : List (Turn InMemory Handle) := [bobDeposits, bobWaits, bobWithdraws]

/-- The vault after Bob's deposit. -/
def SmallVault.bobHolds : World InMemory Handle := bobDeposits.play InMemory.host bobArrives

/-- The vault before Bob's withdrawal. -/
def SmallVault.bobReady : World InMemory Handle := bobWaits.play InMemory.host bobHolds

/-- Bob trades alone, and is no treasury. -/
theorem SmallVault.bob_solo :
    ∀ p ∈ history InMemory.host bobArrives bobTrades, Solo "bob" 0 p.1 p.2 := by
  have hbob : schedule.Outsider "bob" := ⟨by decide, by decide, by decide⟩
  have harrives : bobArrives.vault.state.governance.schedule = schedule := by decide +kernel
  have hholds : bobHolds.vault.state.governance.schedule = schedule := by decide +kernel
  have hready : bobReady.vault.state.governance.schedule = schedule := by decide +kernel
  have hhistory : history InMemory.host bobArrives bobTrades =
      [(bobArrives, bobDeposits), (bobHolds, bobWaits), (bobReady, bobWithdraws)] := rfl
  rw [hhistory, List.forall_mem_cons, List.forall_mem_cons, List.forall_mem_cons]
  refine ⟨?_, ?_, ?_, List.forall_mem_nil _⟩
  · rw [← harrives] at hbob
    refine Solo.of_call hbob rfl ?_
    decide +kernel
  · rw [← hholds] at hbob
    refine Solo.of_outside hbob ?_
    decide +kernel
  · rw [← hready] at hbob
    refine Solo.of_call hbob rfl ?_
    decide +kernel

theorem no_extraction_bob :
    total InMemory.host (Turn.taken InMemory.host "bob" 0) SmallVault.bobArrives
        SmallVault.bobTrades = 1000 ∧
      total InMemory.host (Turn.released InMemory.host "bob" 0) SmallVault.bobArrives
        SmallVault.bobTrades = 909 ∧
      total InMemory.host (Turn.released InMemory.host "bob" 0) SmallVault.bobArrives
          SmallVault.bobTrades ≤
        total InMemory.host (Turn.taken InMemory.host "bob" 0) SmallVault.bobArrives
          SmallVault.bobTrades := by
  have halice : 0 < SmallVault.bobArrives.vault.state.ledger.balanceOf "alice" := by
    decide +kernel
  have hend : (play InMemory.host SmallVault.bobArrives
      SmallVault.bobTrades).vault.state.ledger.balanceOf "bob" = 0 := by
    decide +kernel
  have hstart : SmallVault.bobArrives.vault.state.ledger.balanceOf "bob" = 0 := by decide +kernel
  exact ⟨by decide +kernel, by decide +kernel,
    no_extraction (SmallVault.reachable _) (by decide) hstart halice SmallVault.bob_solo hend⟩

end ShareVault
