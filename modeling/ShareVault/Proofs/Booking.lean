import ShareVault.Proofs.Accounting
import ShareVault.Proofs.Supply

/-!
# What a charge books

A deposit or a withdrawal begins with a charge.  The charge says which shares it has minted, and the
ledger after it differs from the ledger before it by just these, by the mark that the charge says,
and by the fee time if it was not skipped.

* `FeeCharge.minted`, `FeeCharge.mintedFor` — the shares of a charge, in all and for one account;
* `FeeCharge.Books`, `Charges.books` — the ledger before a charge and the ledger after it;
* `Operation.openingCharge`, `Call.charge?` — the charge that a call begins with;
* `DepositRun.charge?_eq`, `WithdrawalRun.charge?_eq`, `Call.charge?_eq_some` — it is the one that
  is committed;
* `Call.Trades`, `Call.Makes`, `Call.makes` — what a call commits: the charge, and its own shares
  after it;
* `perform_marks` — no other call touches the high-water mark or the fee time;
* `FeeCharge.Settles`, `Call.SettlesWith`, `perform_settles` — what a deposit or a withdrawal makes
  of the ledger in all, and its events;
* `Call.ChargesDue`, `perform_charges` — the fees of a priced call are due by the schedule in force.
-/

namespace ShareVault

/-! ### Shares of a charge -/

namespace FeeCharge

/-- All shares of a charge. -/
def minted (c : FeeCharge) : Nat :=
  c.strategyMinted.toNat + c.protocolMinted.toNat + c.performanceMinted.toNat

/-- A charge mints nothing exactly if it mints nothing for any treasury. -/
theorem minted_eq_zero {c : FeeCharge} :
    c.minted = 0 ↔ c.strategyMinted = 0 ∧ c.protocolMinted = 0 ∧ c.performanceMinted = 0 := by
  simp only [minted, ← Word.toNat_inj, Word.toNat_zero]
  omega

/-- The shares of a charge that an account gets.  Treasuries may coincide. -/
def mintedFor (c : FeeCharge) (schedule : FeeSchedule) (a : Account) : Nat :=
  (if a = schedule.strategyTreasury then c.strategyMinted.toNat else 0) +
    (if a = schedule.protocolTreasury then c.protocolMinted.toNat else 0) +
    (if a = schedule.performanceTreasury then c.performanceMinted.toNat else 0)

/-- The second ledger is the first one after a charge at some time. -/
structure Books (c : FeeCharge) (schedule : FeeSchedule) (now : Timestamp)
    (ledger charged : ShareLedger) : Prop where
  supply : charged.totalSupply.toNat = ledger.totalSupply.toNat + c.minted
  balance : ∀ a, (charged.balanceOf a).toNat =
    (ledger.balanceOf a).toNat + c.mintedFor schedule a
  mark : charged.highWaterMark = c.highWaterMark
  time : charged.lastFeeCharge =
    if c.skipped = none then max now ledger.lastFeeCharge else ledger.lastFeeCharge

variable {mark : Amount} {skipped : Option SkipReason}

theorem mintedFor_nothing (schedule : FeeSchedule) (a : Account) :
    (nothing mark skipped).mintedFor schedule a = 0 := by
  simp [nothing, mintedFor]

end FeeCharge

section Ledgers

variable {ledger charged raised : ShareLedger} {schedule : FeeSchedule}
  {lower existentials : List Amount} {appraise : List Amount → Except ValuationError Amount}
  {now : Timestamp} {owed fees : FeeCharge}

namespace Assesses

/-- The performance fee has no say in the shares for time, nor in whether the charge is skipped. -/
theorem owed_eq (h : Assesses ledger schedule lower appraise owed fees raised) :
    fees.strategyMinted = owed.strategyMinted ∧ fees.protocolMinted = owed.protocolMinted ∧
      fees.skipped = owed.skipped := by
  cases h with
  | free rate => exact ⟨rfl, rfl, rfl⟩
  | priced rate appraised perShare growth => exact ⟨rfl, rfl, rfl⟩

/-- The mark of the charge is the mark of the ledger, and no lower than before. -/
theorem mark_eq (h : Assesses ledger schedule lower appraise owed fees raised)
    (howed : owed.highWaterMark = ledger.highWaterMark) :
    raised.highWaterMark = fees.highWaterMark ∧ ledger.highWaterMark ≤ fees.highWaterMark := by
  cases h with
  | free rate =>
    rw [howed]
    exact ⟨rfl, Nat.le_refl _⟩
  | @priced value price minted rate appraised perShare growth =>
    refine ⟨rfl, ?_⟩
    show ledger.highWaterMark ≤ max ledger.highWaterMark price
    rw [Word.le_def, Word.toNat_max]
    exact Nat.le_max_left _ _

end Assesses

namespace Charges

/-- A charge is skipped exactly if it looks at nothing, and says so. -/
theorem skipped_eq_none (h : Charges ledger schedule lower existentials appraise now fees charged) :
    fees.skipped = none ↔ ¬ Accrual.Skips ledger schedule lower existentials now := by
  cases h with
  | skip accrual =>
    refine ⟨fun hnone => ?_, fun hskips => (hskips (Accrual.of_skip accrual)).elim⟩
    cases hnone
  | idle accrual => exact ⟨fun _ => Accrual.not_skips accrual nofun, fun _ => rfl⟩
  | due accrual assesses first second third =>
    exact ⟨fun _ => Accrual.not_skips accrual nofun, fun _ => assesses.owed_eq.2.2⟩

/-- A charge never lowers the mark. -/
theorem mark_le (h : Charges ledger schedule lower existentials appraise now fees charged) :
    ledger.highWaterMark ≤ fees.highWaterMark := by
  cases h with
  | skip accrual => exact Nat.le_refl _
  | idle accrual => exact Nat.le_refl _
  | due accrual assesses first second third => exact (assesses.mark_eq rfl).2

/-- A charge books what it says, and nothing else. -/
theorem books (h : Charges ledger schedule lower existentials appraise now fees charged) :
    fees.Books schedule now ledger charged := by
  cases h with
  | skip accrual =>
    refine ⟨rfl, fun a => ?_, rfl, rfl⟩
    rw [FeeCharge.mintedFor_nothing, Nat.add_zero]
  | idle accrual =>
    refine ⟨rfl, fun a => ?_, rfl, rfl⟩
    rw [FeeCharge.mintedFor_nothing]
    rfl
  | @due strategy protocol fees raised l₁ l₂ l₃ accrual assesses first second third =>
    refine ⟨?_, fun a => ?_, ?_, ?_⟩
    · have hfirst := ShareLedger.supply_of_mint first
      have hsecond := ShareLedger.supply_of_mint second
      have hthird := ShareLedger.supply_of_mint third
      rw [assesses.totalSupply_eq] at hfirst
      show l₃.totalSupply.toNat = _
      unfold FeeCharge.minted
      omega
    · have hfirst := ShareLedger.balanceOf_of_mint first a
      have hsecond := ShareLedger.balanceOf_of_mint second a
      have hthird := ShareLedger.balanceOf_of_mint third a
      rw [assesses.balanceOf_eq] at hfirst
      show (l₃.balanceOf a).toNat = _
      unfold FeeCharge.mintedFor
      omega
    · have hmarks : l₃.marks = raised.marks := by
        rw [ShareLedger.marks_of_mint third, ShareLedger.marks_of_mint second,
          ShareLedger.marks_of_mint first]
      exact (congrArg Prod.fst hmarks).trans (assesses.mark_eq rfl).1
    · have hskipped : fees.skipped = none := assesses.owed_eq.2.2
      rw [if_pos hskipped]
      rfl

end Charges

end Ledgers

/-! ### The charge that a call begins with -/

variable {σ A : Type} {host : Host σ A} {nested : Performer σ A} {w w' : World σ A} {c : Call A}
  {reply : Reply} {fees : FeeCharge} {charged : ShareLedger}

namespace Operation

/-- The charge by the schedule in force, as the source of prices in force appraises the holdings;
with the ledger after it. -/
def openingCharge (nested : Performer σ A) (host : Host σ A) (now : Timestamp) :
    Operation σ A (FeeCharge × ShareLedger) := do
  let state := (← get).vault.state
  let schedule := state.governance.schedule
  let adapter ← adapterOf schedule.valuationReference
  let (_, tvl) ← valuation nested host adapter
  charge nested host adapter state.ledger schedule tvl.lower now

/-- What the opening charge comes to once the call has begun. -/
theorem openingCharge_eq_ok {now : Timestamp} {adapter : A} {holdings : List Amount} {tvl : Tvl}
    {priced settled : World σ A} (hknown : w.vault.source? = some adapter)
    (happraises : valuation nested host adapter (w.mapVault .begin) = .ok (holdings, tvl) priced)
    (hcharges : charge nested host adapter w.vault.state.ledger w.vault.state.governance.schedule
      tvl.lower now priced = .ok (fees, charged) settled) :
    openingCharge nested host now (w.mapVault .begin) = .ok (fees, charged) settled := by
  unfold openingCharge
  rw [Effectful.bind_eq_ok]
  refine ⟨w.mapVault .begin, w.mapVault .begin, rfl, ?_⟩
  rw [Effectful.bind_eq_ok]
  refine ⟨adapter, w.mapVault .begin, adapterOf_eq_ok.mpr ⟨hknown, rfl⟩, ?_⟩
  rw [Effectful.bind_eq_ok]
  exact ⟨(holdings, tvl), priced, happraises, hcharges⟩

/-- The opening charge is a charge on the committed ledger, by some bounds and some value. -/
theorem openingCharge_ok {now : Timestamp} {settled : World σ A}
    (h : openingCharge host.nested host now (w.mapVault .begin) = .ok (fees, charged) settled) :
    ∃ lower value, Charges w.vault.state.ledger w.vault.state.governance.schedule lower
      w.vault.config.existentials (fun _ => value) now fees charged := by
  unfold openingCharge at h
  simp only [Effectful.bind_eq_ok, Effectful.get_eq_ok, adapterOf_eq_ok] at h
  obtain ⟨_, _, ⟨rfl, rfl⟩, adapter, _, ⟨_, rfl⟩, ⟨holdings, tvl⟩, priced, happraises, hcharge⟩ := h
  obtain ⟨value, hcharges, _⟩ := charge_ok hcharge
  rw [valuation_config (nested_attends host) happraises] at hcharges
  exact ⟨tvl.lower, value, chargeFees_ok hcharges⟩

end Operation

/-- The charge of a call with the ledger after it, if the call is a deposit or a withdrawal and
succeeds. -/
def Call.charge? (host : Host σ A) (w : World σ A) (c : Call A) :
    Option (FeeCharge × ShareLedger) :=
  match c.pays, (perform host c w).1,
    Operation.openingCharge host.nested host (host.now w.host) (w.mapVault .begin) with
  | true, .ok _, .ok opening _ => some opening
  | _, _, _ => none

/-- The charge of a turn, if it is such a call. -/
def Turn.charge? (host : Host σ A) (w : World σ A) : Turn σ A → Option (FeeCharge × ShareLedger)
  | .call c => c.charge? host w
  | _ => none

theorem Call.charge?_of_opening {opening : FeeCharge × ShareLedger} {settled : World σ A}
    (hpays : c.pays = true) (hok : (perform host c w).1 = .ok reply)
    (hopening : Operation.openingCharge host.nested host (host.now w.host) (w.mapVault .begin) =
      .ok opening settled) : c.charge? host w = some opening := by
  unfold charge?
  rw [hpays, hok, hopening]

namespace Operation

/-- A deposit that succeeds has made the charge that it begins with. -/
theorem DepositRun.charge?_eq {caller : Account} {amounts : List Amount} {minShares : Amount}
    {deadline : Timestamp}
    (run : DepositRun host.nested host caller amounts minShares deadline w)
    (hok : (perform host (.deposit caller amounts minShares deadline) w).1 = .ok reply) :
    Call.charge? host w (.deposit caller amounts minShares deadline) =
      some (run.fees, run.charged) :=
  Call.charge?_of_opening rfl hok (openingCharge_eq_ok run.known run.appraises run.charges)

/-- So has a withdrawal. -/
theorem WithdrawalRun.charge?_eq {caller recipient : Account} {shares : Amount}
    {minAmounts : List Amount}
    (run : WithdrawalRun host.nested host caller shares minAmounts recipient w)
    (hok : (perform host (.withdraw caller shares minAmounts recipient) w).1 = .ok reply) :
    Call.charge? host w (.withdraw caller shares minAmounts recipient) =
      some (run.fees, run.charged) :=
  Call.charge?_of_opening rfl hok (openingCharge_eq_ok run.known run.appraises run.charges)

end Operation

/-- The charge of a call is the charge that is due on the committed ledger. -/
theorem Call.charge?_eq_some (h : c.charge? host w = some (fees, charged)) :
    c.pays = true ∧ (∃ reply, (perform host c w).1 = .ok reply) ∧
      ∃ lower value, Charges w.vault.state.ledger w.vault.state.governance.schedule lower
        w.vault.config.existentials (fun _ => value) (host.now w.host) fees charged := by
  unfold charge? at h
  split at h
  next reply opening settled hpays hok hopening =>
    cases h
    exact ⟨hpays, ⟨reply, hok⟩, Operation.openingCharge_ok hopening⟩
  next => cases h

/-! ### What a call commits after its charge -/

/-- The second ledger is the first one with the shares that a deposit issues or without those that a
withdrawal burns. -/
inductive Call.Trades (charged ledger : ShareLedger) : Call A → Reply → Prop where
  | deposit {caller : Account} {amounts taken : List Amount} {minShares shares : Amount}
      {deadline : Timestamp} (mints : charged.mint caller shares = .ok ledger) :
      Trades charged ledger (.deposit caller amounts minShares deadline) (.deposited shares taken)
  | withdraw {caller recipient : Account} {shares : Amount} {minAmounts released : List Amount}
      (burns : charged.burn caller shares = .ok ledger) :
      Trades charged ledger (.withdraw caller shares minAmounts recipient) (.withdrawn released)

theorem Call.Trades.marks_eq {ledger : ShareLedger} (h : c.Trades charged ledger reply) :
    ledger.marks = charged.marks := by
  cases h with
  | deposit mints => exact ShareLedger.marks_of_mint mints
  | withdraw burns => exact ShareLedger.marks_of_burn burns

/-- A deposit or a withdrawal that succeeds has a charge, and trades on the ledger after it. -/
theorem Call.charge?_of_ok (hc : c.pays = true) (h : perform host c w = (.ok reply, w')) :
    ∃ fees charged, c.charge? host w = some (fees, charged) ∧
      c.Trades charged w'.vault.state.ledger reply := by
  have hok : (perform host c w).1 = .ok reply := by rw [h]
  cases c with
  | deposit caller amounts minShares deadline =>
    obtain ⟨_, run, rfl, rfl⟩ := Operation.deposit_ok (perform_eq_ok.mp h)
    obtain ⟨_, _, _, hmint⟩ := Operation.settleDeposit_ok run.settles
    exact ⟨run.fees, run.charged, run.charge?_eq hok, .deposit hmint⟩
  | withdraw caller shares minAmounts recipient =>
    obtain ⟨_, run, rfl, rfl⟩ := Operation.withdraw_ok (perform_eq_ok.mp h)
    obtain ⟨_, hburn⟩ := Operation.settleWithdrawal_ok run.settles
    exact ⟨run.fees, run.charged, run.charge?_eq hok, .withdraw hburn⟩
  | _ => cases hc

/-- The call succeeds and makes a charge: it books the charge on the committed ledger, and commits
what its own shares make of the ledger after the charge. -/
structure Call.Makes (host : Host σ A) (w : World σ A) (c : Call A) (fees : FeeCharge)
    (charged : ShareLedger) : Prop where
  books : fees.Books w.vault.state.governance.schedule (host.now w.host) w.vault.state.ledger
    charged
  commits : ∃ reply, (perform host c w).1 = .ok reply ∧
    c.Trades charged (perform host c w).2.vault.state.ledger reply

/-- The charge of a call is made by it. -/
theorem Call.makes (h : c.charge? host w = some (fees, charged)) : c.Makes host w fees charged := by
  obtain ⟨hpays, ⟨reply, hok⟩, lower, value, hcharges⟩ := Call.charge?_eq_some h
  obtain ⟨_, _, hcharge, htrades⟩ := Call.charge?_of_ok hpays (Prod.ext hok rfl)
  rw [h] at hcharge
  cases hcharge
  exact ⟨hcharges.books, reply, hok, htrades⟩

/-- Every other call leaves the marks alone. -/
theorem perform_marks (hc : c.charge? host w = none) :
    (perform host c w).2.vault.state.ledger.marks = w.vault.state.ledger.marks := by
  rcases h : perform host c w with ⟨e | reply, w'⟩
  · show w'.vault.state.ledger.marks = _
    rw [(perform_error h).vault.state_eq]
  · cases hpays : c.pays with
    | true =>
      obtain ⟨fees, charged, hcharge, _⟩ := Call.charge?_of_ok hpays h
      rw [hc] at hcharge
      cases hcharge
    | false =>
      cases c with
      | deposit caller amounts minShares deadline => cases hpays
      | withdraw caller shares minAmounts recipient => cases hpays
      | transfer caller receiver amount =>
        obtain ⟨_, ledger, htransfer, _, rfl⟩ := Operation.transfer_ok (perform_eq_ok.mp h)
        exact ShareLedger.marks_of_transfer htransfer
      | _ => exact congrArg ShareLedger.marks (perform_ledger rfl h)

/-! ### What a deposit or a withdrawal settles -/

/-- The second ledger is the first one after a charge, with some shares more or fewer for a
trader. -/
structure FeeCharge.Settles (c : FeeCharge) (schedule : FeeSchedule) (now : Timestamp)
    (trader : Account) (issued burned : Nat) (ledger ledger' : ShareLedger) : Prop where
  supply : ledger'.totalSupply.toNat + burned = ledger.totalSupply.toNat + c.minted + issued
  balance : ∀ a, (ledger'.balanceOf a).toNat + (if a = trader then burned else 0) =
    (ledger.balanceOf a).toNat + c.mintedFor schedule a + if a = trader then issued else 0
  mark : ledger'.highWaterMark = c.highWaterMark
  time : ledger'.lastFeeCharge =
    if c.skipped = none then max now ledger.lastFeeCharge else ledger.lastFeeCharge

namespace FeeCharge.Books

variable {schedule : FeeSchedule} {now : Timestamp} {ledger charged ledger' : ShareLedger}
  {trader : Account} {shares : Amount}

theorem mint (h : fees.Books schedule now ledger charged)
    (hmint : charged.mint trader shares = .ok ledger') :
    fees.Settles schedule now trader shares.toNat 0 ledger ledger' where
  supply := by
    have hsupply := ShareLedger.supply_of_mint hmint
    have hbefore := h.supply
    omega
  balance a := by
    have hbalance := ShareLedger.balanceOf_of_mint hmint a
    have hbefore := h.balance a
    rw [ite_self]
    omega
  mark := (congrArg Prod.fst (ShareLedger.marks_of_mint hmint)).trans h.mark
  time := (congrArg Prod.snd (ShareLedger.marks_of_mint hmint)).trans h.time

theorem burn (h : fees.Books schedule now ledger charged) (hsound : charged.Sound)
    (hburn : charged.burn trader shares = .ok ledger') :
    fees.Settles schedule now trader 0 shares.toNat ledger ledger' where
  supply := by
    have hsupply := ShareLedger.supply_of_burn hsound hburn
    have hbefore := h.supply
    omega
  balance a := by
    have hbalance := ShareLedger.balanceOf_of_burn hburn a
    have hbefore := h.balance a
    rw [ite_self]
    omega
  mark := (congrArg Prod.fst (ShareLedger.marks_of_burn hburn)).trans h.mark
  time := (congrArg Prod.snd (ShareLedger.marks_of_burn hburn)).trans h.time

end FeeCharge.Books

/-- A deposit or a withdrawal that succeeds, with its outcome and the world after it, and settles
these fees: it says so in an event before its own, and its ledger is the one before after these fees
and its own shares. -/
inductive Call.SettlesWith (host : Host σ A) (w : World σ A) (fees : FeeCharge) :
    Call A → Outcome × World σ A → Prop where
  | deposit {caller : Account} {amounts taken : List Amount} {minShares shares : Amount}
      {deadline : Timestamp} {w' : World σ A}
      (logged : w'.vault.events = w.vault.events.emitAll w.vault.id (host.now w.host)
        [.feesCharged fees.management fees.performanceMinted fees.highWaterMark,
          .deposited caller shares taken])
      (settles : fees.Settles w.vault.state.governance.schedule (host.now w.host) caller
        shares.toNat 0 w.vault.state.ledger w'.vault.state.ledger) :
      SettlesWith host w fees (.deposit caller amounts minShares deadline)
        (.ok (.deposited shares taken), w')
  | withdraw {caller recipient : Account} {shares : Amount} {minAmounts released : List Amount}
      {w' : World σ A}
      (logged : w'.vault.events = w.vault.events.emitAll w.vault.id (host.now w.host)
        [.feesCharged fees.management fees.performanceMinted fees.highWaterMark,
          .withdrawn caller recipient shares released])
      (settles : fees.Settles w.vault.state.governance.schedule (host.now w.host) caller
        0 shares.toNat w.vault.state.ledger w'.vault.state.ledger) :
      SettlesWith host w fees (.withdraw caller shares minAmounts recipient)
        (.ok (.withdrawn released), w')

/-- A deposit or a withdrawal that succeeds settles the fees that are due. -/
theorem perform_settles (hsound : w.vault.state.ledger.Sound) (hpays : c.pays = true)
    (h : perform host c w = (.ok reply, w')) :
    ∃ fees priced, Due host w (host.now w.host) priced fees ∧
      c.SettlesWith host w fees (.ok reply, w') := by
  have hn := nested_attends host
  cases c with
  | deposit caller amounts minShares deadline =>
    obtain ⟨_, run, rfl, rfl⟩ := Operation.deposit_ok (perform_eq_ok.mp h)
    refine ⟨run.fees, run.priced, .intro run.known run.appraises run.charges, .deposit ?_ ?_⟩
    · exact (run.meanwhile hn).2.vault.events_commit _ _ _
    · obtain ⟨value, hcharges, _⟩ := Operation.charge_ok run.charges
      obtain ⟨_, _, _, hmint⟩ := Operation.settleDeposit_ok run.settles
      exact (chargeFees_ok hcharges).books.mint hmint
  | withdraw caller shares minAmounts recipient =>
    obtain ⟨_, run, rfl, rfl⟩ := Operation.withdraw_ok (perform_eq_ok.mp h)
    refine ⟨run.fees, run.priced, .intro run.known run.appraises run.charges, .withdraw ?_ ?_⟩
    · exact (run.meanwhile hn).2.vault.events_commit _ _ _
    · obtain ⟨value, hcharges, _⟩ := Operation.charge_ok run.charges
      obtain ⟨_, hburn⟩ := Operation.settleWithdrawal_ok run.settles
      have hcharged := chargeFees_ok hcharges
      exact hcharged.books.burn (hcharged.sound hsound) hburn
  | _ => cases hpays

/-- A priced call that succeeds, with its outcome and the world after it, and whose fees are those
that are due by the schedule in force: a deposit or a withdrawal settles them, a preview gives
them. -/
inductive Call.ChargesDue (host : Host σ A) (w : World σ A) : Call A → Outcome × World σ A → Prop
  where
  | settles {c : Call A} {reply : Reply} {priced w' : World σ A} {fees : FeeCharge}
      (due : Due host w (host.now w.host) priced fees)
      (settles : c.SettlesWith host w fees (.ok reply, w')) : ChargesDue host w c (.ok reply, w')
  | previews {priced w' : World σ A} {fees : FeeCharge}
      (due : Due host w (host.now priced.host) priced fees) :
      ChargesDue host w .previewFees (.ok (.fees fees), w')

/-- Every priced call that succeeds does so. -/
theorem perform_charges (hsound : w.vault.state.ledger.Sound) (hc : c.priced = true)
    (hok : (perform host c w).1 = .ok reply) : c.ChargesDue host w (perform host c w) := by
  rcases h : perform host c w with ⟨outcome, w'⟩
  rw [h] at hok
  obtain rfl : outcome = .ok reply := hok
  cases hpays : c.pays with
  | true =>
    obtain ⟨fees, priced, hdue, hsettles⟩ := perform_settles hsound hpays h
    exact .settles hdue hsettles
  | false =>
    cases c with
    | previewFees =>
      obtain ⟨_, run, rfl, rfl⟩ := Operation.preview_ok (perform_eq_ok.mp h)
      exact .previews (.intro run.known run.appraises run.charges)
    | deposit caller amounts minShares deadline => cases hpays
    | withdraw caller shares minAmounts recipient => cases hpays
    | _ => cases hc

end ShareVault
