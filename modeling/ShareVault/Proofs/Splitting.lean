import Mathlib.Tactic.Linarith
import ShareVault.Proofs.Leaving

/-!
# Splitting a withdrawal

Without fees and without a haircut a withdrawal pays the part of the holdings that its shares are of
the supply, rounded down.  What is lost to the rounding stays in the vault, and pays the withdrawals
that follow a little more.  It never comes back in excess: withdrawals one after another pay no more
than one withdrawal of all their shares, and less by one unit at most for each of them but one.

* `partOf`, `partOf_in_turn` — two parts one after another, against both at once;
* `Charges.of_free`, `UnitPriceAdapter.lower_eq` — no fee, and no haircut;
* `World.Untaxed`, `World.Draws`, `Untaxed.draws` — one withdrawal, and the vault that it leaves;
* `World.paidInTurn`, `paidInTurn_bounds`, `exists_paidInTurn` — withdrawals one after another;
* `splitting_does_not_pay` — the result.
-/

namespace ShareVault

/-! ### Two parts in numbers -/

/-- The part of an amount that some shares are of a supply. -/
def partOf (held supply shares : Nat) : Nat := held * shares / supply

section Numbers

variable {held held' supply supply' shares more : Nat}

theorem partOf_le (h : shares ≤ supply) : partOf held supply shares ≤ held :=
  part_le h held

theorem partOf_mul_le (held supply shares : Nat) :
    partOf held supply shares * supply ≤ held * shares :=
  Nat.div_mul_le_self _ _

theorem lt_partOf_mul (h : 0 < supply) (held shares : Nat) :
    held * shares < (partOf held supply shares + 1) * supply :=
  (Nat.div_lt_iff_lt_mul h).mp (Nat.lt_succ_self _)

/-- After the first part, what is left per share is more than before, but no more than the rounding
of the first part explains. -/
theorem partOf_in_turn (hheld : held = partOf held supply shares + held')
    (hsupply : supply = shares + supply') (hmore : more ≤ supply') :
    partOf held supply shares + partOf held' supply' more ≤ partOf held supply (shares + more) ∧
      partOf held supply (shares + more) ≤
        partOf held supply shares + partOf held' supply' more + 1 := by
  rcases Nat.eq_zero_or_pos supply' with rfl | hleft
  · obtain rfl := Nat.le_zero.mp hmore
    have hnothing : partOf held' 0 0 = 0 := Nat.div_zero _
    rw [hnothing, Nat.add_zero, Nat.add_zero]
    exact ⟨Nat.le_refl _, Nat.le_add_right _ _⟩
  have hfirst := partOf_mul_le held supply shares
  have hfirst' := lt_partOf_mul (by omega : 0 < supply) held shares
  have hsecond := partOf_mul_le held' supply' more
  have hsecond' := lt_partOf_mul hleft held' more
  have hboth := partOf_mul_le held supply (shares + more)
  have hboth' := lt_partOf_mul (by omega : 0 < supply) held (shares + more)
  generalize partOf held supply shares = first at *
  generalize partOf held' supply' more = second at *
  generalize partOf held supply (shares + more) = both at *
  subst hheld hsupply
  obtain ⟨others, rfl⟩ := Nat.exists_eq_add_of_le hmore
  -- both sides are compared after multiplication by both supplies
  have hpos : 0 < shares + (more + others) := Nat.add_pos_right shares hleft
  constructor
  · have hothers := Nat.mul_le_mul_right others hfirst
    have hsum := Nat.mul_le_mul_right (shares + (more + others)) hsecond
    have hscaled : (first + second) * (shares + (more + others)) * (more + others) ≤
        (first + held') * (shares + more) * (more + others) := by linarith
    have hle := Nat.le_of_mul_le_mul_right hscaled hleft
    exact Nat.lt_succ_iff.mp (Nat.lt_of_mul_lt_mul_right (Nat.lt_of_le_of_lt hle hboth'))
  · have hothers := Nat.mul_le_mul_right others (Nat.le_of_lt hfirst')
    have hsum := Nat.mul_lt_mul_of_pos_right hsecond' hpos
    have hrest := Nat.zero_le ((shares + (more + others)) * more)
    have hscaled : (first + held') * (shares + more) * (more + others) <
        (first + second + 2) * (shares + (more + others)) * (more + others) := by linarith
    have hlt := Nat.lt_of_mul_lt_mul_right hscaled
    exact Nat.lt_succ_iff.mp (Nat.lt_of_mul_lt_mul_right (Nat.lt_of_le_of_lt hboth hlt))

end Numbers

/-! ### No fee and no haircut -/

/-- Without rates a charge mints nothing. -/
theorem Charges.of_free {ledger charged : ShareLedger} {schedule : FeeSchedule}
    {lower existentials : List Amount} {appraise : List Amount → Except ValuationError Amount}
    {now : Timestamp} {fees : FeeCharge}
    (h : Charges ledger schedule lower existentials appraise now fees charged)
    (hfree : schedule.Free) :
    charged.totalSupply = ledger.totalSupply ∧ ∀ a, charged.balanceOf a = ledger.balanceOf a := by
  cases h with
  | skip accrual => exact ⟨rfl, fun _ => rfl⟩
  | idle accrual => exact ⟨rfl, fun _ => rfl⟩
  | due accrual assesses first second third =>
    have hsplit := Accrual.of_due accrual
    rw [splitManagement_of_free hfree] at hsplit
    cases hsplit
    cases assesses with
    | priced rate =>
      rw [hfree.performance] at rate
      exact (Nat.lt_irrefl _ rate).elim
    | free rate =>
      cases (ledger.mint_zero _).symm.trans first
      cases (ledger.mint_zero _).symm.trans second
      cases (ledger.mint_zero _).symm.trans third
      exact ⟨rfl, fun _ => rfl⟩

namespace UnitPriceAdapter

variable {a : UnitPriceAdapter}

theorem kept_eq (h : a.spread = 0) (holding : Nat) : a.kept holding = holding := by
  unfold kept
  rw [h, Word.toNat_zero, Nat.sub_zero, Nat.mul_div_cancel _ (by decide)]

/-- Without a haircut the lower bounds are the holdings. -/
theorem lower_eq (h : a.spread = 0) {holdings lower upper : List Amount}
    (htvl : a.tvl holdings = .ok ⟨lower, upper⟩) : lower = holdings := by
  obtain ⟨_, hlength, hkept⟩ := tvl_exact htvl
  refine List.ext_getElem hlength fun i hi hi' => ?_
  have hat := hkept i
  rw [kept_eq h, amountAt_of_getElem? (List.getElem?_eq_getElem hi),
    amountAt_of_getElem? (List.getElem?_eq_getElem hi')] at hat
  exact Word.ext hat

end UnitPriceAdapter

/-! ### One withdrawal -/

/-- A vault in order, without fees in force and without a haircut. -/
structure World.Untaxed (w : World InMemory Handle) (adapter : UnitPriceAdapter) : Prop
    extends World.InOrder w adapter where
  free : w.vault.state.governance.schedule.Free
  uncut : adapter.spread = 0

/-- The part of the holdings of an asset that some shares are of the supply. -/
def World.partOf (w : World InMemory Handle) (shares i : Nat) : Nat :=
  ShareVault.partOf (amountAt w.host.custody.holdings i) w.vault.state.ledger.totalSupply.toNat
    shares

/-- A withdrawal that somebody asks for. -/
structure Withdrawal where
  shares : Amount
  minAmounts : List Amount
  recipient : Account

def Withdrawal.call (caller : Account) (x : Withdrawal) : Call Handle :=
  .withdraw caller x.shares x.minAmounts x.recipient

/-- What a withdrawal that releases these amounts does. -/
structure World.Draws (w : World InMemory Handle) (adapter : UnitPriceAdapter) (caller : Account)
    (x : Withdrawal) (released : List Amount) (w' : World InMemory Handle) : Prop where
  untaxed : w'.Untaxed adapter
  tokenCount : w'.vault.tokenCount = w.vault.tokenCount
  exact : ∀ i, amountAt released i = w.partOf x.shares.toNat i
  supply : w.vault.state.ledger.totalSupply.toNat =
    x.shares.toNat + w'.vault.state.ledger.totalSupply.toNat
  balance : (w.vault.state.ledger.balanceOf caller).toNat =
    x.shares.toNat + (w'.vault.state.ledger.balanceOf caller).toNat
  holdings : ∀ i, amountAt w.host.custody.holdings i =
    amountAt released i + amountAt w'.host.custody.holdings i
  wallet : ∀ i, amountAt (w'.host.custody.wallet x.recipient) i =
    amountAt (w.host.custody.wallet x.recipient) i + amountAt released i

section Withdrawals

variable {w w' : World InMemory Handle} {adapter : UnitPriceAdapter} {caller : Account}
  {x : Withdrawal} {released : List Amount}

theorem InMemory.move_ok {m m' : InMemory} {change : Custody → Except CustodyError Custody}
    (h : m.move change = (.ok (), m')) :
    ∃ custody, change m.custody = .ok custody ∧ m' = { m with custody := custody } := by
  unfold move at h
  split at h
  next custody hchange =>
    cases h
    exact ⟨custody, hchange, rfl⟩
  next => cases h

/-- A payment that goes through changes nothing but the custody. -/
theorem InMemory.release_ok {nested : Performer InMemory Handle} {account : Account}
    {amounts : List Amount}
    (h : (host.release account amounts w.host).run nested w.vault w.store = (.ok (), w')) :
    ∃ custody, w.host.custody.release account amounts = .ok custody ∧
      w' = { w with host := { w.host with custody := custody } } := by
  have hmove : ((w.host.move (·.release account amounts)).1,
      { w with host := (w.host.move (·.release account amounts)).2 }) = (.ok (), w') := h
  obtain ⟨hanswer, rfl⟩ := Prod.mk.inj hmove
  obtain ⟨custody, hrelease, hhost⟩ := move_ok (Prod.ext hanswer rfl)
  exact ⟨custody, hrelease, congrArg (World.mk w.vault w.store) hhost⟩

namespace World.Untaxed

/-- Shares are settled at their part of the holdings, and burned. -/
theorem settles (hw : w.Untaxed adapter) {lower : List Amount} {fees : FeeCharge}
    {charged ledger : ShareLedger} {amounts minAmounts : List Amount} {shares : Amount}
    (hbounds : adapter.tvl w.host.custody.holdings = .ok ⟨lower, w.host.custody.holdings⟩)
    (hcharges : w.chargeOn adapter lower = (.ok fees, charged))
    (hsettles : settleWithdrawal charged lower w.host.custody.holdings caller shares minAmounts =
      .ok (ledger, amounts)) :
    (∀ i, amountAt amounts i = w.partOf shares.toNat i) ∧
      w.vault.state.ledger.totalSupply.toNat = shares.toNat + ledger.totalSupply.toNat ∧
      (w.vault.state.ledger.balanceOf caller).toNat =
        shares.toNat + (ledger.balanceOf caller).toNat := by
  obtain rfl := UnitPriceAdapter.lower_eq hw.uncut hbounds
  have hcharges := chargeFees_ok hcharges
  obtain ⟨hsupply, hbalance⟩ := hcharges.of_free hw.free
  obtain ⟨hplan, hburn⟩ := Operation.settleWithdrawal_ok hsettles
  have hsupply' := ShareLedger.supply_of_burn (hcharges.sound hw.reached.sound.ledger) hburn
  have hbalance' := ShareLedger.balanceOf_of_burn hburn caller
  rw [if_pos rfl] at hbalance'
  rw [hsupply] at hplan hsupply'
  rw [hbalance] at hbalance'
  obtain ⟨_, _, _, hexact⟩ := planWithdraw_exact hplan
  refine ⟨fun i => ?_, by omega, by omega⟩
  rw [(hexact i).1]
  exact Nat.min_eq_left (partOf_le (by omega))

/-- A withdrawal that succeeds pays its part, and leaves a vault that is still without fees. -/
theorem draws (hw : w.Untaxed adapter)
    (h : perform InMemory.host (x.call caller) w = (.ok (.withdrawn released), w')) :
    w.Draws adapter caller x released w' := by
  obtain ⟨handle, hsource, hadapter⟩ := hw.source
  obtain ⟨lower, hbounds, hlower, hholdings⟩ := hw.exists_bounds
  have hreached : Reachable InMemory.host w' := by
    have hturn := Reachable.turn (.call (x.call caller)) hw.reached
    rw [show (Turn.call (x.call caller)).play InMemory.host w = w' from congrArg Prod.snd h] at hturn
    exact hturn
  obtain ⟨_, run, hreply, hw'⟩ := Operation.withdraw_ok (perform_eq_ok.mp h)
  obtain ⟨source, holdings, tvl, fees, charged, ledger, amounts, priced, settled, paid, _, hknown,
    happraises, hcharges, hsettles, hreleases⟩ := run
  -- nothing that is asked changes anything
  cases hsource.symm.trans hknown
  rw [InMemory.valuation_eq hadapter rfl hbounds hholdings.symm hlower.symm hholdings.symm]
    at happraises
  cases happraises
  rw [InMemory.charge_eq hadapter lower] at hcharges
  rcases hend : w.chargeOn adapter lower with ⟨e | fees', charged'⟩
  · rw [hend] at hcharges
    cases hcharges
  rw [hend] at hcharges
  cases hcharges
  obtain ⟨hexact, hsupply, hbalance⟩ := hw.settles hbounds hend hsettles
  obtain ⟨custody, hrelease, rfl⟩ := InMemory.release_ok hreleases
  obtain ⟨hmoves, hsized⟩ := Custody.release_moves hw.sized hrelease
  cases hreply
  subst hw'
  exact {
    untaxed := {
      reached := hreached
      source := ⟨handle, hsource, hadapter⟩
      prices := hw.prices
      assets := hmoves.assets.symm.trans hw.assets
      sized := hsized
      free := hw.free
      uncut := hw.uncut }
    tokenCount := rfl
    exact := hexact
    supply := hsupply
    balance := hbalance
    holdings := fun i => by rw [hmoves.holdings i, Nat.add_comm]; rfl
    wallet := fun i => (hmoves.wallet i).symm }

/-- A withdrawal without floors goes through, unless the wallet of the recipient overflows. -/
theorem paid_or_uncredited (hw : w.Untaxed adapter) (hfloors : x.minAmounts = w.noFloors)
    (hshares : x.shares ≠ 0) (hheld : x.shares ≤ w.vault.state.ledger.balanceOf caller) :
    (∃ released, (perform InMemory.host (x.call caller) w).1 = .ok (.withdrawn released)) ∨
      (perform InMemory.host (x.call caller) w).1 = .error (.custody .overflow) ∧
        ∃ i, Word.size 128 ≤
          amountAt (w.host.custody.wallet x.recipient) i + w.partOf x.shares.toNat i := by
  obtain ⟨shares, minAmounts, recipient⟩ := x
  obtain rfl : minAmounts = w.noFloors := hfloors
  obtain ⟨amounts, howed, hpaid | ⟨hrefused, i, hoverflow⟩⟩ :=
    (leaving_is_possible hw.toInOrder hshares hheld recipient).2.2 hw.free
  · exact .inl ⟨amounts, hpaid⟩
  · obtain ⟨hbounds, hcharges, hsettles⟩ := howed
    rw [(hw.settles hbounds hcharges hsettles).1] at hoverflow
    exact .inr ⟨hrefused, i, hoverflow⟩

end World.Untaxed

/-! ### Withdrawals one after another -/

/-- What withdrawals pay, one after another; nothing if one of them is refused. -/
def World.paidInTurn (w : World InMemory Handle) (caller : Account) :
    List Withdrawal → Option (List (List Amount))
  | [] => some []
  | x :: rest =>
    match perform InMemory.host (x.call caller) w with
    | (.ok (.withdrawn released), w') => (w'.paidInTurn caller rest).map (released :: ·)
    | _ => none

/-- The shares of some withdrawals. -/
def sharesOf (xs : List Withdrawal) : Nat := (xs.map (·.shares.toNat)).sum

/-- What is paid of an asset in all. -/
def paidOf (paid : List (List Amount)) (i : Nat) : Nat := (paid.map (amountAt · i)).sum

variable {xs : List Withdrawal} {paid : List (List Amount)}

/-- The first of some withdrawals has gone through, and the others after it. -/
theorem World.paidInTurn_cons (h : w.paidInTurn caller (x :: xs) = some paid) :
    ∃ released w' rest, perform InMemory.host (x.call caller) w = (.ok (.withdrawn released), w') ∧
      w'.paidInTurn caller xs = some rest ∧ paid = released :: rest := by
  unfold paidInTurn at h
  split at h
  next released w' hfirst =>
    obtain ⟨rest, hrest, rfl⟩ := Option.map_eq_some_iff.mp h
    exact ⟨released, w', rest, hfirst, hrest, rfl⟩
  next => cases h

/-- A withdrawal and those after it pay about what one withdrawal pays, if those after it do. -/
theorem World.Draws.partOf_in_turn (h : w.Draws adapter caller x released w')
    {more : Nat} (hmore : more ≤ w'.vault.state.ledger.totalSupply.toNat) (i : Nat) :
    amountAt released i + w'.partOf more i ≤ w.partOf (x.shares.toNat + more) i ∧
      w.partOf (x.shares.toNat + more) i ≤ amountAt released i + w'.partOf more i + 1 := by
  have hheld := h.holdings i
  rw [h.exact i] at hheld ⊢
  exact ShareVault.partOf_in_turn hheld h.supply hmore

namespace World.Untaxed

/-- Withdrawals one after another pay what one withdrawal of all their shares would, or less by one
unit at most for each of them but one. -/
theorem paidInTurn_bounds (hw : w.Untaxed adapter) (hne : xs ≠ [])
    (h : w.paidInTurn caller xs = some paid) :
    sharesOf xs ≤ w.vault.state.ledger.totalSupply.toNat ∧
      ∀ i, paidOf paid i ≤ w.partOf (sharesOf xs) i ∧
        w.partOf (sharesOf xs) i ≤ paidOf paid i + (xs.length - 1) := by
  induction xs generalizing w paid with
  | nil => exact (hne rfl).elim
  | cons x xs ih =>
    obtain ⟨released, w', rest, hfirst, hrest, rfl⟩ := World.paidInTurn_cons h
    have hdraws := hw.draws hfirst
    have hsupply := hdraws.supply
    cases xs with
    | nil =>
      cases hrest
      refine ⟨?_, fun i => ?_⟩
      · show x.shares.toNat + 0 ≤ _
        omega
      · show amountAt released i + 0 ≤ w.partOf (x.shares.toNat + 0) i ∧
          w.partOf (x.shares.toNat + 0) i ≤ amountAt released i + 0 + 0
        rw [hdraws.exact i]
        exact ⟨Nat.le_refl _, Nat.le_refl _⟩
    | cons y ys =>
      obtain ⟨hmore, hbounds⟩ := ih hdraws.untaxed (by simp) hrest
      refine ⟨?_, fun i => ?_⟩
      · show x.shares.toNat + sharesOf (y :: ys) ≤ _
        omega
      · obtain ⟨hle, hge⟩ := Draws.partOf_in_turn hdraws hmore i
        obtain ⟨hrestLe, hrestGe⟩ := hbounds i
        show amountAt released i + paidOf rest i ≤
            w.partOf (x.shares.toNat + sharesOf (y :: ys)) i ∧
          w.partOf (x.shares.toNat + sharesOf (y :: ys)) i ≤
            amountAt released i + paidOf rest i + (ys.length + 1)
        rw [List.length_cons, Nat.add_sub_cancel] at hrestGe
        omega

/-- If the wallet of the recipient has room for what one withdrawal pays, all of the withdrawals go
through.  What the first one pays takes no more room than it leaves to the others. -/
theorem exists_paidInTurn (hw : w.Untaxed adapter) {recipient : Account}
    (hxs : ∀ x ∈ xs, x.shares ≠ 0 ∧ x.minAmounts = w.noFloors ∧ x.recipient = recipient)
    (hheld : sharesOf xs ≤ (w.vault.state.ledger.balanceOf caller).toNat)
    (hroom : ∀ i, amountAt (w.host.custody.wallet recipient) i + w.partOf (sharesOf xs) i <
      Word.size 128) :
    ∃ paid, w.paidInTurn caller xs = some paid := by
  induction xs generalizing w with
  | nil => exact ⟨[], rfl⟩
  | cons x xs ih =>
    obtain ⟨⟨hshares, hfloors, rfl⟩, hxs⟩ := List.forall_mem_cons.mp hxs
    have hheld : x.shares.toNat + sharesOf xs ≤ (w.vault.state.ledger.balanceOf caller).toNat :=
      hheld
    have hroom : ∀ i, amountAt (w.host.custody.wallet x.recipient) i +
        w.partOf (x.shares.toNat + sharesOf xs) i < Word.size 128 := hroom
    have hfirst : x.shares ≤ w.vault.state.ledger.balanceOf caller :=
      Nat.le_trans (Nat.le_add_right _ _) hheld
    rcases hw.paid_or_uncredited hfloors hshares hfirst with ⟨released, hpaid⟩ | ⟨_, i, hoverflow⟩
    · rcases hend : perform InMemory.host (x.call caller) w with ⟨outcome, w'⟩
      obtain rfl : outcome = .ok (.withdrawn released) := by rw [← hpaid, hend]
      have hdraws := hw.draws hend
      have hbalance := hdraws.balance
      have hrest : sharesOf xs ≤ (w'.vault.state.ledger.balanceOf caller).toNat := by omega
      have hmore : sharesOf xs ≤ w'.vault.state.ledger.totalSupply.toNat :=
        Nat.le_trans hrest (hdraws.untaxed.reached.sound.ledger.balanceOf_le caller)
      have hplain : ∀ y ∈ xs, y.shares ≠ 0 ∧ y.minAmounts = w'.noFloors ∧
          y.recipient = x.recipient := by
        unfold World.noFloors
        rw [hdraws.tokenCount]
        exact hxs
      have hleft : ∀ i, amountAt (w'.host.custody.wallet x.recipient) i +
          w'.partOf (sharesOf xs) i < Word.size 128 := by
        intro i
        have hwallet := hdraws.wallet i
        have hboth := (hdraws.partOf_in_turn hmore i).1
        have hall := hroom i
        omega
      obtain ⟨rest, hrest⟩ := ih hdraws.untaxed hplain hrest hleft
      refine ⟨released :: rest, ?_⟩
      unfold World.paidInTurn
      rw [hend]
      show (w'.paidInTurn caller xs).map _ = _
      rw [hrest]
      rfl
    · have hall := hroom i
      have hmono : w.partOf x.shares.toNat i ≤ w.partOf (x.shares.toNat + sharesOf xs) i :=
        Nat.div_le_div_right (Nat.mul_le_mul_left _ (Nat.le_add_right _ _))
      omega

end World.Untaxed

/-! ### The result -/

/-- In a vault without fees in force, whose source of prices has no haircut, somebody gives shares
back in parts.  Without floors one withdrawal of all of them goes through, unless the wallet of the
recipient overflows; and if it goes through, so do the parts one after another.  Whatever the floors
and the recipients, parts that go through release no more of an asset than one withdrawal does, and
less by one unit at most for each part but one. -/
theorem splitting_does_not_pay (hw : w.InOrder adapter)
    (hfree : w.vault.state.governance.schedule.Free) (huncut : adapter.spread = 0)
    {parts : List Amount} {whole : Amount} (hparts : parts ≠ []) (hpositive : ∀ p ∈ parts, p ≠ 0)
    (hwhole : whole.toNat = (parts.map Word.toNat).sum)
    (hheld : whole ≤ w.vault.state.ledger.balanceOf caller) :
    (∀ recipient,
      (∃ released paid, (perform InMemory.host (.withdraw caller whole w.noFloors recipient) w).1 =
          .ok (.withdrawn released) ∧
        w.paidInTurn caller (parts.map fun p => ⟨p, w.noFloors, recipient⟩) = some paid) ∨
      (perform InMemory.host (.withdraw caller whole w.noFloors recipient) w).1 =
          .error (.custody .overflow) ∧
        ∃ i, Word.size 128 ≤
          amountAt (w.host.custody.wallet recipient) i + w.partOf whole.toNat i) ∧
      ∀ (minAmounts : List Amount) (recipient : Account) (xs : List Withdrawal)
        (released : List Amount) (paid : List (List Amount)), xs.map (·.shares) = parts →
        (perform InMemory.host (.withdraw caller whole minAmounts recipient) w).1 =
          .ok (.withdrawn released) →
        w.paidInTurn caller xs = some paid →
        ∀ i, paidOf paid i ≤ amountAt released i ∧
          amountAt released i ≤ paidOf paid i + (parts.length - 1) := by
  have hw : w.Untaxed adapter := ⟨hw, hfree, huncut⟩
  have hsum : ∀ xs : List Withdrawal, xs.map (·.shares) = parts → sharesOf xs = whole.toNat := by
    rintro xs rfl
    rw [hwhole, List.map_map]
    rfl
  refine ⟨fun recipient => ?_, fun minAmounts recipient xs released paid hxs hone hpaid i => ?_⟩
  · have hwhole : whole ≠ 0 := by
      obtain ⟨p, rest, rfl⟩ := List.exists_cons_of_ne_nil hparts
      rintro rfl
      rw [List.map_cons, List.sum_cons, Word.toNat_zero] at hwhole
      exact hpositive p List.mem_cons_self (Word.ext (by rw [Word.toNat_zero]; omega))
    let one : Withdrawal := ⟨whole, w.noFloors, recipient⟩
    rcases hw.paid_or_uncredited (x := one) rfl hwhole hheld with ⟨released, hone⟩ | hrefused
    · have hdraws := hw.draws (Prod.ext hone rfl)
      let each := parts.map fun p => (⟨p, w.noFloors, recipient⟩ : Withdrawal)
      have hsum := hsum each (by simp [each, Function.comp_def])
      have hplain : ∀ x ∈ each, x.shares ≠ 0 ∧ x.minAmounts = w.noFloors ∧
          x.recipient = recipient := by
        intro x hx
        obtain ⟨p, hp, rfl⟩ := List.mem_map.mp hx
        exact ⟨hpositive p hp, rfl, rfl⟩
      -- the wallet has had room for the one withdrawal
      have hroom : ∀ i, amountAt (w.host.custody.wallet recipient) i + w.partOf (sharesOf each) i <
          Word.size 128 := by
        intro i
        have hwallet : _ = amountAt (w.host.custody.wallet recipient) i + amountAt released i :=
          hdraws.wallet i
        rw [hsum, ← hdraws.exact i, ← hwallet]
        exact Word.lt _
      obtain ⟨paid, hpaid⟩ := hw.exists_paidInTurn hplain (by rw [hsum]; exact hheld) hroom
      exact .inl ⟨released, paid, hone, hpaid⟩
    · exact .inr hrefused
  · let one : Withdrawal := ⟨whole, minAmounts, recipient⟩
    have hdraws : w.Draws adapter caller one released _ := hw.draws (Prod.ext hone rfl)
    have hne : xs ≠ [] := by
      rintro rfl
      exact hparts hxs.symm
    obtain ⟨_, hbounds⟩ := hw.paidInTurn_bounds hne hpaid
    have hlength : xs.length = parts.length := by rw [← hxs, List.length_map]
    rw [hdraws.exact i, ← hsum xs hxs, ← hlength]
    exact hbounds i

end Withdrawals

namespace SmallVault

/-- Alice has deposited everything, the fee has been waived, and the vault has made five hundred
units more. -/
def inSurplus : World InMemory Handle :=
  play InMemory.host start
    [.call (.deposit "alice" [.saturate 128 1000] 0 0),
      .call (.stage "admin" .managementFee (.rate 0)),
      .outside (surroundings 1 1500 0),
      .call (.commit "admin" .managementFee)]

/-- A share is worth a unit and a half. -/
def oneShare : Withdrawal := ⟨.saturate 128 1, [0], "bob"⟩

theorem inOrder_inSurplus : inSurplus.InOrder (.atPar "par" 1 0) where
  reached := reachable _
  source := ⟨⟨"par", 0⟩, by decide +kernel, rfl⟩
  prices := by decide +kernel
  assets := by decide +kernel
  sized := by
    have hcustody : inSurplus.host.custody = (Custody.new 1).after
        [.donate [.saturate 128 1500], .fund "alice" [0]] := by
      decide +kernel
    rw [hcustody]
    exact Custody.sized_after (Custody.sized_new 1) _

end SmallVault

open SmallVault in
/-- One by one, three shares are paid three units, and together four. -/
theorem splitting_does_not_pay_thirds :
    let paid := [[.saturate 128 1], [.saturate 128 1], [.saturate 128 1]]
    (perform InMemory.host (.withdraw "alice" (.saturate 128 3) [0] "bob") inSurplus).1 =
        .ok (.withdrawn [.saturate 128 4]) ∧
      inSurplus.paidInTurn "alice" [oneShare, oneShare, oneShare] = some paid ∧
      ∀ i, paidOf paid i ≤ amountAt [.saturate 128 4] i ∧
        amountAt [.saturate 128 4] i ≤ paidOf paid i + 2 := by
  intro paid
  have hfree : inSurplus.vault.state.governance.schedule.Free :=
    ⟨by decide +kernel, by decide +kernel, by decide +kernel⟩
  have hheld : .saturate 128 3 ≤ inSurplus.vault.state.ledger.balanceOf "alice" := by
    decide +kernel
  have hone : (perform InMemory.host (.withdraw "alice" (.saturate 128 3) [0] "bob") inSurplus).1 =
      .ok (.withdrawn [.saturate 128 4]) := by
    decide +kernel
  have hpaid : inSurplus.paidInTurn "alice" [oneShare, oneShare, oneShare] = some paid := by
    decide +kernel
  have hsum : (Word.saturate 128 3 : Amount).toNat =
      ([.saturate 128 1, .saturate 128 1, .saturate 128 1].map Word.toNat).sum := by
    decide
  have hsplit := (splitting_does_not_pay inOrder_inSurplus hfree (by decide) (by decide) (by decide)
    hsum hheld).2
  exact ⟨hone, hpaid, hsplit [0] "bob" [oneShare, oneShare, oneShare] _ _ rfl hone hpaid⟩

end ShareVault
