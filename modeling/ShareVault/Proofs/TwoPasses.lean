import Mathlib.Algebra.Order.Floor.Div
import Mathlib.Order.Lattice.Nat
import ShareVault.Proofs.Overflow
import ShareVault.Proofs.Rounding

/-!
# The two passes of a deposit

A deposit is counted in shares, then cut down to what these shares cost, and then counted again.
All three are floored, so the second count may be lower than the first, but not by much: of every
significant asset less than a unit times the supply is lost in between, and the asset that decides
in the end is no smaller than the smallest significant one.  Once the first count is there, nothing
after it can fail for its digits.

* `significantAssets`, `sharesFor` — the assets that decide, and the shares that each of them buys;
* `shareAmount_least`, `exists_shareAmount` — a count is the least of these, and there is one if
  each of these is an amount;
* `undecided_or_decides`, `shareAmount_of_empty` — there may be no such asset, and then the largest
  amount is the count;
* `DepositPlan.accept`, `planDeposit_eq` — the checks at the end, and a plan from its two counts;
* `cost_le_of_le`, `sharesFor_cost_le`, `le_add_of_cost` — what one significant asset loses;
* `TwoPasses`, `exists_cost`, `exists_loss`, `exists_twoPasses` — all that is known of the second
  pass, and `exists_passes`, that there is one in any case;
* `two_passes_of_deposit` — the result;
* `two_passes_of_deposit_scarce` — a plan that loses all that it may.
-/

namespace ShareVault

open Attempt

/-! ### Significant assets -/

/-- The assets of which there is as much as their threshold. -/
def significantAssets (upper existentials : List Amount) : Set Nat :=
  {i | i < upper.length ∧ amountAt existentials i ≤ amountAt upper i}

/-- The shares that the amount of an asset buys, floored. -/
def sharesFor (upper amounts : List Amount) (supply : Amount) (i : Nat) : Nat :=
  amountAt amounts i * supply.toNat / amountAt upper i

section Counts

variable {upper amounts existentials : List Amount} {supply shares t a e : Amount} {decided : Bool}

/-- The amounts side by side are those at a place of all three lists. -/
theorem mem_sideBySide : (t, a, e) ∈ sideBySide upper amounts existentials ↔
    ∃ i : Nat, upper[i]? = some t ∧ amounts[i]? = some a ∧ existentials[i]? = some e := by
  simp only [List.mem_iff_getElem?, sideBySide_getElem?]

theorem significant_of_mem (hmem : (t, a, e) ∈ sideBySide upper amounts existentials)
    (hworth : ¬ t < e) : ∃ i ∈ significantAssets upper existentials,
      amountAt upper i = t.toNat ∧ amountAt amounts i = a.toNat := by
  obtain ⟨i, ht, ha, he⟩ := mem_sideBySide.mp hmem
  obtain ⟨hi, _⟩ := List.getElem?_eq_some_iff.mp ht
  refine ⟨i, ⟨hi, ?_⟩, amountAt_of_getElem? ht, amountAt_of_getElem? ha⟩
  rw [amountAt_of_getElem? ht, amountAt_of_getElem? he]
  exact Nat.not_lt.mp hworth

theorem mem_of_significant (hoffered : existentials.length = amounts.length)
    (hbounded : existentials.length = upper.length) {i : Nat}
    (hi : i ∈ significantAssets upper existentials) :
    ∃ t a e, (t, a, e) ∈ sideBySide upper amounts existentials ∧ ¬ t < e ∧
      amountAt upper i = t.toNat ∧ amountAt amounts i = a.toNat := by
  obtain ⟨hlt, hworth⟩ := hi
  have ht := List.getElem?_eq_getElem hlt
  have ha := List.getElem?_eq_getElem (by omega : i < amounts.length)
  have he := List.getElem?_eq_getElem (by omega : i < existentials.length)
  rw [amountAt_of_getElem? ht, amountAt_of_getElem? he] at hworth
  exact ⟨_, _, _, mem_sideBySide.mpr ⟨i, ht, ha, he⟩, Nat.not_lt.mpr hworth,
    amountAt_of_getElem? ht, amountAt_of_getElem? ha⟩

theorem bound_ne_zero (hpos : ∀ i ∈ significantAssets upper existentials, 0 < amountAt upper i)
    (hmem : (t, a, e) ∈ sideBySide upper amounts existentials) (hworth : ¬ t < e) : t ≠ 0 := by
  rintro rfl
  obtain ⟨i, hi, hzero, _⟩ := significant_of_mem hmem hworth
  have hbound := hpos i hi
  rw [hzero] at hbound
  exact absurd hbound (Nat.lt_irrefl 0)

/-- There are no shares or dust only, or some asset decides. -/
theorem undecided_or_decides (supply : Amount) (upper existentials : List Amount) :
    (supply = 0 ∨ significantAssets upper existentials = ∅) ∨
      supply ≠ 0 ∧ (significantAssets upper existentials).Nonempty := by
  rw [Set.nonempty_iff_ne_empty, ← not_or]
  exact Classical.em _

/-- Where no asset decides, a basket counts as its largest amount. -/
theorem shareAmount_of_empty (h : supply = 0 ∨ significantAssets upper existentials = ∅) :
    shareAmount upper amounts supply existentials = .ok (largestAmount amounts, false) := by
  unfold shareAmount
  by_cases hsupply : supply = 0
  · exact if_pos hsupply
  rw [if_neg hsupply]
  have hempty := h.resolve_left hsupply
  have hdust : ∀ t a e, (t, a, e) ∈ sideBySide upper amounts existentials → t < e := by
    intro t a e hmem
    refine Classical.byContradiction fun hworth => ?_
    obtain ⟨i, hi, _⟩ := significant_of_mem hmem hworth
    rw [hempty] at hi
    exact hi
  rw [leastShares_of_dust hdust]
  rfl

/-- Where some asset decides, a count is the least number of shares that a significant asset
buys. -/
theorem shareAmount_least (hoffered : existentials.length = amounts.length)
    (hbounded : existentials.length = upper.length) (hsupply : supply ≠ 0)
    (hworth : (significantAssets upper existentials).Nonempty)
    (h : shareAmount upper amounts supply existentials = .ok (shares, decided)) :
    decided = true ∧
      (∀ i ∈ significantAssets upper existentials, 0 < amountAt upper i) ∧
      IsLeast (sharesFor upper amounts supply '' significantAssets upper existentials)
        shares.toNat := by
  unfold shareAmount at h
  rw [if_neg hsupply] at h
  obtain ⟨least, hleast, h⟩ := bind_eq_ok.mp h
  cases least with
  | none =>
    obtain ⟨i, hi⟩ := hworth
    obtain ⟨t, a, e, hmem, hnot, _⟩ := mem_of_significant hoffered hbounded hi
    exact (hnot ((leastShares_none hleast).2 t a e hmem)).elim
  | some s =>
    obtain ⟨rfl, rfl⟩ := Prod.mk.inj (pure_eq_ok.mp h)
    obtain ⟨_, hbelow, hattained⟩ := leastShares_least hleast
    have hall : ∀ i ∈ significantAssets upper existentials,
        0 < amountAt upper i ∧ s.toNat ≤ sharesFor upper amounts supply i := by
      intro i hi
      obtain ⟨t, a, e, hmem, hnot, ht, ha⟩ := mem_of_significant hoffered hbounded hi
      obtain ⟨q, hq, hle⟩ := hbelow t a e hmem hnot
      obtain ⟨hpos, hquotient⟩ := mulDiv_eq_ok.mp hq
      rw [sharesFor, ht, ha, ← hquotient]
      exact ⟨Nat.pos_of_ne_zero fun hzero => hpos (Word.ext hzero), hle⟩
    refine ⟨rfl, fun i hi => (hall i hi).1, ?_, ?_⟩
    · obtain ⟨t, a, e, hmem, hnot, hq⟩ := hattained.resolve_left nofun
      obtain ⟨i, hi, ht, ha⟩ := significant_of_mem hmem hnot
      refine ⟨i, hi, ?_⟩
      rw [sharesFor, ht, ha, (mulDiv_eq_ok.mp hq).2]
    · rintro _ ⟨i, hi, rfl⟩
      exact (hall i hi).2

/-- There is a count if what each significant asset buys is no more than some amount. -/
theorem exists_shareAmount {bound : Amount}
    (h : ∀ i ∈ significantAssets upper existentials,
      0 < amountAt upper i ∧ sharesFor upper amounts supply i ≤ bound.toNat) :
    ∃ count, shareAmount upper amounts supply existentials = .ok count := by
  apply exists_ok_of_failsOnly
  refine shareAmount_failsOnly_of fun t a e hmem hworth => ?_
  obtain ⟨i, hi, ht, ha⟩ := significant_of_mem hmem hworth
  have hle := (h i hi).2
  rw [sharesFor, ht, ha] at hle
  have hne : t ≠ 0 := bound_ne_zero (fun i hi => (h i hi).1) hmem hworth
  obtain ⟨q, hq, _⟩ := exists_mulDiv hne hle
  rw [hq]
  exact failsOnly_ok q

/-- What the shares cost is there if it is no more than what is offered. -/
theorem exists_normalize (hsupply : supply ≠ 0)
    (h : ∀ i ∈ significantAssets upper existentials,
      amountAt upper i * shares.toNat / supply.toNat ≤ amountAt amounts i) :
    ∃ taken, normalize upper amounts shares supply true existentials = .ok taken := by
  apply exists_ok_of_failsOnly
  refine normalize_failsOnly_of fun _ t a e hmem hworth => ?_
  obtain ⟨i, hi, ht, ha⟩ := significant_of_mem hmem hworth
  have hle := h i hi
  rw [ht, ha] at hle
  obtain ⟨q, hq, _⟩ := exists_mulDiv hsupply hle
  rw [hq]
  exact failsOnly_ok q

end Counts

/-- What is checked of a plan in the end: a first deposit brings enough, and there are shares. -/
def DepositPlan.accept (plan : DepositPlan) (supply : Amount) (existentials : List Amount) :
    Except VaultError DepositPlan := do
  if supply = 0 then
    checkFirstDeposit 0 (plan.amounts.zip existentials)
  if plan.shares = 0 then
    throw .zeroShares
  return plan

theorem DepositPlan.accept_of_shares (plan : DepositPlan) {supply : Amount}
    (existentials : List Amount) (hsupply : supply ≠ 0) :
    plan.accept supply existentials =
      if plan.shares = 0 then .error .zeroShares else .ok plan := by
  unfold DepositPlan.accept
  rw [if_neg hsupply]
  rfl

theorem DepositPlan.accept_of_first {plan : DepositPlan} {supply : Amount}
    {existentials : List Amount}
    (hfirst : checkFirstDeposit 0 (plan.amounts.zip existentials) = .ok ()) :
    plan.accept supply existentials =
      if plan.shares = 0 then .error .zeroShares else .ok plan := by
  by_cases hempty : supply = 0
  · simp only [DepositPlan.accept, if_pos hempty, hfirst]
    rfl
  · exact plan.accept_of_shares existentials hempty

/-- Two counts make a plan, if it is accepted. -/
theorem planDeposit_eq {upper requested taken existentials : List Amount}
    {supply provisional shares : Amount} {significant decided : Bool}
    (hoffered : existentials.length = requested.length)
    (hbounded : existentials.length = upper.length)
    (hfirst : shareAmount upper requested supply existentials = .ok (provisional, significant))
    (htaken : normalize upper requested provisional supply significant existentials = .ok taken)
    (hagain : shareAmount upper taken supply existentials = .ok (shares, decided)) :
    planDeposit upper requested supply existentials =
      DepositPlan.accept ⟨shares, taken⟩ supply existentials := by
  simp only [planDeposit, checkLength, if_pos hoffered, if_pos hbounded, hfirst, htaken, hagain,
    mapError_ok, ok_bind, DepositPlan.accept]

/-- Without a first count there is no plan. -/
theorem planDeposit_of_error {upper requested existentials : List Amount} {supply : Amount}
    {e : MathError} (hoffered : existentials.length = requested.length)
    (hbounded : existentials.length = upper.length)
    (hfirst : shareAmount upper requested supply existentials = .error e) :
    planDeposit upper requested supply existentials = .error (.math e) := by
  simp only [planDeposit, checkLength, if_pos hoffered, if_pos hbounded, hfirst, mapError_error]
  rfl

/-! ### What the second pass loses -/

section Losses

variable {bound provisional supply offered : Nat}

/-- What the first count costs of an asset is no more than the amount that buys as much. -/
theorem cost_le_of_le (hbound : 0 < bound) (h : provisional ≤ offered * supply / bound) :
    bound * provisional / supply ≤ offered := by
  apply Nat.div_le_of_le_mul
  rw [Nat.mul_comm bound, Nat.mul_comm supply]
  exact (Nat.le_div_iff_mul_le hbound).mp h

/-- It buys no more than the first count. -/
theorem sharesFor_cost_le : bound * provisional / supply * supply / bound ≤ provisional := by
  apply Nat.div_le_of_le_mul
  exact Nat.div_mul_le_self _ _

/-- It buys as much but for what the flooring of the cost takes: less than the supply, in units of
the bound. -/
theorem le_add_of_cost {loss : Nat} (hbound : 0 < bound) (hsupply : 0 < supply)
    (hloss : supply - 1 ≤ bound * loss) :
    provisional ≤ bound * provisional / supply * supply / bound + loss := by
  have hfloor : bound * provisional ≤ bound * provisional / supply * supply + (supply - 1) := by
    have hlt := Nat.lt_div_mul_add (a := bound * provisional) hsupply
    omega
  rw [← Nat.sub_le_iff_le_add, Nat.le_div_iff_mul_le hbound, Nat.mul_comm, Nat.mul_sub]
  omega

end Losses

/-! ### The second pass -/

/-- What the second pass makes of a first count: what is taken of each asset, and the shares of
that. -/
structure TwoPasses (upper requested existentials : List Amount) (supply provisional : Amount)
    (taken : List Amount) (shares : Amount) : Prop where
  /-- The first count is the least number of shares that a significant asset buys. -/
  first : IsLeast (sharesFor upper requested supply '' significantAssets upper existentials)
    provisional.toNat
  trimmed : normalize upper requested provisional supply true existentials = .ok taken
  counted : shareAmount upper taken supply existentials = .ok (shares, true)
  length : taken.length = upper.length
  dust : ∀ i, amountAt upper i < amountAt existentials i → amountAt taken i = 0
  /-- Of a significant asset is taken what the first count costs, and it is always on offer. -/
  cost : ∀ i ∈ significantAssets upper existentials,
    amountAt taken i = amountAt upper i * provisional.toNat / supply.toNat ∧
      amountAt upper i * provisional.toNat / supply.toNat ≤ amountAt requested i
  /-- So is the second count of what is taken. -/
  second : IsLeast (sharesFor upper taken supply '' significantAssets upper existentials)
    shares.toNat
  le : shares ≤ provisional
  /-- It is lower by no more than the supply, without a share, is of the smallest significant
  asset, rounded up. -/
  loss : ∃ smallest, IsLeast (amountAt upper '' significantAssets upper existentials) smallest ∧
    provisional.toNat ≤ shares.toNat + (supply.toNat - 1) ⌈/⌉ smallest ∧
    (supply.toNat ≤ smallest → provisional.toNat ≤ shares.toNat + 1)

section Deposits

variable {upper requested existentials : List Amount} {supply provisional : Amount}
  {decided : Bool}

/-- What a first count costs can always be taken, and nothing of it is missing in the offer. -/
theorem exists_cost (hoffered : existentials.length = requested.length)
    (hbounded : existentials.length = upper.length) (hsupply : supply ≠ 0)
    (hpos : ∀ i ∈ significantAssets upper existentials, 0 < amountAt upper i)
    (hbuys : ∀ i ∈ significantAssets upper existentials,
      provisional.toNat ≤ sharesFor upper requested supply i) :
    ∃ taken, normalize upper requested provisional supply true existentials = .ok taken ∧
      ∀ i ∈ significantAssets upper existentials,
        amountAt taken i = amountAt upper i * provisional.toNat / supply.toNat ∧
          amountAt upper i * provisional.toNat / supply.toNat ≤ amountAt requested i := by
  have hoffer : ∀ i ∈ significantAssets upper existentials,
      amountAt upper i * provisional.toNat / supply.toNat ≤ amountAt requested i :=
    fun i hi => cost_le_of_le (hpos i hi) (hbuys i hi)
  obtain ⟨taken, htaken⟩ := exists_normalize hsupply hoffer
  refine ⟨taken, htaken, fun i hi => ⟨?_, hoffer i hi⟩⟩
  rw [normalize_exact hoffered hbounded htaken, if_neg (Nat.not_lt.mpr hi.2)]
  exact Nat.min_eq_right (hoffer i hi)

/-- The second count falls short of the first by what the asset loses that decides in the end, and
this is no smaller than the smallest. -/
theorem exists_loss {taken : List Amount} {shares : Amount} (hsupply : supply ≠ 0)
    (hpos : ∀ i ∈ significantAssets upper existentials, 0 < amountAt upper i)
    (hcost : ∀ i ∈ significantAssets upper existentials,
      amountAt taken i = amountAt upper i * provisional.toNat / supply.toNat)
    (hsecond : IsLeast (sharesFor upper taken supply '' significantAssets upper existentials)
      shares.toNat) :
    ∃ smallest, IsLeast (amountAt upper '' significantAssets upper existentials) smallest ∧
      provisional.toNat ≤ shares.toNat + (supply.toNat - 1) ⌈/⌉ smallest ∧
      (supply.toNat ≤ smallest → provisional.toNat ≤ shares.toNat + 1) := by
  have hshares : 0 < supply.toNat := Nat.pos_of_ne_zero fun hzero => hsupply (Word.ext hzero)
  obtain ⟨i, hi, hdecides⟩ := hsecond.1
  obtain ⟨smallest, hsmallest⟩ :
      ∃ smallest, IsLeast (amountAt upper '' significantAssets upper existentials) smallest :=
    ⟨_, isLeast_csInf ⟨_, i, hi, rfl⟩⟩
  -- an asset loses the more the smaller it is, so that the smallest bounds the one that decides
  have hlosses : ∀ loss, supply.toNat - 1 ≤ smallest * loss →
      provisional.toNat ≤ shares.toNat + loss := by
    intro loss hloss
    rw [← hdecides, sharesFor, hcost i hi]
    refine le_add_of_cost (hpos i hi) hshares (Nat.le_trans hloss ?_)
    exact Nat.mul_le_mul_right _ (hsmallest.2 ⟨i, hi, rfl⟩)
  have hpositive : 0 < smallest := by
    obtain ⟨j, hj, hsmall⟩ := hsmallest.1
    rw [← hsmall]
    exact hpos j hj
  refine ⟨smallest, hsmallest, hlosses _ ((ceilDiv_le_iff_le_mul hpositive).mp le_rfl), ?_⟩
  intro hle
  exact hlosses 1 (by omega)

/-- Once there is a first count, the second pass succeeds. -/
theorem exists_twoPasses (hoffered : existentials.length = requested.length)
    (hbounded : existentials.length = upper.length) (hsupply : supply ≠ 0)
    (hworth : (significantAssets upper existentials).Nonempty)
    (hfirst : shareAmount upper requested supply existentials = .ok (provisional, decided)) :
    ∃ taken shares, TwoPasses upper requested existentials supply provisional taken shares := by
  obtain ⟨_, hpos, hleast⟩ := shareAmount_least hoffered hbounded hsupply hworth hfirst
  obtain ⟨taken, htaken, hcost⟩ :=
    exists_cost hoffered hbounded hsupply hpos fun i hi => hleast.2 ⟨i, hi, rfl⟩
  have hlength := length_normalize hoffered hbounded htaken
  have hexact := normalize_exact hoffered hbounded htaken
  -- what is taken buys no more than the first count, so the second has no more digits
  have hagain : ∀ i ∈ significantAssets upper existentials,
      sharesFor upper taken supply i ≤ provisional.toNat := by
    intro i hi
    rw [sharesFor, (hcost i hi).1]
    exact sharesFor_cost_le
  obtain ⟨⟨shares, decided'⟩, hcounted⟩ :=
    exists_shareAmount fun i hi => ⟨hpos i hi, hagain i hi⟩
  obtain ⟨rfl, _, hsecond⟩ := shareAmount_least (by omega) hbounded hsupply hworth hcounted
  obtain ⟨i, hi, hdecides⟩ := hsecond.1
  refine ⟨taken, shares, {
    first := hleast
    trimmed := htaken
    counted := hcounted
    length := hlength
    dust := fun i hi => (hexact i).trans (if_pos hi)
    cost := hcost
    second := hsecond
    le := ?_
    loss := exists_loss hsupply hpos (fun i hi => (hcost i hi).1) hsecond }⟩
  rw [Word.le_def, ← hdecides]
  exact hagain i hi

/-- So it does where no asset decides: then the whole basket is taken, and counts as before. -/
theorem exists_passes (hoffered : existentials.length = requested.length)
    (hbounded : existentials.length = upper.length)
    (hfirst : shareAmount upper requested supply existentials = .ok (provisional, decided)) :
    ∃ taken count, normalize upper requested provisional supply decided existentials = .ok taken ∧
      shareAmount upper taken supply existentials = .ok count := by
  rcases undecided_or_decides supply upper existentials with hempty | ⟨hsupply, hworth⟩
  · have hcount := hfirst
    rw [shareAmount_of_empty hempty] at hcount
    cases hcount
    exact ⟨requested, _, rfl, hfirst⟩
  · obtain ⟨rfl, _⟩ := shareAmount_least hoffered hbounded hsupply hworth hfirst
    obtain ⟨taken, shares, hpasses⟩ := exists_twoPasses hoffered hbounded hsupply hworth hfirst
    exact ⟨taken, _, hpasses.trimmed, hpasses.counted⟩

/-- If there is a first count, then all that the second pass makes of it is there, and the plan
comes to that, unless it comes to no shares. -/
theorem two_passes_of_deposit (hoffered : existentials.length = requested.length)
    (hbounded : existentials.length = upper.length) (hsupply : supply ≠ 0)
    (hworth : (significantAssets upper existentials).Nonempty)
    (hfirst : shareAmount upper requested supply existentials = .ok (provisional, decided)) :
    decided = true ∧ ∃ taken shares,
      TwoPasses upper requested existentials supply provisional taken shares ∧
      planDeposit upper requested supply existentials =
        if shares = 0 then .error .zeroShares else .ok ⟨shares, taken⟩ := by
  obtain ⟨rfl, _⟩ := shareAmount_least hoffered hbounded hsupply hworth hfirst
  obtain ⟨taken, shares, hpasses⟩ := exists_twoPasses hoffered hbounded hsupply hworth hfirst
  refine ⟨rfl, taken, shares, hpasses, ?_⟩
  rw [planDeposit_eq hoffered hbounded hfirst hpasses.trimmed hpasses.counted]
  exact DepositPlan.accept_of_shares ⟨shares, taken⟩ existentials hsupply

end Deposits

namespace TripleVault

/-- What there is of three assets, of which the last is dust. -/
def upper : List Amount := [.saturate 128 3, .saturate 128 5, .saturate 128 2]

def existentials : List Amount := [.saturate 128 1, .saturate 128 1, .saturate 128 10]

/-- What is offered of them, for a part of ten shares. -/
def offered : List Amount := [.saturate 128 2, .saturate 128 3, .saturate 128 9]

end TripleVault

open TripleVault in
/-- Both significant assets buy six shares at first.  These cost one unit of the first asset, which
buys three: the loss is all that it may be. -/
theorem two_passes_of_deposit_scarce :
    existentials.length = offered.length ∧ existentials.length = upper.length ∧
      (.saturate 128 10 : Amount) ≠ 0 ∧ (significantAssets upper existentials).Nonempty ∧
      shareAmount upper offered (.saturate 128 10) existentials = .ok (.saturate 128 6, true) ∧
      TwoPasses upper offered existentials (.saturate 128 10) (.saturate 128 6)
        [.saturate 128 1, .saturate 128 3, 0] (.saturate 128 3) ∧
      planDeposit upper offered (.saturate 128 10) existentials =
        .ok ⟨.saturate 128 3, [.saturate 128 1, .saturate 128 3, 0]⟩ ∧
      (10 - 1) ⌈/⌉ 3 = 3 := by
  have hworth : (significantAssets upper existentials).Nonempty := ⟨0, by decide, by decide⟩
  have hfirst : shareAmount upper offered (.saturate 128 10) existentials =
      .ok (.saturate 128 6, true) := rfl
  have hplan : planDeposit upper offered (.saturate 128 10) existentials =
      .ok ⟨.saturate 128 3, [.saturate 128 1, .saturate 128 3, 0]⟩ := rfl
  have hoffered : existentials.length = offered.length := rfl
  have hbounded : existentials.length = upper.length := rfl
  have hsupply : (.saturate 128 10 : Amount) ≠ 0 := by decide
  obtain ⟨_, taken, shares, hpasses, hcomes⟩ :=
    two_passes_of_deposit hoffered hbounded hsupply hworth hfirst
  rw [hplan] at hcomes
  split at hcomes
  next => cases hcomes
  next =>
    cases hcomes
    exact ⟨hoffered, hbounded, hsupply, hworth, hfirst, hpasses, hplan, rfl⟩

end ShareVault
