import ShareVault.Proofs.TwoPasses

/-!
# Larger offers

A deposit that goes through does so as well when more of some asset is offered, for as many shares
at least and for as much of every asset.  Each of the two counts and the trimming between them goes
up with what it is given, in an empty vault, with dust only, and where an asset decides.  What
remains is that a count may have too many digits: no bound that counts is zero, since the smaller
offer was divided by the same ones.

* `forall₂_le_iff` — no less of every asset, list by list or place by place;
* `shareAmount_mono`, `normalize_mono`, `checkFirstDeposit_mono` — what goes up with an offer;
* `shareAmount_failsOnly_overflow` — how the count of a larger offer may fail;
* `DepositPlan.Passes.accept_mono` — a plan for more passes the checks at the end;
* `offering_more_never_hurts` — the result;
* `offering_more_never_hurts_until_overflow` — twice as much, and as much as there can be.
-/

namespace ShareVault

open Attempt

section Offers

variable {upper amounts more requested taken existentials : List Amount}
  {supply shares shares' provisional provisional' : Amount} {decided decided' : Bool}

/-! ### More of every asset -/

theorem forall₂_le_iff : List.Forall₂ (· ≤ ·) amounts more ↔
    amounts.length = more.length ∧ ∀ i, amountAt amounts i ≤ amountAt more i := by
  constructor
  · intro h
    refine ⟨h.length_eq, ?_⟩
    induction h with
    | nil => exact fun i => Nat.le_refl _
    | cons hle _ ih =>
      intro i
      cases i with
      | zero => exact hle
      | succ i => exact ih i
  · rintro ⟨hlength, hle⟩
    refine List.forall₂_iff_get.mpr ⟨hlength, fun i hi hi' => ?_⟩
    have hat := hle i
    rw [amountAt_of_getElem? (List.getElem?_eq_getElem hi),
      amountAt_of_getElem? (List.getElem?_eq_getElem hi')] at hat
    exact hat

theorem largestAmount_mono (h : List.Forall₂ (· ≤ ·) amounts more) :
    largestAmount amounts ≤ largestAmount more := by
  obtain ⟨_, _, hbounds⟩ := foldl_max_ok more 0
  rcases (foldl_max_ok amounts 0).1 with hzero | hmem
  · rw [largestAmount, hzero]
    exact Nat.zero_le _
  · obtain ⟨i, hi, hlargest⟩ := List.getElem_of_mem hmem
    have hi' : i < more.length := h.length_eq ▸ hi
    rw [largestAmount, ← hlargest]
    exact Nat.le_trans (h.get hi hi') (hbounds _ (List.getElem_mem hi'))

/-- A larger offer counts for as many shares at least, and some asset decides on them if one did
before. -/
theorem shareAmount_mono (hoffered : existentials.length = amounts.length)
    (hbounded : existentials.length = upper.length) (hmore : List.Forall₂ (· ≤ ·) amounts more)
    (h : shareAmount upper amounts supply existentials = .ok (shares, decided))
    (h' : shareAmount upper more supply existentials = .ok (shares', decided')) :
    decided' = decided ∧ shares ≤ shares' := by
  obtain ⟨hlength, hle⟩ := forall₂_le_iff.mp hmore
  rcases undecided_or_decides supply upper existentials with hempty | ⟨hsupply, hworth⟩
  · rw [shareAmount_of_empty hempty] at h h'
    cases h
    cases h'
    exact ⟨rfl, largestAmount_mono hmore⟩
  · obtain ⟨rfl, _, _, hbelow⟩ := shareAmount_least hoffered hbounded hsupply hworth h
    obtain ⟨rfl, _, ⟨i, hi, hdecides⟩, _⟩ :=
      shareAmount_least (hoffered.trans hlength) hbounded hsupply hworth h'
    refine ⟨rfl, ?_⟩
    rw [Word.le_def, ← hdecides]
    refine Nat.le_trans (hbelow ⟨i, hi, rfl⟩) ?_
    exact Nat.div_le_div_right (Nat.mul_le_mul_right _ (hle i))

/-- More shares cost more of every asset, and more of it is there. -/
theorem normalize_mono {taken' : List Amount} (hoffered : existentials.length = requested.length)
    (hbounded : existentials.length = upper.length) (hmore : List.Forall₂ (· ≤ ·) requested more)
    (hprovisional : provisional ≤ provisional')
    (h : normalize upper requested provisional supply decided existentials = .ok taken)
    (h' : normalize upper more provisional' supply decided existentials = .ok taken') :
    List.Forall₂ (· ≤ ·) taken taken' := by
  obtain ⟨hlength, hle⟩ := forall₂_le_iff.mp hmore
  have hoffered' := hoffered.trans hlength
  cases decided with
  | false =>
    obtain rfl : requested = taken := Except.ok.inj h
    obtain rfl : more = taken' := Except.ok.inj h'
    exact hmore
  | true =>
    refine forall₂_le_iff.mpr ⟨?_, fun i => ?_⟩
    · rw [length_normalize hoffered hbounded h, length_normalize hoffered' hbounded h']
    · rw [normalize_exact hoffered hbounded h, normalize_exact hoffered' hbounded h']
      split
      next => exact Nat.le_refl _
      next =>
        apply min_le_min (hle i)
        exact Nat.div_le_div_right (Nat.mul_le_mul_left _ hprovisional)

/-- A first deposit of more is accepted, too. -/
theorem checkFirstDeposit_mono (hmore : List.Forall₂ (· ≤ ·) amounts more)
    (h : checkFirstDeposit 0 (amounts.zip existentials) = .ok ()) :
    checkFirstDeposit 0 (more.zip existentials) = .ok () := by
  rw [checkFirstDeposit_eq_ok] at h ⊢
  induction hmore generalizing existentials with
  | nil => exact h
  | cons hle _ ih =>
    cases existentials with
    | nil => exact h
    | cons e es =>
      rw [List.zip_cons_cons, List.forall_mem_cons] at h ⊢
      exact ⟨Nat.le_trans h.1 hle, ih h.2⟩

/-- Next to an offer that has a count, that of another fails for its digits only: both divide by the
bounds that count, and none of these is zero. -/
theorem shareAmount_failsOnly_overflow (hoffered : existentials.length = amounts.length)
    (hbounded : existentials.length = upper.length)
    (h : shareAmount upper amounts supply existentials = .ok (shares, decided))
    (more : List Amount) :
    FailsOnly (fun e => e = .overflow ∧ ∃ i ∈ significantAssets upper existentials,
      Word.size 128 ≤ sharesFor upper more supply i) (shareAmount upper more supply existentials) := by
  rcases undecided_or_decides supply upper existentials with hempty | ⟨hsupply, hworth⟩
  · rw [shareAmount_of_empty hempty]
    exact failsOnly_ok _
  · obtain ⟨_, hpos, _⟩ := shareAmount_least hoffered hbounded hsupply hworth h
    apply shareAmount_failsOnly_of
    intro t a e hmem hnot error herror
    obtain rfl := mulDiv_failsOnly (bound_ne_zero hpos hmem hnot) error herror
    obtain ⟨i, hi, ht, ha⟩ := significant_of_mem hmem hnot
    refine ⟨rfl, i, hi, ?_⟩
    rw [sharesFor, ht, ha]
    exact (mulDiv_eq_overflow.mp herror).2

/-! ### Plans -/

/-- A plan for more is accepted as the plan was. -/
theorem DepositPlan.Passes.accept_mono {plan plan' : DepositPlan}
    (h : plan.Passes upper requested supply existentials) (hshares : plan.shares ≤ plan'.shares)
    (hamounts : List.Forall₂ (· ≤ ·) plan.amounts plan'.amounts) :
    plan'.accept supply existentials = .ok plan' := by
  have hpositive : plan'.shares ≠ 0 := by
    intro hzero
    rw [hzero] at hshares
    exact h.positive (Word.ext (Nat.le_zero.mp hshares))
  by_cases hsupply : supply = 0
  · rw [accept_of_first (checkFirstDeposit_mono hamounts (h.first hsupply)), if_neg hpositive]
  · rw [plan'.accept_of_shares existentials hsupply, if_neg hpositive]

/-- When a deposit is planned, then a larger offer is planned, too, with no fewer shares and no less
taken of any asset, unless the amount of some significant asset buys too many shares.  This holds
for all supplies, and thresholds of zero do no harm. -/
theorem offering_more_never_hurts {plan : DepositPlan}
    (hmore : List.Forall₂ (· ≤ ·) requested more)
    (h : planDeposit upper requested supply existentials = .ok plan) :
    (∃ plan', planDeposit upper more supply existentials = .ok plan' ∧
      plan.shares ≤ plan'.shares ∧ List.Forall₂ (· ≤ ·) plan.amounts plan'.amounts) ∨
    (planDeposit upper more supply existentials = .error (.math .overflow) ∧
      ∃ i ∈ significantAssets upper existentials, Word.size 128 ≤ sharesFor upper more supply i) := by
  have hpasses := planDeposit_passes h
  have hoffered := hpasses.offered
  have hbounded := hpasses.bounded
  have hoffered' := hoffered.trans hmore.length_eq
  obtain ⟨provisional, decided, again, hfirst, htaken, hcount⟩ := hpasses.rounds
  cases hfirst' : shareAmount upper more supply existentials with
  | error e =>
    obtain ⟨rfl, hdigits⟩ := shareAmount_failsOnly_overflow hoffered hbounded hfirst more e hfirst'
    exact .inr ⟨planDeposit_of_error hoffered' hbounded hfirst', hdigits⟩
  | ok count =>
    obtain ⟨provisional', decided'⟩ := count
    obtain ⟨rfl, hprovisional⟩ := shareAmount_mono hoffered hbounded hmore hfirst hfirst'
    obtain ⟨taken', ⟨shares', again'⟩, htaken', hcount'⟩ :=
      exists_passes hoffered' hbounded hfirst'
    have hamounts := normalize_mono hoffered hbounded hmore hprovisional htaken htaken'
    have hlength : existentials.length = plan.amounts.length :=
      hbounded.trans hpasses.taken.1.symm
    obtain ⟨_, hshares⟩ := shareAmount_mono hlength hbounded hamounts hcount hcount'
    refine .inl ⟨⟨shares', taken'⟩, ?_, hshares, hamounts⟩
    rw [planDeposit_eq hoffered' hbounded hfirst' htaken' hcount']
    exact hpasses.accept_mono hshares hamounts

end Offers

namespace TripleVault

/-- Twice as much as is offered, of the assets that decide. -/
def doubled : List Amount := [.saturate 128 4, .saturate 128 6, .saturate 128 9]

/-- As much as there can be of every asset. -/
def boundless : List Amount := .replicate 3 (.saturate 128 (Word.size 128))

end TripleVault

open TripleVault in
/-- Twice the offer buys more than three times the shares; an offer without bounds has too many
digits. -/
theorem offering_more_never_hurts_until_overflow :
    ∃ plan plan' : DepositPlan,
      planDeposit upper offered (.saturate 128 10) existentials = .ok plan ∧
      List.Forall₂ (· ≤ ·) offered doubled ∧
      planDeposit upper doubled (.saturate 128 10) existentials = .ok plan' ∧
      plan.shares ≤ plan'.shares ∧ List.Forall₂ (· ≤ ·) plan.amounts plan'.amounts ∧
      (plan.shares, plan'.shares) = (.saturate 128 3, .saturate 128 10) ∧
      List.Forall₂ (· ≤ ·) offered boundless ∧
      planDeposit upper boundless (.saturate 128 10) existentials = .error (.math .overflow) ∧
      ∃ i ∈ significantAssets upper existentials,
        Word.size 128 ≤ sharesFor upper boundless (.saturate 128 10) i := by
  have hplan : planDeposit upper offered (.saturate 128 10) existentials =
      .ok ⟨.saturate 128 3, [.saturate 128 1, .saturate 128 3, 0]⟩ := rfl
  have hplan' : planDeposit upper doubled (.saturate 128 10) existentials =
      .ok ⟨.saturate 128 10, [.saturate 128 3, .saturate 128 6, 0]⟩ := rfl
  have hfails : planDeposit upper boundless (.saturate 128 10) existentials =
      .error (.math .overflow) := by
    decide +kernel
  have hdoubled : List.Forall₂ (· ≤ ·) offered doubled := by decide
  have hboundless : List.Forall₂ (· ≤ ·) offered boundless := by decide
  rcases offering_more_never_hurts hdoubled hplan with ⟨plan', hok, hle⟩ | ⟨herror, _⟩
  · rcases offering_more_never_hurts hboundless hplan with ⟨_, hok', _⟩ | ⟨_, hdigits⟩
    · rw [hfails] at hok'
      cases hok'
    · rw [hplan'] at hok
      cases hok
      exact ⟨_, _, hplan, hdoubled, hplan', hle.1, hle.2, rfl, hboundless, hfails, hdigits⟩
  · rw [hplan'] at herror
    cases herror

end ShareVault
