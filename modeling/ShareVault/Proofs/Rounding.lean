import ShareVault.Proofs.Operation
import ShareVault.Proofs.Overflow

/-!
# Which way amounts are rounded

A deposit issues no more shares than each of its significant amounts pays for, and a withdrawal
pays no more of any asset than its shares are worth.  Both are stated without division: what
changes hands on one side, times the supply, against the shares times the bound.

* `amountAt` — an amount of a list, as a number;
* `mapM_ok` — a step for every element of a list, one by one;
* `mulDiv_mul_le`, `mulDiv_of_le` — quotients against products;
* `leastShares_least`, `normalize_exact` — the shares that a basket buys, and what they cost;
* `checkFirstDeposit_eq_ok` — when a first deposit is accepted;
* `DepositPlan.Passes`, `planWithdraw_exact` — what the two plans have gone through;
* `planDeposit_ok`, `planWithdraw_ok` — the two inequalities;
* `normalize_le`, `planDeposit_dust` — no more is taken than is offered, and nothing of dust;
* `UnitPriceAdapter.kept`, `exists_tvl`, `tvl_exact`, `tvl_ok` — lower bounds are always there, are
  just what the haircut leaves, and never above the holdings;
* `credit_ok`, `debit_ok` — what is added to balances and taken from them;
* `pull_eq_ok`, `release_eq_ok`, `pull_ok`, `release_ok` — what payments go through, and what they
  do to each asset.
-/

namespace ShareVault

variable {α β ε : Type}

/-! ### Amounts of one asset -/

/-- The amount at a place of a list, and nothing past its end. -/
def amountAt (l : List Amount) (i : Nat) : Nat := (l[i]?.getD 0).toNat

theorem amountAt_of_getElem? {l : List Amount} {i : Nat} {a : Amount} (h : l[i]? = some a) :
    amountAt l i = a.toNat := by
  unfold amountAt
  rw [h]
  rfl

theorem amountAt_of_length_le {l : List Amount} {i : Nat} (h : l.length ≤ i) :
    amountAt l i = 0 := by
  unfold amountAt
  rw [List.getElem?_eq_none h]
  rfl

theorem amountAt_cons_zero (a : Amount) (l : List Amount) : amountAt (a :: l) 0 = a.toNat := rfl

/-- A step for every element of a list that succeeds has given one value for each, in order. -/
theorem mapM_ok {f : α → Except ε β} {l : List α} {l' : List β} (h : l.mapM f = .ok l') :
    l'.length = l.length ∧
      ∀ (i : Nat) (a : α), l[i]? = some a → ∃ b, l'[i]? = some b ∧ f a = .ok b := by
  induction l generalizing l' with
  | nil =>
    rw [List.mapM_nil] at h
    obtain rfl := Attempt.pure_eq_ok.mp h
    exact ⟨rfl, fun i a ha => by cases ha⟩
  | cons head rest ih =>
    rw [List.mapM_cons] at h
    simp only [Attempt.bind_eq_ok, Attempt.pure_eq_ok] at h
    obtain ⟨b, hb, bs, hbs, rfl⟩ := h
    obtain ⟨hlength, hat⟩ := ih hbs
    refine ⟨congrArg (· + 1) hlength, fun i a ha => ?_⟩
    cases i with
    | zero =>
      cases ha
      exact ⟨b, rfl, hb⟩
    | succ i => exact hat i a ha

/-- A floored quotient, times the divisor, is no more than the product. -/
theorem mulDiv_mul_le {a b d q : Amount} (h : mulDiv a b d = .ok q) :
    q.toNat * d.toNat ≤ a.toNat * b.toNat := by
  obtain ⟨_, hq⟩ := mulDiv_eq_ok.mp h
  rw [hq]
  exact Nat.div_mul_le_self _ _

/-- A part of an amount, up to all of it, is an amount. -/
theorem mulDiv_of_le {a b d : Amount} (hd : d ≠ 0) (hle : b.toNat ≤ d.toNat) :
    ∃ q, mulDiv a b d = .ok q ∧ q.toNat ≤ a.toNat :=
  exists_mulDiv hd (part_le hle a.toNat)

/-! ### Deposits -/

/-- A running maximum is where it started or one of the amounts, and no less than any of these. -/
theorem foldl_max_ok (amounts : List Amount) (a : Amount) :
    (amounts.foldl max a = a ∨ amounts.foldl max a ∈ amounts) ∧
      a ≤ amounts.foldl max a ∧ ∀ b ∈ amounts, b ≤ amounts.foldl max a := by
  induction amounts generalizing a with
  | nil => exact ⟨.inl rfl, Nat.le_refl _, fun b hb => by cases hb⟩
  | cons head rest ih =>
    obtain ⟨hmem, hstart, hrest⟩ := ih (max a head)
    have hboth := Word.le_def.mp hstart
    rw [Word.toNat_max] at hboth
    simp only [List.foldl_cons]
    refine ⟨?_, Nat.le_trans (Nat.le_max_left _ _) hboth, ?_⟩
    · cases hmem with
      | inr hlater => exact .inr (List.mem_cons_of_mem _ hlater)
      | inl hfirst =>
        by_cases hle : a ≤ head
        · have hhead : max a head = head := if_pos hle
          rw [hfirst, hhead]
          exact .inr List.mem_cons_self
        · have ha : max a head = a := if_neg hle
          rw [hfirst, ha]
          exact .inl rfl
    · intro b hb
      cases hb with
      | head => exact Nat.le_trans (Nat.le_max_right _ _) hboth
      | tail _ hb => exact hrest b hb

/-- The lesser of a candidate and what was the least before, if anything was. -/
def lesser : Option Amount → Amount → Amount
  | some current, candidate => min current candidate
  | none, candidate => candidate

theorem lesser_least (least : Option Amount) (candidate : Amount) :
    lesser least candidate ≤ candidate ∧ (∀ c, least = some c → lesser least candidate ≤ c) ∧
      (least = some (lesser least candidate) ∨ lesser least candidate = candidate) := by
  cases least with
  | none => exact ⟨Nat.le_refl _, nofun, .inr rfl⟩
  | some current =>
    have hmin : (lesser (some current) candidate).toNat = min current.toNat candidate.toNat :=
      Word.toNat_min _ _
    refine ⟨?_, fun c hc => ?_, ?_⟩
    · rw [Word.le_def, hmin]
      exact Nat.min_le_right _ _
    · cases hc
      rw [Word.le_def, hmin]
      exact Nat.min_le_left _ _
    · by_cases hle : current ≤ candidate
      · exact .inl (congrArg some (if_pos hle).symm)
      · exact .inr (if_neg hle)

section Least

variable {supply tvl amount existential s : Amount} {least : Option Amount}
  {rest entries : List (Amount × Amount × Amount)}

theorem leastShares_cons_dust (h : tvl < existential) :
    leastShares supply ((tvl, amount, existential) :: rest) least =
      leastShares supply rest least := by
  rw [leastShares, if_pos h]

theorem leastShares_cons_worth (h : ¬ tvl < existential) :
    leastShares supply ((tvl, amount, existential) :: rest) least =
      mulDiv amount supply tvl >>= fun candidate =>
        leastShares supply rest (some (lesser least candidate)) := by
  rw [leastShares, if_neg h]
  cases least with
  | none => rfl
  | some current => rfl

/-- The least number of shares is no more than any significant asset pays for, and no more than what
was the least before; and it is one of these.  By induction on the assets that are left. -/
theorem leastShares_least (h : leastShares supply entries least = .ok (some s)) :
    (∀ c, least = some c → s ≤ c) ∧
      (∀ t a e, (t, a, e) ∈ entries → ¬ t < e → ∃ q, mulDiv a supply t = .ok q ∧ s ≤ q) ∧
      (least = some s ∨ ∃ t a e, (t, a, e) ∈ entries ∧ ¬ t < e ∧ mulDiv a supply t = .ok s) := by
  induction entries generalizing least with
  | nil =>
    obtain rfl : least = some s := Except.ok.inj h
    refine ⟨fun c hc => ?_, fun t a e hmem => absurd hmem List.not_mem_nil, .inl rfl⟩
    cases hc
    exact Nat.le_refl _
  | cons head rest ih =>
    obtain ⟨tvl, amount, existential⟩ := head
    by_cases hdust : tvl < existential
    · rw [leastShares_cons_dust hdust] at h
      obtain ⟨hleast, hrest, hattained⟩ := ih h
      refine ⟨hleast, fun t a e hmem hworth => ?_, ?_⟩
      · rcases List.mem_cons.mp hmem with heq | hmem
        · cases heq
          exact (hworth hdust).elim
        · exact hrest t a e hmem hworth
      · rcases hattained with hbefore | ⟨t, a, e, hmem, hlater⟩
        · exact .inl hbefore
        · exact .inr ⟨t, a, e, List.mem_cons_of_mem _ hmem, hlater⟩
    · rw [leastShares_cons_worth hdust] at h
      obtain ⟨candidate, hcandidate, h⟩ := Attempt.bind_eq_ok.mp h
      obtain ⟨hleast, hrest, hattained⟩ := ih h
      obtain ⟨hle, hle_before, heither⟩ := lesser_least least candidate
      have hlesser := hleast _ rfl
      refine ⟨fun c hc => Nat.le_trans hlesser (hle_before c hc), fun t a e hmem hworth => ?_, ?_⟩
      · rcases List.mem_cons.mp hmem with heq | hmem
        · cases heq
          exact ⟨candidate, hcandidate, Nat.le_trans hlesser hle⟩
        · exact hrest t a e hmem hworth
      · rcases hattained with hnow | ⟨t, a, e, hmem, hlater⟩
        · rw [Option.some.inj hnow] at heither
          rcases heither with hbefore | rfl
          · exact .inl hbefore
          · exact .inr ⟨tvl, amount, existential, List.mem_cons_self, hdust, hcandidate⟩
        · exact .inr ⟨t, a, e, List.mem_cons_of_mem _ hmem, hlater⟩

/-- Times its bound, it is no more than the amount of any significant asset times the supply. -/
theorem leastShares_ok (h : leastShares supply entries least = .ok (some s))
    (hmem : (tvl, amount, existential) ∈ entries) (hworth : ¬ tvl < existential) :
    s.toNat * tvl.toNat ≤ amount.toNat * supply.toNat := by
  obtain ⟨q, hq, hle⟩ := (leastShares_least h).2.1 _ _ _ hmem hworth
  exact Nat.le_trans (Nat.mul_le_mul_right _ hle) (mulDiv_mul_le hq)

/-- If no asset decides on the shares, every asset is dust. -/
theorem leastShares_none (h : leastShares supply entries least = .ok none) :
    least = none ∧ ∀ t a e, (t, a, e) ∈ entries → t < e := by
  induction entries generalizing least with
  | nil =>
    obtain rfl : least = none := Except.ok.inj h
    exact ⟨rfl, fun t a e hmem => absurd hmem List.not_mem_nil⟩
  | cons head rest ih =>
    obtain ⟨tvl, amount, existential⟩ := head
    by_cases hdust : tvl < existential
    · rw [leastShares_cons_dust hdust] at h
      obtain ⟨hleast, hrest⟩ := ih h
      refine ⟨hleast, fun t a e hmem => ?_⟩
      rcases List.mem_cons.mp hmem with heq | hmem
      · cases heq
        exact hdust
      · exact hrest t a e hmem
    · rw [leastShares_cons_worth hdust] at h
      obtain ⟨candidate, _, h⟩ := Attempt.bind_eq_ok.mp h
      cases (ih h).1

/-- If every asset is dust, no asset decides. -/
theorem leastShares_of_dust (h : ∀ t a e, (t, a, e) ∈ entries → t < e) :
    leastShares supply entries least = .ok least := by
  induction entries with
  | nil => rfl
  | cons head rest ih =>
    obtain ⟨tvl, amount, existential⟩ := head
    rw [leastShares_cons_dust (h _ _ _ List.mem_cons_self)]
    exact ih fun t a e hmem => h t a e (List.mem_cons_of_mem _ hmem)

end Least

/-- The amounts side by side at a place that all three lists have. -/
theorem sideBySide_getElem? {tvl amounts existentials : List Amount} {i : Nat} {t a e : Amount} :
    (sideBySide tvl amounts existentials)[i]? = some (t, a, e) ↔
      tvl[i]? = some t ∧ amounts[i]? = some a ∧ existentials[i]? = some e := by
  simp only [sideBySide, List.getElem?_zip_eq_some]

theorem shareAmount_ok {tvl amounts existentials : List Amount} {supply shares : Amount}
    {significant : Bool} (hsupply : supply ≠ 0)
    (h : shareAmount tvl amounts supply existentials = .ok (shares, significant)) {i : Nat}
    {t a e : Amount} (ht : tvl[i]? = some t) (ha : amounts[i]? = some a)
    (he : existentials[i]? = some e) (hworth : ¬ t < e) :
    significant = true ∧ shares.toNat * t.toNat ≤ a.toNat * supply.toNat := by
  have hmem := List.mem_of_getElem? (sideBySide_getElem?.mpr ⟨ht, ha, he⟩)
  unfold shareAmount at h
  rw [if_neg hsupply] at h
  obtain ⟨least, hleast, h⟩ := Attempt.bind_eq_ok.mp h
  cases least with
  | none => exact (hworth ((leastShares_none hleast).2 t a e hmem)).elim
  | some s =>
    obtain ⟨rfl, rfl⟩ := Prod.mk.inj (Attempt.pure_eq_ok.mp h)
    exact ⟨rfl, leastShares_ok hleast hmem hworth⟩

/-- A deposit takes one amount of every asset. -/
theorem length_normalize {tvl requested amounts existentials : List Amount}
    {shares supply : Amount} {significant : Bool}
    (hrequested : existentials.length = requested.length)
    (htvl : existentials.length = tvl.length)
    (h : normalize tvl requested shares supply significant existentials = .ok amounts) :
    amounts.length = tvl.length := by
  unfold normalize at h
  split at h
  next =>
    have hlength := (mapM_ok h).1
    unfold sideBySide at hlength
    rw [List.length_zip, List.length_zip] at hlength
    omega
  next =>
    cases h
    omega

/-- What is taken when some asset decides: nothing of dust, and of any other asset what the shares
cost, or all that is offered if that is less. -/
theorem normalize_exact {tvl requested amounts existentials : List Amount} {shares supply : Amount}
    (hrequested : existentials.length = requested.length)
    (htvl : existentials.length = tvl.length)
    (h : normalize tvl requested shares supply true existentials = .ok amounts) (i : Nat) :
    amountAt amounts i =
      if amountAt tvl i < amountAt existentials i then 0
      else min (amountAt requested i) (amountAt tvl i * shares.toNat / supply.toNat) := by
  have hlength := length_normalize hrequested htvl h
  have htrims : (sideBySide tvl requested existentials).mapM (trim shares supply) = .ok amounts := h
  by_cases hi : i < tvl.length
  · have ht := List.getElem?_eq_getElem hi
    have ha := List.getElem?_eq_getElem (by omega : i < requested.length)
    have he := List.getElem?_eq_getElem (by omega : i < existentials.length)
    have hentry := sideBySide_getElem?.mpr ⟨ht, ha, he⟩
    obtain ⟨taken, htaken, htrim⟩ := (mapM_ok htrims).2 i _ hentry
    rw [amountAt_of_getElem? htaken, amountAt_of_getElem? ht, amountAt_of_getElem? ha,
      amountAt_of_getElem? he]
    simp only [trim] at htrim
    by_cases hdust : tvl[i] < existentials[i]
    · rw [if_pos hdust] at htrim
      cases htrim
      exact (if_pos hdust).symm
    · rw [if_neg hdust] at htrim
      obtain ⟨cost, hcost, hmin⟩ := Attempt.bind_eq_ok.mp htrim
      obtain rfl := Attempt.pure_eq_ok.mp hmin
      rw [Word.toNat_min, (mulDiv_eq_ok.mp hcost).2]
      exact (if_neg hdust).symm
  · have hout := Nat.not_lt.mp hi
    rw [amountAt_of_length_le (l := amounts) (by omega),
      amountAt_of_length_le (l := requested) (by omega), Nat.zero_min, ite_self]

/-- What is taken of an asset is no more than what is offered. -/
theorem normalize_le {tvl requested amounts existentials : List Amount} {shares supply : Amount}
    {significant : Bool} (hrequested : existentials.length = requested.length)
    (htvl : existentials.length = tvl.length)
    (h : normalize tvl requested shares supply significant existentials = .ok amounts) (i : Nat) :
    amountAt amounts i ≤ amountAt requested i := by
  cases significant with
  | false =>
    obtain rfl : requested = amounts := Except.ok.inj h
    exact Nat.le_refl _
  | true =>
    rw [normalize_exact hrequested htvl h]
    split
    next => exact Nat.zero_le _
    next => exact Nat.min_le_left _ _

/-- A first deposit is accepted exactly if it brings enough of every asset. -/
theorem checkFirstDeposit_eq_ok (index : Nat) {entries : List (Amount × Amount)} :
    checkFirstDeposit index entries = .ok () ↔
      ∀ p ∈ entries, p.2.mulSat firstDepositMultiplier ≤ p.1 := by
  induction entries generalizing index with
  | nil => exact ⟨fun _ p hp => (List.not_mem_nil hp).elim, fun _ => rfl⟩
  | cons head rest ih =>
    obtain ⟨amount, existential⟩ := head
    rw [List.forall_mem_cons, ← ih (index + 1)]
    by_cases hsmall : amount < existential.mulSat firstDepositMultiplier
    · have hfails : checkFirstDeposit index ((amount, existential) :: rest) =
          .error (.firstDepositTooSmall index amount _) := if_pos hsmall
      rw [hfails]
      exact ⟨nofun, fun h => (Nat.not_lt.mpr h.1 hsmall).elim⟩
    · have hnext : checkFirstDeposit index ((amount, existential) :: rest) =
          checkFirstDeposit (index + 1) rest := if_neg hsmall
      rw [hnext]
      exact ⟨fun h => ⟨Nat.not_lt.mp hsmall, h⟩, fun h => h.2⟩

/-- What the plan of a deposit has gone through. -/
structure DepositPlan.Passes (upper requested : List Amount) (supply : Amount)
    (existentials : List Amount) (plan : DepositPlan) : Prop where
  offered : existentials.length = requested.length
  bounded : existentials.length = upper.length
  positive : plan.shares ≠ 0
  first : supply = 0 → checkFirstDeposit 0 (plan.amounts.zip existentials) = .ok ()
  /-- Shares of the whole basket, the part of it that they cost, and the shares of that part. -/
  rounds : ∃ provisional significant decided,
    shareAmount upper requested supply existentials = .ok (provisional, significant) ∧
    normalize upper requested provisional supply significant existentials = .ok plan.amounts ∧
    shareAmount upper plan.amounts supply existentials = .ok (plan.shares, decided)

theorem planDeposit_passes {upper requested existentials : List Amount} {supply : Amount}
    {plan : DepositPlan} (h : planDeposit upper requested supply existentials = .ok plan) :
    plan.Passes upper requested supply existentials := by
  unfold planDeposit at h
  simp only [Attempt.bind_eq_ok, Attempt.mapError_eq_ok, Operation.checkLength_eq_ok] at h
  obtain ⟨_, hrequested, _, hupper, ⟨provisional, significant⟩, hprovisional, amounts, hamounts,
    ⟨shares, decided⟩, hshares, h⟩ := h
  have hend : (supply = 0 → checkFirstDeposit 0 (amounts.zip existentials) = .ok ()) ∧
      shares ≠ 0 ∧ plan = ⟨shares, amounts⟩ := by
    split at h
    next hempty =>
      obtain ⟨_, hfirst, h⟩ := Attempt.bind_eq_ok.mp h
      split at h
      next => cases h
      next hpos => exact ⟨fun _ => hfirst, hpos, (Attempt.pure_eq_ok.mp h).symm⟩
    next hsupply =>
      split at h
      next => cases h
      next hpos =>
        exact ⟨fun hempty => (hsupply hempty).elim, hpos, (Attempt.pure_eq_ok.mp h).symm⟩
  obtain ⟨hfirst, hpos, rfl⟩ := hend
  exact ⟨hrequested, hupper, hpos, hfirst, provisional, significant, decided, hprovisional,
    hamounts, hshares⟩

/-- One amount of every asset is taken, and no more than is offered. -/
theorem DepositPlan.Passes.taken {upper requested existentials : List Amount} {supply : Amount}
    {plan : DepositPlan} (h : plan.Passes upper requested supply existentials) :
    plan.amounts.length = upper.length ∧
      ∀ i, amountAt plan.amounts i ≤ amountAt requested i := by
  obtain ⟨_, _, _, _, hamounts, _⟩ := h.rounds
  exact ⟨length_normalize h.offered h.bounded hamounts, normalize_le h.offered h.bounded hamounts⟩

/-- The plan of a deposit issues no more shares than each significant amount pays for. -/
theorem planDeposit_ok {upper requested existentials : List Amount} {supply : Amount}
    {plan : DepositPlan} (hsupply : supply ≠ 0)
    (h : planDeposit upper requested supply existentials = .ok plan) :
    plan.amounts.length = upper.length ∧
      ∀ i, amountAt existentials i ≤ amountAt upper i →
        plan.shares.toNat * amountAt upper i ≤ amountAt plan.amounts i * supply.toNat := by
  have hpasses := planDeposit_passes h
  obtain ⟨_, _, _, _, _, hshares⟩ := hpasses.rounds
  have hlength := hpasses.taken.1
  have hupper := hpasses.bounded
  refine ⟨hlength, fun i hworth => ?_⟩
  by_cases hi : i < upper.length
  · have hu := List.getElem?_eq_getElem hi
    have ha := List.getElem?_eq_getElem (hlength ▸ hi : i < plan.amounts.length)
    have he := List.getElem?_eq_getElem (hupper ▸ hi : i < existentials.length)
    rw [amountAt_of_getElem? hu, amountAt_of_getElem? he] at hworth
    rw [amountAt_of_getElem? hu, amountAt_of_getElem? ha]
    exact (shareAmount_ok hsupply hshares hu ha he (Nat.not_lt.mpr hworth)).2
  · rw [amountAt_of_length_le (Nat.not_lt.mp hi), Nat.mul_zero]
    exact Nat.zero_le _

/-- It takes nothing of an asset that is dust, as long as some asset is more. -/
theorem planDeposit_dust {upper requested existentials : List Amount} {supply : Amount}
    {plan : DepositPlan} (hsupply : supply ≠ 0)
    (h : planDeposit upper requested supply existentials = .ok plan) {i j : Nat}
    (hi : amountAt upper i < amountAt existentials i) (hj : j < upper.length)
    (hworth : amountAt existentials j ≤ amountAt upper j) : amountAt plan.amounts i = 0 := by
  obtain ⟨hrequested, hupper, _, _, _, significant, _, hprovisional, hamounts, _⟩ :=
    planDeposit_passes h
  -- the other asset decides on the shares
  have hu := List.getElem?_eq_getElem hj
  have ha := List.getElem?_eq_getElem (by omega : j < requested.length)
  have he := List.getElem?_eq_getElem (by omega : j < existentials.length)
  rw [amountAt_of_getElem? hu, amountAt_of_getElem? he] at hworth
  obtain ⟨rfl, _⟩ := shareAmount_ok hsupply hprovisional hu ha he (Nat.not_lt.mpr hworth)
  rw [normalize_exact hrequested hupper hamounts, if_pos hi]

/-! ### Withdrawals -/

theorem payout_ok {tvl shares supply held amount : Amount}
    (h : payout tvl shares supply held = .ok amount) :
    amount.toNat = min (tvl.toNat * shares.toNat / supply.toNat) held.toNat := by
  unfold payout at h
  obtain ⟨share, hshare, h⟩ := Attempt.bind_eq_ok.mp h
  obtain rfl := Attempt.pure_eq_ok.mp h
  rw [Word.toNat_min, (mulDiv_eq_ok.mp hshare).2]

theorem payouts_ok {shares supply : Amount} {index : Nat}
    {entries : List (Amount × Amount × Amount)} {amounts : List Amount}
    (h : payouts shares supply index entries = .ok amounts) :
    amounts.length = entries.length ∧
      ∀ (i : Nat) (tvl held minimum : Amount), entries[i]? = some (tvl, held, minimum) →
        ∃ amount, amounts[i]? = some amount ∧
          amount.toNat = min (tvl.toNat * shares.toNat / supply.toNat) held.toNat ∧
          minimum.toNat ≤ amount.toNat := by
  induction entries generalizing index amounts with
  | nil =>
    obtain rfl : [] = amounts := Except.ok.inj h
    exact ⟨rfl, fun i tvl held minimum hi => by cases hi⟩
  | cons head rest ih =>
    obtain ⟨tvl, held, minimum⟩ := head
    unfold payouts at h
    simp only [Attempt.bind_eq_ok, Attempt.mapError_eq_ok] at h
    obtain ⟨amount, hamount, h⟩ := h
    split at h
    next => cases h
    next hfloor =>
      simp only [Attempt.bind_eq_ok, Attempt.pure_eq_ok] at h
      obtain ⟨others, hothers, rfl⟩ := h
      obtain ⟨hlength, hat⟩ := ih hothers
      refine ⟨congrArg (· + 1) hlength, fun i t b m hi => ?_⟩
      cases i with
      | zero =>
        cases hi
        exact ⟨amount, rfl, payout_ok hamount, Nat.not_lt.mp hfloor⟩
      | succ i => exact hat i t b m hi

/-- The plan of a withdrawal pays of every asset what the shares are of its bound, floored, or all
there is if that is less; and never less than the caller's floor. -/
theorem planWithdraw_exact {lower holdings minAmounts amounts : List Amount}
    {shares supply : Amount}
    (h : planWithdraw lower holdings shares supply minAmounts = .ok amounts) :
    supply ≠ 0 ∧ shares ≠ 0 ∧ amounts.length = holdings.length ∧
      ∀ i, amountAt amounts i =
          min (amountAt lower i * shares.toNat / supply.toNat) (amountAt holdings i) ∧
        amountAt minAmounts i ≤ amountAt amounts i := by
  unfold planWithdraw at h
  simp only [Attempt.bind_eq_ok, Operation.checkLength_eq_ok] at h
  obtain ⟨_, hminimum, _, hholdings, h⟩ := h
  split at h
  next => cases h
  next hsupply =>
    split at h
    next => cases h
    next hshares =>
      obtain ⟨hlength, hat⟩ := payouts_ok h
      rw [List.length_zip, List.length_zip] at hlength
      refine ⟨hsupply, hshares, by omega, fun i => ?_⟩
      by_cases hi : i < lower.length
      · have hl := List.getElem?_eq_getElem hi
        have hh := List.getElem?_eq_getElem (hholdings ▸ hi : i < holdings.length)
        have hm := List.getElem?_eq_getElem (hminimum ▸ hi : i < minAmounts.length)
        obtain ⟨amount, ha, hexact⟩ := hat i lower[i] holdings[i] minAmounts[i] (by
          rw [List.getElem?_zip_eq_some]
          refine ⟨hl, ?_⟩
          rw [List.getElem?_zip_eq_some]
          exact ⟨hh, hm⟩)
        rw [amountAt_of_getElem? ha, amountAt_of_getElem? hl, amountAt_of_getElem? hh,
          amountAt_of_getElem? hm]
        exact hexact
      · rw [amountAt_of_length_le (l := amounts) (by omega),
          amountAt_of_length_le (l := holdings) (by omega),
          amountAt_of_length_le (l := minAmounts) (by omega)]
        exact ⟨(Nat.min_zero _).symm, Nat.le_refl _⟩

/-- The plan of a withdrawal pays no more of any asset than there is, and no more than the shares
are worth by its bound. -/
theorem planWithdraw_ok {lower holdings minAmounts amounts : List Amount} {shares supply : Amount}
    (h : planWithdraw lower holdings shares supply minAmounts = .ok amounts) :
    amounts.length = holdings.length ∧
      ∀ i, amountAt amounts i ≤ amountAt holdings i ∧
        amountAt amounts i * supply.toNat ≤ amountAt lower i * shares.toNat := by
  obtain ⟨_, _, hlength, hexact⟩ := planWithdraw_exact h
  refine ⟨hlength, fun i => ?_⟩
  rw [(hexact i).1]
  refine ⟨Nat.min_le_right _ _, ?_⟩
  exact Nat.le_trans (Nat.mul_le_mul_right _ (Nat.min_le_left _ _)) (Nat.div_mul_le_self _ _)

/-! ### Bounds -/

namespace UnitPriceAdapter

variable {a : UnitPriceAdapter} {holdings : List Amount} {t : Tvl}

/-- What the haircut leaves of a holding, as a number. -/
def kept (a : UnitPriceAdapter) (holding : Nat) : Nat :=
  holding * (basisPoints.toNat - a.spread.toNat) / basisPoints.toNat

theorem kept_le (a : UnitPriceAdapter) (holding : Nat) : a.kept holding ≤ holding :=
  part_le (Nat.sub_le _ _) holding

theorem cut_eq_ok {holding lower : Amount} :
    a.cut holding = .ok lower ↔ lower.toNat = a.kept holding.toNat := by
  have hpos : basisPoints ≠ 0 := by decide
  unfold cut kept
  rw [mulDiv_eq_ok, Word.toNat_sub]
  exact and_iff_right hpos

/-- The haircut always leaves something, and no more than there is. -/
theorem exists_cut (a : UnitPriceAdapter) (holding : Amount) : ∃ lower, a.cut holding = .ok lower :=
  ⟨⟨_, Nat.lt_of_le_of_lt (a.kept_le _) holding.lt⟩, cut_eq_ok.mpr rfl⟩

/-- Holdings with one amount per asset have bounds. -/
theorem exists_tvl (hlength : a.prices.length = holdings.length) : ∃ t, a.tvl holdings = .ok t := by
  have hcuts : Attempt.FailsOnly (fun _ => False) (holdings.mapM a.cut) := by
    apply Attempt.failsOnly_mapM
    intro holding _ e hfails
    obtain ⟨lower, hcut⟩ := a.exists_cut holding
    rw [hcut] at hfails
    cases hfails
  obtain ⟨lower, hlower⟩ := Attempt.exists_ok_of_failsOnly hcuts
  refine ⟨⟨lower, holdings⟩, ?_⟩
  unfold tvl checkLength
  rw [if_pos hlength, hlower]
  rfl

/-- The upper bounds are the holdings, and the lower ones are what the haircut leaves of them. -/
theorem tvl_exact (h : a.tvl holdings = .ok t) :
    t.upper = holdings ∧ t.lower.length = holdings.length ∧
      ∀ i, amountAt t.lower i = a.kept (amountAt holdings i) := by
  unfold tvl at h
  simp only [Attempt.bind_eq_ok, Attempt.mapError_eq_ok, Attempt.pure_eq_ok] at h
  obtain ⟨_, _, lower, hlower, rfl⟩ := h
  obtain ⟨hlength, hat⟩ := mapM_ok hlower
  refine ⟨rfl, hlength, fun i => ?_⟩
  show amountAt lower i = a.kept (amountAt holdings i)
  by_cases hi : i < holdings.length
  · have hh := List.getElem?_eq_getElem hi
    obtain ⟨cut, hcut, hkept⟩ := hat i _ hh
    rw [amountAt_of_getElem? hcut, amountAt_of_getElem? hh]
    exact cut_eq_ok.mp hkept
  · rw [amountAt_of_length_le (by omega), amountAt_of_length_le (by omega)]
    simp [kept]

/-- No lower bound is above the holdings. -/
theorem tvl_ok (h : a.tvl holdings = .ok t) :
    t.upper = holdings ∧ ∀ i, amountAt t.lower i ≤ amountAt holdings i := by
  obtain ⟨hupper, _, hkept⟩ := tvl_exact h
  refine ⟨hupper, fun i => ?_⟩
  rw [hkept]
  exact a.kept_le _

/-- A larger haircut than everything counts as everything. -/
theorem toNat_spread_new (reference : Reference) (prices : List Amount) (spread : Nat) :
    (new reference prices spread).spread.toNat = min spread basisPoints.toNat := by
  show (min (Word.saturate 128 spread) basisPoints).toNat = _
  have hlt : basisPoints.toNat ≤ Word.size 128 - 1 := by decide
  rw [Word.toNat_min, Word.toNat_saturate]
  omega

end UnitPriceAdapter

/-! ### Payments -/

namespace Custody

theorem creditUpTo_ok {balances amounts : List Amount}
    (hlength : amounts.length ≤ balances.length) (h : (creditUpTo balances amounts).2 = true) :
    ∀ i, amountAt (creditUpTo balances amounts).1 i = amountAt balances i + amountAt amounts i := by
  induction balances generalizing amounts with
  | nil =>
    obtain rfl := List.eq_nil_of_length_eq_zero (Nat.le_zero.mp hlength)
    exact fun i => rfl
  | cons b bs ih =>
    cases amounts with
    | nil => exact fun i => rfl
    | cons a as =>
      unfold creditUpTo at h ⊢
      split at h
      next sum hsum =>
        intro i
        cases i with
        | zero => exact Word.add?_eq_some.mp hsum
        | succ i => exact ih (Nat.le_of_succ_le_succ hlength) h i
      next => cases h

theorem debitFrom_ok {holder : String} {index : Nat} {balances amounts rest : List Amount}
    (hlength : amounts.length ≤ balances.length)
    (h : debitFrom holder index balances amounts = .ok rest) :
    ∀ i, amountAt rest i + amountAt amounts i = amountAt balances i := by
  induction balances generalizing amounts index rest with
  | nil =>
    obtain rfl := List.eq_nil_of_length_eq_zero (Nat.le_zero.mp hlength)
    obtain rfl : [] = rest := Except.ok.inj h
    exact fun i => rfl
  | cons b bs ih =>
    cases amounts with
    | nil =>
      obtain rfl : b :: bs = rest := Except.ok.inj h
      exact fun i => rfl
    | cons a as =>
      unfold debitFrom at h
      split at h
      next hle =>
        simp only [Attempt.bind_eq_ok, Attempt.pure_eq_ok] at h
        obtain ⟨rest', hrest, rfl⟩ := h
        have hle := Word.le_def.mp hle
        intro i
        cases i with
        | zero =>
          rw [amountAt_cons_zero, amountAt_cons_zero, amountAt_cons_zero, Word.toNat_sub]
          omega
        | succ i => exact ih (Nat.le_of_succ_le_succ hlength) hrest i
      next => cases h

theorem length_creditUpTo (balances amounts : List Amount) :
    (creditUpTo balances amounts).1.length = balances.length := by
  induction balances generalizing amounts with
  | nil => rfl
  | cons b bs ih =>
    cases amounts with
    | nil => rfl
    | cons a as =>
      unfold creditUpTo
      split
      next => exact congrArg (· + 1) (ih as)
      next => rfl

theorem length_debitFrom {holder : String} {index : Nat} {balances amounts rest : List Amount}
    (h : debitFrom holder index balances amounts = .ok rest) : rest.length = balances.length := by
  induction balances generalizing amounts index rest with
  | nil =>
    obtain rfl : [] = rest := Except.ok.inj h
    rfl
  | cons b bs ih =>
    cases amounts with
    | nil =>
      obtain rfl : b :: bs = rest := Except.ok.inj h
      rfl
    | cons a as =>
      unfold debitFrom at h
      split at h
      next =>
        simp only [Attempt.bind_eq_ok, Attempt.pure_eq_ok] at h
        obtain ⟨rest', hrest, rfl⟩ := h
        exact congrArg (· + 1) (ih hrest)
      next => cases h

/-- Amounts that are all credited are added. -/
theorem credit_ok {balances amounts after : List Amount}
    (hlength : amounts.length ≤ balances.length) (h : credit balances amounts = .ok after) :
    after.length = balances.length ∧
      ∀ i, amountAt after i = amountAt balances i + amountAt amounts i := by
  unfold credit at h
  simp only at h
  split at h
  next hall =>
    cases h
    exact ⟨length_creditUpTo _ _, creditUpTo_ok hlength hall⟩
  next => cases h

/-- Amounts that are debited were there. -/
theorem debit_ok {holder : String} {balances amounts rest : List Amount}
    (hlength : amounts.length ≤ balances.length) (h : debit holder balances amounts = .ok rest) :
    rest.length = balances.length ∧
      ∀ i, amountAt rest i + amountAt amounts i = amountAt balances i :=
  ⟨length_debitFrom h, debitFrom_ok hlength h⟩

section Moves

variable {c c' : Custody} {account : Account} {amounts : List Amount}

theorem checkLength_eq_ok {u : Unit} :
    c.checkLength amounts = .ok u ↔ amounts.length = c.assets := by
  unfold checkLength
  split <;> simp_all

/-- What a pull that succeeds has gone through. -/
theorem pull_eq_ok : c.pull account amounts = .ok c' ↔
    amounts.length = c.assets ∧ ∃ wallet holdings,
      debit account (c.wallet account) amounts = .ok wallet ∧
      credit c.holdings amounts = .ok holdings ∧
      c' = ⟨c.assets, holdings, c.wallets.insert account wallet⟩ := by
  unfold pull
  simp only [Attempt.bind_eq_ok, Attempt.pure_eq_ok, checkLength_eq_ok]
  constructor
  · rintro ⟨_, hlength, wallet, hdebit, holdings, hcredit, rfl⟩
    exact ⟨hlength, wallet, holdings, hdebit, hcredit, rfl⟩
  · rintro ⟨hlength, wallet, holdings, hdebit, hcredit, rfl⟩
    exact ⟨(), hlength, wallet, hdebit, holdings, hcredit, rfl⟩

/-- What a release that succeeds has gone through. -/
theorem release_eq_ok : c.release account amounts = .ok c' ↔
    amounts.length = c.assets ∧ ∃ holdings wallet,
      debit vaultHolder c.holdings amounts = .ok holdings ∧
      credit (c.wallet account) amounts = .ok wallet ∧
      c' = ⟨c.assets, holdings, c.wallets.insert account wallet⟩ := by
  unfold release
  simp only [Attempt.bind_eq_ok, Attempt.pure_eq_ok, checkLength_eq_ok]
  constructor
  · rintro ⟨_, hlength, holdings, hdebit, wallet, hcredit, rfl⟩
    exact ⟨hlength, holdings, wallet, hdebit, hcredit, rfl⟩
  · rintro ⟨hlength, holdings, wallet, hdebit, hcredit, rfl⟩
    exact ⟨(), hlength, holdings, hdebit, wallet, hcredit, rfl⟩

/-- What is pulled from a wallet is added to the holdings. -/
theorem pull_ok (hlength : amounts.length = c.holdings.length)
    (h : c.pull account amounts = .ok c') :
    ∀ i, amountAt c'.holdings i = amountAt c.holdings i + amountAt amounts i := by
  obtain ⟨_, wallet, holdings, _, hcredit, rfl⟩ := pull_eq_ok.mp h
  exact (credit_ok (Nat.le_of_eq hlength) hcredit).2

/-- What is released to a wallet is taken from the holdings. -/
theorem release_ok (hlength : amounts.length = c.holdings.length)
    (h : c.release account amounts = .ok c') :
    ∀ i, amountAt c'.holdings i + amountAt amounts i = amountAt c.holdings i := by
  obtain ⟨_, holdings, wallet, hdebit, _, rfl⟩ := release_eq_ok.mp h
  exact (debit_ok (Nat.le_of_eq hlength) hdebit).2

end Moves

end Custody

end ShareVault
