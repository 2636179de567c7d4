import ShareVault.Proofs.LargerOffer
import ShareVault.Proofs.Rounding

/-!
# The value of a basket

The value of a basket is a sum of floored products, and after every product the sum so far is checked
for overflow.  No check refuses what fits in the end, so the value is the exact sum of the floors,
checked once.  From there on the adapter is a matter of numbers: the sum goes up with every amount
and every price, and for two baskets together it is the sum for each, with up to one unit more for
every asset.

* `basketValue` — the exact sum of the floors;
* `worth_eq`, `convert_eq` — an adapter gives this sum, checked once;
* `basketValue_mono`, `convert_of_le` — more of every asset, at higher prices;
* `basketValue_add`, `convert_add` — two baskets together;
* `UnitPriceAdapter.Measures`, `adapter_measures` — the result.
-/

namespace ShareVault

namespace UnitPriceAdapter

variable {a : UnitPriceAdapter} {amounts more prices prices' first second sum : List Amount}
  {v : Amount}

/-! ### The sum of the floors -/

/-- The exact value of amounts, each with its price. -/
def basketValue : List (Amount × Amount) → Nat
  | [] => 0
  | (amount, price) :: rest =>
    amount.toNat * price.toNat / priceScale.toNat + basketValue rest

/-- The checks on the way refuse nothing that fits in the end.  By induction on the basket: where a
product or a sum so far does not fit, the end does not fit either. -/
theorem worth_eq (total : Amount) (entries : List (Amount × Amount)) :
    worth total entries = checked (total.toNat + basketValue entries) := by
  induction entries generalizing total with
  | nil => exact (checked_eq_ok.mpr rfl).symm
  | cons entry rest ih =>
    obtain ⟨amount, price⟩ := entry
    rw [worth, basketValue, mulDiv, if_neg (by decide)]
    generalize amount.toNat * price.toNat / priceScale.toNat = value
    by_cases hvalue : value < Word.size 128
    · rw [checked_of_lt hvalue, Attempt.ok_bind, checkedAdd]
      by_cases hsum : total.toNat + value < Word.size 128
      · rw [checked_of_lt hsum, Attempt.ok_bind, ih, Nat.add_assoc]
      · rw [checked_eq_overflow.mpr (Nat.not_lt.mp hsum), checked_eq_overflow.mpr (by omega)]
        rfl
    · rw [checked_eq_overflow.mpr (Nat.not_lt.mp hvalue), checked_eq_overflow.mpr (by omega)]
      rfl

/-- The value of a basket with one amount per asset is the exact sum, if it is an amount. -/
theorem convert_eq (hlength : a.prices.length = amounts.length) :
    a.convert amounts = (checked (basketValue (amounts.zip a.prices))).mapError .math := by
  unfold convert checkLength
  rw [if_pos hlength, Attempt.ok_bind, worth_eq, Word.toNat_zero, Nat.zero_add]

theorem convert_eq_ok : a.convert amounts = .ok v ↔
    a.prices.length = amounts.length ∧ v.toNat = basketValue (amounts.zip a.prices) := by
  by_cases hlength : a.prices.length = amounts.length
  · rw [convert_eq hlength, Attempt.mapError_eq_ok, checked_eq_ok]
    simp [hlength]
  · unfold convert checkLength
    rw [if_neg hlength]
    simp [hlength, bind, Except.bind]

/-- A basket that is worth no more than some amount has a value. -/
theorem exists_convert (hlength : a.prices.length = amounts.length)
    (hle : basketValue (amounts.zip a.prices) ≤ v.toNat) :
    ∃ value, a.convert amounts = .ok value ∧
      value.toNat = basketValue (amounts.zip a.prices) :=
  ⟨⟨_, Nat.lt_of_le_of_lt hle v.lt⟩, convert_eq_ok.mpr ⟨hlength, rfl⟩, rfl⟩

/-! ### More of every asset -/

/-- More of every asset at no lower prices is worth no less. -/
theorem basketValue_mono (hamounts : List.Forall₂ (· ≤ ·) amounts more)
    (hprices : List.Forall₂ (· ≤ ·) prices prices') :
    basketValue (amounts.zip prices) ≤ basketValue (more.zip prices') := by
  induction hamounts generalizing prices prices' with
  | nil => exact Nat.le_refl _
  | cons hamount _ ih =>
    cases hprices with
    | nil => exact Nat.le_refl _
    | cons hprice hrest =>
      have hproduct := Nat.mul_le_mul hamount hprice
      exact Nat.add_le_add (Nat.div_le_div_right hproduct) (ih hrest)

/-- What is worth no more than a basket with a value has one itself. -/
theorem convert_of_le {a' : UnitPriceAdapter} (h : a'.convert more = .ok v)
    (hamounts : List.Forall₂ (· ≤ ·) amounts more)
    (hprices : List.Forall₂ (· ≤ ·) a.prices a'.prices) :
    ∃ v', a.convert amounts = .ok v' ∧ v' ≤ v := by
  obtain ⟨hlength, hv⟩ := convert_eq_ok.mp h
  have hlength' : a.prices.length = amounts.length := by
    rw [hprices.length_eq, hamounts.length_eq, hlength]
  have hle := basketValue_mono hamounts hprices
  rw [← hv] at hle
  obtain ⟨v', hconvert, hv'⟩ := exists_convert hlength' hle
  rw [← hv'] at hle
  exact ⟨v', hconvert, hle⟩

/-! ### Two baskets together -/

/-- Two baskets together are worth what each is worth, and up to one unit more for every asset. -/
theorem basketValue_add (hfirst : first.length = prices.length)
    (hsecond : second.length = prices.length) (hsum : sum.length = prices.length)
    (hadds : ∀ i, amountAt sum i = amountAt first i + amountAt second i) :
    basketValue (first.zip prices) + basketValue (second.zip prices) ≤
        basketValue (sum.zip prices) ∧
      basketValue (sum.zip prices) ≤
        basketValue (first.zip prices) + basketValue (second.zip prices) + prices.length := by
  induction prices generalizing first second sum with
  | nil => simp [basketValue]
  | cons price rest ih =>
    obtain ⟨m, ms, rfl⟩ := List.exists_cons_of_length_eq_add_one hfirst
    obtain ⟨n, ns, rfl⟩ := List.exists_cons_of_length_eq_add_one hsecond
    obtain ⟨s, ss, rfl⟩ := List.exists_cons_of_length_eq_add_one hsum
    simp only [List.length_cons, Nat.add_right_cancel_iff] at hfirst hsecond hsum
    have hhead : s.toNat = m.toNat + n.toNat := hadds 0
    obtain ⟨hlow, hhigh⟩ := ih hfirst hsecond hsum fun i => hadds (i + 1)
    obtain ⟨hfloors, hfloor⟩ := floor_add_bounds (d := priceScale.toNat) (by decide)
      (m.toNat * price.toNat) (n.toNat * price.toNat)
    simp only [List.zip_cons_cons, basketValue, List.length_cons, hhead, Nat.add_mul]
    omega

/-- So if they have a value together, each of them has one. -/
theorem convert_add (hfirst : first.length = a.prices.length)
    (hsecond : second.length = a.prices.length)
    (hadds : ∀ i, amountAt sum i = amountAt first i + amountAt second i)
    (h : a.convert sum = .ok v) :
    ∃ v₁ v₂ : Amount, a.convert first = .ok v₁ ∧ a.convert second = .ok v₂ ∧
      v₁.toNat + v₂.toNat ≤ v.toNat ∧ v.toNat ≤ v₁.toNat + v₂.toNat + a.prices.length := by
  obtain ⟨hsum, hv⟩ := convert_eq_ok.mp h
  obtain ⟨hlow, hhigh⟩ := basketValue_add hfirst hsecond hsum.symm hadds
  rw [← hv] at hlow hhigh
  obtain ⟨v₁, hvalue₁, hv₁⟩ :=
    exists_convert (v := v) hfirst.symm (Nat.le_trans (Nat.le_add_right _ _) hlow)
  obtain ⟨v₂, hvalue₂, hv₂⟩ :=
    exists_convert (v := v) hsecond.symm (Nat.le_trans (Nat.le_add_left _ _) hlow)
  rw [← hv₁, ← hv₂] at hlow hhigh
  exact ⟨v₁, v₂, hvalue₁, hvalue₂, hlow, hhigh⟩

end UnitPriceAdapter

/-! ### The result -/

open UnitPriceAdapter

/-- What an adapter with these prices and this haircut measures. -/
structure UnitPriceAdapter.Measures (reference : Reference) (prices : List Amount) (spread : Nat) :
    Prop where
  /-- Holdings with one amount per asset have bounds: they themselves above, and what the haircut
  leaves of them below. -/
  bounds : ∀ holdings, holdings.length = prices.length → ∃ lower,
    (new reference prices spread).tvl holdings = .ok ⟨lower, holdings⟩ ∧
      lower.length = holdings.length ∧
      ∀ i, amountAt lower i =
          amountAt holdings i * (basisPoints.toNat - min spread basisPoints.toNat) /
            basisPoints.toNat ∧
        amountAt lower i ≤ amountAt holdings i
  /-- The value of a basket is the exact sum of the floors, and it is refused only if that sum does
  not fit. -/
  exact : ∀ amounts : List Amount, amounts.length = prices.length →
    (new reference prices spread).convert amounts =
      (checked (basketValue (amounts.zip prices))).mapError .math
  /-- A basket with no more of any asset has a value, too, at prices that are no higher, and one
  that is no higher. -/
  monotone : ∀ lesser amounts lowerPrices value,
    List.Forall₂ (· ≤ ·) lesser amounts → List.Forall₂ (· ≤ ·) lowerPrices prices →
    (new reference prices spread).convert amounts = .ok value →
    ∃ value', (new reference lowerPrices spread).convert lesser = .ok value' ∧ value' ≤ value
  /-- If two baskets have a value together, then each has one, and these make up the value of both
  but for one unit per asset at most. -/
  additive : ∀ (first second sum : List Amount) (value : Amount),
    first.length = prices.length → second.length = prices.length →
    (∀ i, amountAt sum i = amountAt first i + amountAt second i) →
    (new reference prices spread).convert sum = .ok value →
    ∃ value₁ value₂ : Amount, (new reference prices spread).convert first = .ok value₁ ∧
      (new reference prices spread).convert second = .ok value₂ ∧
      value₁.toNat + value₂.toNat ≤ value.toNat ∧
      value.toNat ≤ value₁.toNat + value₂.toNat + prices.length
  /-- The lower bounds are worth no more than the upper bounds. -/
  cautious : ∀ holdings bounds upper, (new reference prices spread).tvl holdings = .ok bounds →
    (new reference prices spread).convert bounds.upper = .ok upper →
    ∃ lower, (new reference prices spread).convert bounds.lower = .ok lower ∧ lower ≤ upper

/-- Whatever the prices and the haircut, the bounds of holdings are there and the value of a basket
goes with the basket. -/
theorem adapter_measures (reference : Reference) (prices : List Amount) (spread : Nat) :
    Measures reference prices spread where
  bounds holdings hlength := by
    have hprices : (new reference prices spread).prices.length = holdings.length := hlength.symm
    obtain ⟨⟨lower, upper⟩, htvl⟩ := exists_tvl hprices
    obtain ⟨rfl, hlower, hkept⟩ := tvl_exact htvl
    refine ⟨lower, htvl, hlower, fun i => ⟨?_, (tvl_ok htvl).2 i⟩⟩
    rw [← toNat_spread_new reference prices]
    exact hkept i
  exact amounts hlength := convert_eq hlength.symm
  monotone lesser amounts lowerPrices value hlesser hprices hvalue :=
    convert_of_le (a := new reference lowerPrices spread) hvalue hlesser hprices
  additive first second sum value hfirst hsecond hadds hvalue :=
    convert_add hfirst hsecond hadds hvalue
  cautious holdings bounds upper hbounds hupper := by
    obtain ⟨hholdings, hlength, _⟩ := tvl_exact hbounds
    have hle : List.Forall₂ (· ≤ ·) bounds.lower bounds.upper := by
      rw [hholdings]
      exact forall₂_le_iff.mpr ⟨hlength, (tvl_ok hbounds).2⟩
    have hsame : List.Forall₂ (· ≤ ·) prices prices :=
      forall₂_le_iff.mpr ⟨rfl, fun _ => Nat.le_refl _⟩
    exact convert_of_le hupper hle hsame

/-- One and a half reference units for a unit of either asset, with a haircut of one basis point. -/
def oneAndAHalf : UnitPriceAdapter :=
  .new "half" [.saturate 128 1500000000000000000, .saturate 128 1500000000000000000] 1

/-- The haircut is rounded up for both holdings.  One unit of either asset loses its half unit of
value, and two such baskets get back both halves together, one whole unit for each asset. -/
theorem adapter_measures_one_and_a_half :
    (∃ lower, oneAndAHalf.tvl [.saturate 128 9999, .saturate 128 10] =
        .ok ⟨lower, [.saturate 128 9999, .saturate 128 10]⟩ ∧
      amountAt lower 0 = 9998 ∧ amountAt lower 1 = 9) ∧
    ∃ value value₁ value₂ : Amount,
      oneAndAHalf.convert [.saturate 128 2, .saturate 128 2] = .ok value ∧
      oneAndAHalf.convert [.saturate 128 1, .saturate 128 1] = .ok value₁ ∧
      oneAndAHalf.convert [.saturate 128 1, .saturate 128 1] = .ok value₂ ∧
      value.toNat ≤ value₁.toNat + value₂.toNat + 2 ∧ value₁.toNat + value₂.toNat = 4 ∧
      value.toNat = 6 := by
  have hmeasures := adapter_measures "half"
    [.saturate 128 1500000000000000000, .saturate 128 1500000000000000000] 1
  obtain ⟨lower, htvl, _, hlower⟩ := hmeasures.bounds [.saturate 128 9999, .saturate 128 10] rfl
  obtain ⟨value₁, value₂, hvalue₁, hvalue₂, _, hhigh⟩ := hmeasures.additive
    [.saturate 128 1, .saturate 128 1] [.saturate 128 1, .saturate 128 1]
    [.saturate 128 2, .saturate 128 2] (.saturate 128 6) rfl rfl
    (fun i => match i with | 0 => rfl | 1 => rfl | _ + 2 => rfl) rfl
  refine ⟨⟨lower, htvl, (hlower 0).1, (hlower 1).1⟩, _, _, _, rfl, hvalue₁, hvalue₂, hhigh, ?_, rfl⟩
  cases hvalue₁
  cases hvalue₂
  rfl

end ShareVault
