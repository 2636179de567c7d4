import ShareVault.Proofs.Outcome

/-!
# How computations on amounts fail

A quotient fails when its divisor is zero or when it has too many digits.  The divisors of the vault
are constants, or have been found to be positive before, so that only the digits are left.  There is
one exception: a deposit divides by the bound of an asset, which is known to be no less than a
threshold, and a threshold of zero would not help.

* `Attempt.FailsOnly` — the errors that a computation may end in;
* `Attempt.bind_comm` — the order of two computations that can end in one error only;
* `splitManagement_failsOnly`, `performanceFeeShares_failsOnly` — fees;
* `shareAmount_failsOnly`, `normalize_failsOnly`, `checkFirstDeposit_failsOnly` — the shares and the
  amounts of a deposit, and the check of a first one;
* `payout_failsOnly` — the amounts of a withdrawal;
* `convert_failsOnly` — the value of a basket.
-/

namespace ShareVault

/-! ### Computations that fail with such errors only -/

namespace Attempt

variable {ε ε' α β : Type} {S : ε → Prop} {S' : ε' → Prop}

/-- If the computation fails, then with such an error. -/
def FailsOnly (S : ε → Prop) (x : Except ε α) : Prop := ∀ e, x = .error e → S e

theorem failsOnly_ok (a : α) : FailsOnly S (.ok a) := fun _ h => by cases h

theorem failsOnly_pure (a : α) : FailsOnly S (pure a) := failsOnly_ok a

theorem failsOnly_error {e : ε} (he : S e) : FailsOnly S (.error e : Except ε α) := by
  intro e' h
  cases h
  exact he

theorem failsOnly_throw_bind {e : ε} {f : α → Except ε β} (he : S e) :
    FailsOnly S ((throw e : Except ε α) >>= f) := failsOnly_error he

theorem failsOnly_bind {x : Except ε α} {f : α → Except ε β} (hx : FailsOnly S x)
    (hf : ∀ a, x = .ok a → FailsOnly S (f a)) : FailsOnly S (x >>= f) := by
  cases x with
  | ok a => exact hf a rfl
  | error e => exact failsOnly_error (hx e rfl)

theorem failsOnly_ite {c : Prop} [Decidable c] {x y : Except ε α} (hx : c → FailsOnly S x)
    (hy : ¬ c → FailsOnly S y) : FailsOnly S (if c then x else y) := by
  by_cases h : c
  · rw [if_pos h]
    exact hx h
  · rw [if_neg h]
    exact hy h

theorem failsOnly_mapError {x : Except ε α} {f : ε → ε'} (hx : FailsOnly S x)
    (hf : ∀ e, S e → S' (f e)) : FailsOnly S' (x.mapError f) := by
  intro e h
  obtain ⟨e₀, hfails, rfl⟩ := mapError_eq_error.mp h
  exact hf e₀ (hx e₀ hfails)

theorem exists_ok_of_failsOnly {x : Except ε α} (h : FailsOnly (fun _ => False) x) :
    ∃ a, x = .ok a := by
  cases x with
  | ok a => exact ⟨a, rfl⟩
  | error e => exact (h e rfl).elim

/-- Two computations that fail in one way only can be made in either order. -/
theorem bind_comm {γ : Type} {e : ε} {x : Except ε α} {y : Except ε β} {f : α → β → Except ε γ}
    (hx : FailsOnly (· = e) x) (hy : FailsOnly (· = e) y) :
    (x >>= fun a => y >>= fun b => f a b) = (y >>= fun b => x >>= fun a => f a b) := by
  cases x with
  | ok a => rfl
  | error e₁ =>
    cases y with
    | ok b => rfl
    | error e₂ =>
      obtain rfl := hx e₁ rfl
      obtain rfl := hy e₂ rfl
      rfl

/-- A step for every element of a list fails with such errors only if every step does. -/
theorem failsOnly_mapM {f : α → Except ε β} {l : List α} (h : ∀ a ∈ l, FailsOnly S (f a)) :
    FailsOnly S (l.mapM f) := by
  induction l with
  | nil => exact failsOnly_pure _
  | cons a rest ih =>
    rw [List.forall_mem_cons] at h
    rw [List.mapM_cons]
    refine failsOnly_bind h.1 fun b _ => ?_
    exact failsOnly_bind (ih h.2) fun bs _ => failsOnly_pure _

end Attempt

open Attempt

/-! ### Quotients -/

theorem checked_failsOnly (n : Nat) : FailsOnly (· = .overflow) (checked n) :=
  fun _ h => checked_error h

theorem mulDiv_failsOnly {a b d : Amount} (hd : d ≠ 0) :
    FailsOnly (· = .overflow) (mulDiv a b d) := by
  intro e h
  cases e with
  | overflow => rfl
  | divisionByZero => exact (hd (mulDiv_eq_divisionByZero.mp h)).elim

/-! ### Fees -/

theorem managementFeeShares_failsOnly (rate : Amount) (elapsed : Timestamp) (supply : Amount) :
    FailsOnly (· = .overflow) (managementFeeShares rate elapsed supply) := by
  refine failsOnly_bind (checked_failsOnly _) fun rateTime _ => ?_
  refine failsOnly_bind (checked_failsOnly _) fun scale hscale => mulDiv_failsOnly ?_
  rintro rfl
  exact absurd (checked_eq_ok.mp hscale) (by decide)

theorem performanceFeeShares_failsOnly (supply price mark rate : Amount) :
    FailsOnly (· = .overflow) (performanceFeeShares supply price mark rate) := by
  unfold performanceFeeShares
  split
  next h =>
    refine failsOnly_bind (mulDiv_failsOnly h.2) fun growth _ => ?_
    exact mulDiv_failsOnly (by decide)
  next => exact failsOnly_ok _

theorem splitManagement_failsOnly (schedule : FeeSchedule) (elapsed : Timestamp)
    (supply : Amount) : FailsOnly (· = .overflow) (splitManagement schedule elapsed supply) := by
  refine failsOnly_bind (checked_failsOnly _) fun rate _ => ?_
  refine failsOnly_ite (fun _ => failsOnly_pure _) fun hrate => ?_
  refine failsOnly_bind (managementFeeShares_failsOnly _ _ _) fun management _ => ?_
  exact failsOnly_bind (mulDiv_failsOnly hrate) fun strategy _ => failsOnly_pure _

section Charges

variable {ledger : ShareLedger} {schedule : FeeSchedule} {lower existentials : List Amount}
  {now : Timestamp}

/-- What is owed for time fails to be computed only as its two parts do. -/
theorem Accrual.of_failsOnly {S : MathError → Prop}
    (h : ∀ elapsed supply, FailsOnly S (splitManagement schedule elapsed supply)) :
    FailsOnly S (Accrual.of ledger schedule lower existentials now) := by
  refine failsOnly_ite (fun _ => failsOnly_ok _) fun _ => ?_
  refine failsOnly_ite (fun _ => failsOnly_ok _) fun _ => ?_
  refine failsOnly_ite (fun _ => failsOnly_ok _) fun _ => ?_
  exact failsOnly_bind (h _ _) fun shares _ => failsOnly_pure _

/-- Shares are owed for time only when there are shares. -/
theorem Accrual.supply_ne_zero {strategy protocol : Amount}
    (h : Accrual.of ledger schedule lower existentials now = .ok (.due strategy protocol)) :
    ledger.totalSupply ≠ 0 := by
  intro hempty
  unfold Accrual.of at h
  simp only [if_pos hempty] at h
  split at h
  next => cases h
  next =>
    split at h
    next => cases h
    next => cases h

end Charges

theorem ShareLedger.mint_failsOnly (l : ShareLedger) (receiver : Account) (amount : Amount) :
    FailsOnly (· = .overflow) (l.mint receiver amount) := by
  refine failsOnly_ite (fun _ => failsOnly_ok _) fun _ => ?_
  split
  next => exact failsOnly_ok _
  next => exact failsOnly_error rfl

/-! ### Deposits and withdrawals -/

/-- A division by zero needs a threshold of zero. -/
abbrev MathError.DividesBy (existentials : List Amount) (e : MathError) : Prop :=
  e = .divisionByZero → 0 ∈ existentials

theorem MathError.dividesBy_of_overflow {existentials : List Amount} :
    ∀ e : MathError, e = .overflow → e.DividesBy existentials := by
  rintro _ rfl
  exact nofun

/-- A bound that reaches its threshold is zero only if the threshold is. -/
theorem mulDiv_bound_failsOnly {a b bound existential : Amount} {existentials : List Amount}
    (hworth : ¬ bound < existential) (hmem : existential ∈ existentials) :
    FailsOnly (MathError.DividesBy existentials) (mulDiv a b bound) := by
  rintro e h rfl
  obtain rfl := mulDiv_eq_divisionByZero.mp h
  have hzero : existential = 0 := Word.ext (Nat.le_zero.mp (Nat.not_lt.mp hworth))
  exact hzero ▸ hmem

/-- The least number of shares fails to be computed only as the shares of a significant asset do. -/
theorem leastShares_failsOnly {S : MathError → Prop} {supply : Amount}
    {entries : List (Amount × Amount × Amount)} {least : Option Amount}
    (h : ∀ t a e, (t, a, e) ∈ entries → ¬ t < e → FailsOnly S (mulDiv a supply t)) :
    FailsOnly S (leastShares supply entries least) := by
  induction entries generalizing least with
  | nil => exact failsOnly_ok _
  | cons entry rest ih =>
    obtain ⟨t, a, e⟩ := entry
    have hrest := fun t a e hmem => h t a e (List.mem_cons_of_mem _ hmem)
    refine failsOnly_ite (fun _ => ih hrest) fun hworth => ?_
    exact failsOnly_bind (h t a e List.mem_cons_self hworth) fun candidate _ => ih hrest

/-- So do the shares of a basket. -/
theorem shareAmount_failsOnly_of {S : MathError → Prop} {tvl amounts existentials : List Amount}
    {supply : Amount}
    (h : ∀ t a e, (t, a, e) ∈ sideBySide tvl amounts existentials → ¬ t < e →
      FailsOnly S (mulDiv a supply t)) :
    FailsOnly S (shareAmount tvl amounts supply existentials) := by
  refine failsOnly_ite (fun _ => failsOnly_ok _) fun _ => ?_
  refine failsOnly_bind (leastShares_failsOnly h) ?_
  intro least _
  cases least with
  | some shares => exact failsOnly_pure _
  | none => exact failsOnly_pure _

/-- The thresholds side by side with other amounts are thresholds. -/
theorem existential_mem_of_sideBySide {tvl amounts existentials : List Amount}
    {entry : Amount × Amount × Amount} (h : entry ∈ sideBySide tvl amounts existentials) :
    entry.2.2 ∈ existentials := by
  obtain ⟨t, a, e⟩ := entry
  exact (List.of_mem_zip (List.of_mem_zip h).2).2

theorem shareAmount_failsOnly (tvl amounts : List Amount) (supply : Amount)
    (existentials : List Amount) :
    FailsOnly (MathError.DividesBy existentials) (shareAmount tvl amounts supply existentials) :=
  shareAmount_failsOnly_of fun _ _ _ hmem hworth =>
    mulDiv_bound_failsOnly hworth (existential_mem_of_sideBySide hmem)

/-- An asset decides on the shares only when there are shares. -/
theorem supply_ne_zero_of_significant {tvl amounts existentials : List Amount}
    {supply shares : Amount}
    (h : shareAmount tvl amounts supply existentials = .ok (shares, true)) : supply ≠ 0 := by
  intro hempty
  unfold shareAmount at h
  rw [if_pos hempty] at h
  cases h

/-- The amounts that shares cost fail to be computed only as that of a significant asset does. -/
theorem normalize_failsOnly_of {S : MathError → Prop} {tvl amounts existentials : List Amount}
    {shares supply : Amount} {significant : Bool}
    (h : significant = true → ∀ t a e, (t, a, e) ∈ sideBySide tvl amounts existentials →
      ¬ t < e → FailsOnly S (mulDiv t shares supply)) :
    FailsOnly S (normalize tvl amounts shares supply significant existentials) := by
  refine failsOnly_ite (fun hs => failsOnly_mapM ?_) fun _ => failsOnly_ok _
  rintro ⟨t, a, e⟩ hmem
  refine failsOnly_ite (fun _ => failsOnly_ok _) fun hworth => ?_
  exact failsOnly_bind (h hs t a e hmem hworth) fun cost _ => failsOnly_pure _

theorem normalize_failsOnly {tvl amounts : List Amount} {shares supply : Amount}
    {significant : Bool} {existentials : List Amount} (hsupply : significant = true → supply ≠ 0) :
    FailsOnly (· = .overflow) (normalize tvl amounts shares supply significant existentials) :=
  normalize_failsOnly_of fun hs _ _ _ _ _ => mulDiv_failsOnly (hsupply hs)

/-- A first deposit that is not accepted brings too little of some asset. -/
theorem checkFirstDeposit_failsOnly {S : VaultError → Prop}
    (h : ∀ i a m, S (.firstDepositTooSmall i a m)) (index : Nat)
    (entries : List (Amount × Amount)) : FailsOnly S (checkFirstDeposit index entries) := by
  induction entries generalizing index with
  | nil => exact failsOnly_ok _
  | cons entry rest ih => exact failsOnly_ite (fun _ => failsOnly_error (h _ _ _)) fun _ => ih _

theorem payout_failsOnly {tvl shares supply held : Amount} (hsupply : supply ≠ 0) :
    FailsOnly (· = .overflow) (payout tvl shares supply held) :=
  failsOnly_bind (mulDiv_failsOnly hsupply) fun _ _ => failsOnly_pure _

/-! ### Values -/

theorem worth_failsOnly (total : Amount) (entries : List (Amount × Amount)) :
    FailsOnly (· = .overflow) (UnitPriceAdapter.worth total entries) := by
  induction entries generalizing total with
  | nil => exact failsOnly_ok _
  | cons entry rest ih =>
    refine failsOnly_bind (mulDiv_failsOnly (by decide)) fun value _ => ?_
    exact failsOnly_bind (checked_failsOnly _) fun sum _ => ih sum

/-- A basket with one amount per asset has a value, or too large a one. -/
theorem convert_failsOnly (a : UnitPriceAdapter) {amounts : List Amount}
    (hlength : a.prices.length = amounts.length) :
    FailsOnly (· = .math .overflow) (a.convert amounts) := by
  unfold UnitPriceAdapter.convert UnitPriceAdapter.checkLength
  rw [if_pos hlength]
  refine failsOnly_mapError (worth_failsOnly _ _) ?_
  rintro _ rfl
  rfl

end ShareVault
