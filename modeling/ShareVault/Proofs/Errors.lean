import ShareVault.Proofs.Accounting
import ShareVault.Proofs.Overflow

/-!
# Errors of a call

Two errors are about the vault itself: it is busy, or it knows no source of prices by some name.
Each is raised in one place, and whatever else fails, fails with another error.  A division by zero
would have to come from a threshold of zero.

* `VaultError.Regular` — all errors of computations on amounts, shares and governance;
* `Effectful.FailsWith` — how a step fails, if it does;
* `ChargeError`, `chargeFees_failsOnly` — how a charge fails;
* `Call.lookup?` — the name by which a call looks for a source of prices;
* `perform_error_idle` — an idle vault turns no call away, the names it does not know are unknown
  indeed, and it divides by no zero but a threshold.
-/

namespace ShareVault

variable {ε τ σ A α β : Type}

/-- Whether an error is neither about the vault itself nor a division by zero. -/
def VaultError.ordinary : VaultError → Bool
  | .reentrant => false
  | .unknownAdapter _ => false
  | .math .divisionByZero => false
  | _ => true

/-- An error that a computation may end in, in a vault with these thresholds. -/
inductive VaultError.Regular (existentials : List Amount) : VaultError → Prop where
  | ordinary {e : VaultError} (h : e.ordinary = true) : Regular existentials e
  | division (zero : 0 ∈ existentials) : Regular existentials (.math .divisionByZero)

/-! ### Computations that fail with regular errors -/

open Attempt

section Computations

variable {existentials : List Amount}

theorem VaultError.regular_math {e : MathError} (h : e.DividesBy existentials) :
    (VaultError.math e).Regular existentials := by
  cases e with
  | overflow => exact .ordinary rfl
  | divisionByZero => exact .division (h rfl)

/-- The errors of a part of the vault are regular. -/
theorem regular_mapError {x : Except ε α} {f : ε → VaultError}
    (hf : ∀ e, (f e).Regular existentials) :
    FailsOnly (VaultError.Regular existentials) (x.mapError f) :=
  failsOnly_mapError (S := fun _ => True) (fun _ _ => trivial) fun e _ => hf e

/-- So are the errors of computations on amounts that divide by no zero but a threshold. -/
theorem regular_mapError_math {x : Except MathError α}
    (hx : FailsOnly (MathError.DividesBy existentials) x) :
    FailsOnly (VaultError.Regular existentials) (x.mapError VaultError.math) :=
  failsOnly_mapError hx fun _ => VaultError.regular_math

theorem regular_mapError_overflow {x : Except MathError α} (hx : FailsOnly (· = .overflow) x) :
    FailsOnly (VaultError.Regular existentials) (x.mapError VaultError.math) :=
  failsOnly_mapError hx fun e he => VaultError.regular_math (e.dividesBy_of_overflow he)

theorem checkLength_failsOnly (expected got : Nat) :
    FailsOnly (VaultError.Regular existentials) (checkLength expected got) :=
  failsOnly_ite (fun _ => failsOnly_ok _) fun _ => failsOnly_error (.ordinary rfl)

theorem limits_failsOnly (limits : DepositLimits) (supplyAfter balanceAfter : Amount) :
    FailsOnly (VaultError.Regular existentials) (limits.check supplyAfter balanceAfter) := by
  unfold DepositLimits.check
  split
  · exact failsOnly_ok _
  · exact failsOnly_error (.ordinary rfl)

theorem planDeposit_failsOnly (upper requested : List Amount) (supply : Amount) :
    FailsOnly (VaultError.Regular existentials)
      (planDeposit upper requested supply existentials) := by
  refine failsOnly_bind (checkLength_failsOnly _ _) fun _ _ => ?_
  refine failsOnly_bind (checkLength_failsOnly _ _) fun _ _ => ?_
  refine failsOnly_bind (regular_mapError_math (shareAmount_failsOnly _ _ _ _)) ?_
  rintro ⟨provisional, significant⟩ hprovisional
  have hsupply : significant = true → supply ≠ 0 := by
    rintro rfl
    exact supply_ne_zero_of_significant (mapError_eq_ok.mp hprovisional)
  refine failsOnly_bind (regular_mapError_overflow (normalize_failsOnly hsupply)) ?_
  intro amounts _
  refine failsOnly_bind (regular_mapError_math (shareAmount_failsOnly _ _ _ _)) ?_
  rintro ⟨shares, decided⟩ _
  have hlast : FailsOnly (VaultError.Regular existentials) (do
      if shares = 0 then
        throw .zeroShares
      return ⟨shares, amounts⟩ : Except VaultError DepositPlan) :=
    failsOnly_ite (fun _ => failsOnly_throw_bind (.ordinary rfl)) fun _ => failsOnly_pure _
  refine failsOnly_ite (fun _ => ?_) fun _ => hlast
  refine failsOnly_bind (checkFirstDeposit_failsOnly ?_ _ _) fun _ _ => hlast
  exact fun _ _ _ => .ordinary rfl

theorem payouts_failsOnly {shares supply : Amount} (hsupply : supply ≠ 0) (index : Nat)
    (entries : List (Amount × Amount × Amount)) :
    FailsOnly (VaultError.Regular existentials) (payouts shares supply index entries) := by
  induction entries generalizing index with
  | nil => exact failsOnly_ok _
  | cons entry rest ih =>
    refine failsOnly_bind (regular_mapError_overflow (payout_failsOnly hsupply)) ?_
    intro amount _
    refine failsOnly_ite (fun _ => failsOnly_throw_bind (.ordinary rfl)) fun _ => ?_
    exact failsOnly_bind (ih _) fun _ _ => failsOnly_pure _

theorem planWithdraw_failsOnly (lower holdings : List Amount) (shares supply : Amount)
    (minAmounts : List Amount) :
    FailsOnly (VaultError.Regular existentials)
      (planWithdraw lower holdings shares supply minAmounts) := by
  refine failsOnly_bind (checkLength_failsOnly _ _) fun _ _ => ?_
  refine failsOnly_bind (checkLength_failsOnly _ _) fun _ _ => ?_
  refine failsOnly_ite (fun _ => failsOnly_throw_bind (.ordinary rfl)) fun hsupply => ?_
  refine failsOnly_ite (fun _ => failsOnly_throw_bind (.ordinary rfl)) fun _ => ?_
  exact payouts_failsOnly hsupply _ _

theorem settleDeposit_failsOnly (governance : VaultGovernance) (charged : ShareLedger)
    (upper : List Amount) (caller : Account) (amounts : List Amount) (minShares : Amount) :
    FailsOnly (VaultError.Regular existentials)
      (settleDeposit governance existentials charged upper caller amounts minShares) := by
  refine failsOnly_bind (planDeposit_failsOnly _ _ _) fun plan _ => ?_
  refine failsOnly_ite (fun _ => failsOnly_throw_bind (.ordinary rfl)) fun _ => ?_
  refine failsOnly_bind (limits_failsOnly _ _ _) fun _ _ => ?_
  exact failsOnly_bind (regular_mapError fun _ => .ordinary rfl) fun _ _ => failsOnly_pure _

theorem settleWithdrawal_failsOnly (charged : ShareLedger) (lower holdings : List Amount)
    (caller : Account) (shares : Amount) (minAmounts : List Amount) :
    FailsOnly (VaultError.Regular existentials)
      (settleWithdrawal charged lower holdings caller shares minAmounts) := by
  refine failsOnly_bind (planWithdraw_failsOnly _ _ _ _ _) fun amounts _ => ?_
  exact failsOnly_bind (regular_mapError fun _ => .ordinary rfl) fun _ _ => failsOnly_pure _

end Computations

/-! ### Steps and how they fail -/

namespace Effectful

/-- In this state the step fails with such errors only. -/
def FailsWith (S : ε → Prop) (m : EStateM ε τ α) (s : τ) : Prop :=
  ∀ e s', m s = .error e s' → S e

variable {S : ε → Prop} {s : τ}

theorem failsWith_pure (a : α) : FailsWith S (pure a : EStateM ε τ α) s :=
  fun _ _ h => (pure_eq_error.mp h).elim

theorem failsWith_throw {e : ε} (he : S e) : FailsWith S (throw e : EStateM ε τ α) s := by
  intro e' s' h
  cases h
  exact he

theorem failsWith_set (t : τ) : FailsWith S (set t : EStateM ε τ PUnit) s :=
  fun _ _ h => (set_eq_error.mp h).elim

theorem failsWith_bind {m : EStateM ε τ α} {f : α → EStateM ε τ β} (hm : FailsWith S m s)
    (hf : ∀ a s', m s = .ok a s' → FailsWith S (f a) s') : FailsWith S (m >>= f) s := by
  intro e s'' h
  rcases bind_eq_error.mp h with h | ⟨a, s', h₁, h₂⟩
  · exact hm e s'' h
  · exact hf a s' h₁ e s'' h₂

theorem failsWith_get {f : τ → EStateM ε τ α} (h : FailsWith S (f s) s) :
    FailsWith S (get >>= f) s := h

theorem failsWith_throw_bind {e : ε} {f : α → EStateM ε τ β} (he : S e) :
    FailsWith S ((throw e : EStateM ε τ α) >>= f) s := failsWith_throw he

theorem failsWith_ite {c : Prop} [Decidable c] {m m' : EStateM ε τ α} (hm : FailsWith S m s)
    (hm' : FailsWith S m' s) : FailsWith S (if c then m else m') s := by
  by_cases h : c
  · rw [if_pos h]
    exact hm
  · rw [if_neg h]
    exact hm'

end Effectful

open Effectful

/-! ### Fees -/

/-- The errors that a charge may end in, by the answer it gets when it asks for the value of the
holdings. -/
inductive ChargeError (answer : Except ValuationError Amount) : VaultError → Prop where
  /-- The value per share, or the shares owed, have too many digits. -/
  | amounts : ChargeError answer (.math .overflow)
  /-- With the new shares the supply or a balance would have too many digits. -/
  | minting : ChargeError answer (.ledger .overflow)
  /-- There is no value. -/
  | appraisal {e} (fails : answer = .error e) : ChargeError answer (.valuation e)

theorem ChargeError.regular {answer : Except ValuationError Amount} {e : VaultError}
    {existentials : List Amount} (h : ChargeError answer e) : e.Regular existentials := by
  cases h with
  | amounts => exact .ordinary rfl
  | minting => exact .ordinary rfl
  | appraisal fails => exact .ordinary rfl

namespace LedgerStep

variable {ledger : ShareLedger} {answer : Except ValuationError Amount}

theorem failsWith_lift {S : VaultError → Prop} {x : Except VaultError α} (hx : FailsOnly S x) :
    FailsWith S (lift x) ledger := by
  intro e l h
  cases x with
  | ok a => cases h
  | error e₀ =>
    cases h
    exact hx _ rfl

/-- Computations on amounts, in a charge, overflow at worst. -/
theorem failsWith_lift_math {x : Except MathError α} (hx : FailsOnly (· = .overflow) x) :
    FailsWith (ChargeError answer) (lift (x.mapError VaultError.math)) ledger := by
  refine failsWith_lift (failsOnly_mapError hx ?_)
  rintro _ rfl
  exact .amounts

theorem failsWith_mint (treasury : Account) (amount : Amount) :
    FailsWith (ChargeError answer) (mint treasury amount) ledger := by
  have hmint : FailsOnly (ChargeError answer)
      ((ledger.mint treasury amount).mapError VaultError.ledger) := by
    refine failsOnly_mapError (ledger.mint_failsOnly treasury amount) ?_
    rintro _ rfl
    exact .minting
  exact failsWith_get (failsWith_bind (failsWith_lift hmint) fun _ _ _ => failsWith_set _)

theorem failsWith_performance (schedule : FeeSchedule) (value : Amount) (owed : FeeCharge)
    (hsupply : ledger.totalSupply ≠ 0) :
    FailsWith (ChargeError answer) (performance schedule value owed) ledger := by
  refine failsWith_get (failsWith_bind (failsWith_lift_math (mulDiv_failsOnly hsupply)) ?_)
  intro price _ _
  refine failsWith_bind (failsWith_lift_math (performanceFeeShares_failsOnly _ _ _ _)) ?_
  intro minted _ _
  exact failsWith_bind (failsWith_set _) fun _ _ _ => failsWith_pure _

theorem failsWith_charge (schedule : FeeSchedule) (lower existentials : List Amount)
    (appraise : List Amount → Except ValuationError Amount) (now : Timestamp) :
    FailsWith (ChargeError (appraise lower)) (charge schedule lower existentials appraise now)
      ledger := by
  have hsplit := splitManagement_failsOnly schedule
  refine failsWith_get (failsWith_bind (failsWith_lift_math (Accrual.of_failsOnly hsplit)) ?_)
  intro accrual ledger' haccrual
  obtain ⟨haccrual, rfl⟩ := LedgerStep.lift_eq_ok.mp haccrual
  cases accrual with
  | skip reason => exact failsWith_pure _
  | idle => exact failsWith_bind (failsWith_set _) fun _ _ _ => failsWith_pure _
  | due strategy protocol =>
    have hsupply := Accrual.supply_ne_zero (mapError_eq_ok.mp haccrual)
    have hmints : ∀ fees l, FailsWith (ChargeError (appraise lower)) (do
        mint schedule.strategyTreasury (FeeCharge.strategyMinted fees)
        mint schedule.protocolTreasury fees.protocolMinted
        mint schedule.performanceTreasury fees.performanceMinted
        modify (·.recordCharge (max now ledger'.lastFeeCharge))
        return fees : LedgerStep FeeCharge) l := by
      intro fees l
      refine failsWith_bind (failsWith_mint _ _) fun _ _ _ => ?_
      refine failsWith_bind (failsWith_mint _ _) fun _ _ _ => ?_
      refine failsWith_bind (failsWith_mint _ _) fun _ _ _ => ?_
      exact failsWith_bind (fun _ _ h => by cases h) fun _ _ _ => failsWith_pure _
    refine failsWith_ite ?_ (hmints _ _)
    refine failsWith_bind (failsWith_lift ?_) fun value l hvalue => ?_
    · exact failsOnly_mapError (S := fun e => appraise lower = .error e) (fun _ h => h)
        fun _ => .appraisal
    · obtain ⟨_, rfl⟩ := LedgerStep.lift_eq_ok.mp hvalue
      exact failsWith_bind (failsWith_performance _ _ _ hsupply) fun fees l _ => hmints _ _

end LedgerStep

/-- A charge fails because something overflows, or because there is no value. -/
theorem chargeFees_failsOnly (ledger : ShareLedger) (schedule : FeeSchedule)
    (lower existentials : List Amount) (appraise : List Amount → Except ValuationError Amount)
    (now : Timestamp) :
    FailsOnly (ChargeError (appraise lower))
      (chargeFees ledger schedule lower existentials appraise now).1 := by
  intro e h
  unfold chargeFees at h
  split at h
  next => cases h
  next hfails =>
    cases h
    exact LedgerStep.failsWith_charge _ _ _ _ _ _ _ hfails

/-! ### Calls -/

/-- The name by which a call looks for a source of prices. -/
def Call.lookup? (v : Vault A) : Call A → Option Reference
  | .deposit .. => some v.state.governance.schedule.valuationReference
  | .withdraw .. => some v.state.governance.schedule.valuationReference
  | .previewFees => some v.state.governance.schedule.valuationReference
  | .stage _ _ (.reference r) => some r
  | _ => none

/-- An error that a call on an idle vault may end in.  It is not turned away, a source of prices is
unknown to it only if it has looked for one by a name that the vault does not know, and it divides
by zero only if a threshold is zero. -/
structure Call.Grounds (v : Vault A) (c : Call A) (e : VaultError) : Prop where
  accepted : e ≠ .reentrant
  unknown : ∀ r, e = .unknownAdapter r → c.lookup? v = some r ∧ v.adapters.get? r = none
  divisor : e = .math .divisionByZero → 0 ∈ v.config.existentials

theorem Call.grounds_of_regular {v : Vault A} {c : Call A} {e : VaultError}
    (he : e.Regular v.config.existentials) : c.Grounds v e where
  accepted := by
    rintro rfl
    cases he with
    | ordinary h => cases h
  unknown := by
    rintro r rfl
    cases he with
    | ordinary h => cases h
  divisor := by
    rintro rfl
    cases he with
    | ordinary h => cases h
    | division zero => exact zero

theorem Call.grounds_unknown {v : Vault A} {c : Call A} {r : Reference}
    (hlookup : c.lookup? v = some r) (hnone : v.adapters.get? r = none) :
    c.Grounds v (.unknownAdapter r) where
  accepted := nofun
  unknown := by
    rintro r' h
    cases h
    exact ⟨hlookup, hnone⟩
  divisor := nofun

namespace Operation

variable {nested : Performer σ A} {host : Host σ A} {w : World σ A} {S : VaultError → Prop}

/-- Outside code answers with a value, whatever the value says. -/
theorem failsWith_consult (script : σ → Script σ A α) : FailsWith S (consult nested script) w :=
  fun _ _ h => by cases h

theorem failsWith_takeOver {result : Except VaultError FeeCharge × ShareLedger}
    (h : ∀ e charged, result = (.error e, charged) → S e) :
    FailsWith S (match result with
      | (.ok charge, charged) => (pure (charge, charged) : Operation σ A _)
      | (.error e, _) => throw e) w := by
  rcases result with ⟨e | fees, charged⟩
  · exact failsWith_throw (h e charged rfl)
  · exact failsWith_pure _

section Steps

variable {existentials : List Amount} (hS : ∀ e, e.Regular existentials → S e)
include hS

theorem failsWith_lift {x : Except VaultError α}
    (hx : FailsOnly (VaultError.Regular existentials) x) :
    FailsWith S (lift x : Operation σ A α) w :=
  fun e _ h => hS e (hx e (lift_eq_error.mp h).1)

theorem failsWith_part {x : Except ε α} {f : ε → VaultError}
    (hf : ∀ e, (f e).Regular existentials) :
    FailsWith S (lift (x.mapError f) : Operation σ A α) w :=
  failsWith_lift hS (regular_mapError hf)

theorem failsWith_valuation (adapter : A) : FailsWith S (valuation nested host adapter) w := by
  refine failsWith_get (failsWith_bind (failsWith_consult _) fun answer _ _ => ?_)
  refine failsWith_bind (failsWith_part hS fun _ => .ordinary rfl) fun _ _ _ => ?_
  refine failsWith_bind (failsWith_lift hS (checkLength_failsOnly _ _)) fun _ _ _ => ?_
  refine failsWith_bind (failsWith_consult _) fun answer _ _ => ?_
  refine failsWith_bind (failsWith_part hS fun _ => .ordinary rfl) fun _ _ _ => ?_
  refine failsWith_bind (failsWith_lift hS (checkLength_failsOnly _ _)) fun _ _ _ => ?_
  refine failsWith_bind (failsWith_lift hS (checkLength_failsOnly _ _)) fun _ _ _ => ?_
  exact failsWith_pure _

theorem failsWith_charge (adapter : A) (ledger : ShareLedger) (schedule : FeeSchedule)
    (lower : List Amount) (now : Timestamp) :
    FailsWith S (charge nested host adapter ledger schedule lower now) w := by
  have hregular (value : Except ValuationError Amount) (e : VaultError) (charged : ShareLedger)
      (hfails : chargeFees ledger schedule lower w.vault.config.existentials (fun _ => value) now =
        (.error e, charged)) : S e :=
    hS e (chargeFees_failsOnly _ _ _ _ _ _ e (congrArg Prod.fst hfails)).regular
  refine failsWith_get (failsWith_ite ?_ ?_)
  · exact failsWith_bind (failsWith_consult _) fun value _ _ => failsWith_takeOver (hregular value)
  · exact failsWith_bind (failsWith_pure _) fun value _ _ => failsWith_takeOver (hregular value)

theorem failsWith_payment {script : σ → Script σ A (Except CustodyError Unit)}
    (effect : Effect α) :
    FailsWith S (do
      lift ((← consult nested script).mapError .custody)
      return effect : Operation σ A (Effect α)) w := by
  refine failsWith_bind (failsWith_consult _) fun _ _ _ => ?_
  refine failsWith_bind (failsWith_part hS fun _ => .ordinary rfl) fun _ _ _ => ?_
  exact failsWith_pure _

end Steps

/-- Once a call has begun, it looks for its source of prices in the vault as it was. -/
theorem failsWith_adapterOf {c : Call A} {r : Reference} (hlookup : c.lookup? w.vault = some r) :
    FailsWith (c.Grounds w.vault) (adapterOf r : Operation σ A A) (w.mapVault .begin) := by
  refine failsWith_get ?_
  cases hfound : (w.mapVault .begin).vault.adapters.get? r with
  | none => exact failsWith_throw (Call.grounds_unknown hlookup hfound)
  | some adapter => exact failsWith_pure adapter

theorem failsWith_mutate {body : VaultState → Timestamp → Operation σ A (Effect α)}
    (hidle : w.vault.entered = false)
    (hbody : FailsWith S (body w.vault.state (host.now w.host)) (w.mapVault .begin)) :
    FailsWith S (mutate host body) w := by
  intro e w' h
  obtain ⟨w₁, hfails, rfl⟩ := mutate_error hidle h
  exact hbody _ _ hfails

theorem failsWith_guarded {body : Operation σ A α} (hidle : w.vault.entered = false)
    (hbody : FailsWith S body (w.mapVault .begin)) : FailsWith S (guarded body) w := by
  intro e w' h
  rw [guarded_idle hidle] at h
  split at h
  next => cases h
  next e₁ w₁ hfails =>
    cases h
    exact hbody _ _ hfails

theorem failsWith_govern {existentials : List Amount} (hS : ∀ e, e.Regular existentials → S e)
    {body : VaultGovernance → Timestamp →
      Except GovernanceError (VaultGovernance × Reply × VaultEvent)}
    (hidle : w.vault.entered = false) : FailsWith S (govern host body) w := by
  refine failsWith_mutate hidle ?_
  refine failsWith_bind (failsWith_part hS fun _ => .ordinary rfl) fun _ _ _ => ?_
  exact failsWith_pure _

/-- A call on an idle vault fails for a reason. -/
theorem ofCall_failsWith (hn : nested.Attends) (host : Host σ A)
    (hidle : w.vault.entered = false) (c : Call A) :
    FailsWith (c.Grounds w.vault) (ofCall nested host c) w := by
  have hS : ∀ e, e.Regular w.vault.config.existentials → c.Grounds w.vault e :=
    fun _ => Call.grounds_of_regular
  cases c with
  | deposit caller amounts minShares deadline =>
    rw [ofCall, deposit]
    refine failsWith_mutate hidle ?_
    refine failsWith_ite (failsWith_throw_bind (hS _ (.ordinary rfl))) ?_
    refine failsWith_get ?_
    refine failsWith_bind (failsWith_lift hS (checkLength_failsOnly _ _)) fun _ _ h => ?_
    obtain ⟨_, rfl⟩ := lift_eq_ok.mp h
    refine failsWith_ite ?_ (failsWith_throw_bind (hS _ (.ordinary rfl)))
    refine failsWith_bind (failsWith_adapterOf rfl) fun adapter _ h => ?_
    obtain ⟨_, rfl⟩ := adapterOf_eq_ok.mp h
    refine failsWith_bind (failsWith_valuation hS adapter) fun appraisal _ happraises => ?_
    refine failsWith_bind (failsWith_charge hS adapter _ _ _ _) fun charge settled hcharges => ?_
    refine failsWith_get ?_
    -- the thresholds are those of the vault, whatever outside code has done meanwhile
    rw [(settled_meanwhile hn happraises hcharges).vault.config_eq]
    refine failsWith_bind (failsWith_lift hS (settleDeposit_failsOnly _ _ _ _ _ _)) ?_
    intro settlement _ _
    exact failsWith_payment hS _
  | withdraw caller shares minAmounts recipient =>
    rw [ofCall, withdraw]
    refine failsWith_mutate hidle ?_
    refine failsWith_get ?_
    refine failsWith_bind (failsWith_lift hS (checkLength_failsOnly _ _)) fun _ _ h => ?_
    obtain ⟨_, rfl⟩ := lift_eq_ok.mp h
    refine failsWith_bind (failsWith_adapterOf rfl) fun adapter _ _ => ?_
    refine failsWith_bind (failsWith_valuation hS adapter) fun appraisal _ _ => ?_
    refine failsWith_bind (failsWith_charge hS adapter _ _ _ _) fun charge _ _ => ?_
    refine failsWith_bind (failsWith_lift hS (settleWithdrawal_failsOnly _ _ _ _ _ _)) ?_
    intro settlement _ _
    exact failsWith_payment hS _
  | transfer caller receiver amount =>
    rw [ofCall, transfer]
    refine failsWith_mutate hidle ?_
    refine failsWith_bind (failsWith_part hS fun _ => .ordinary rfl) fun _ _ _ => ?_
    exact failsWith_pure _
  | stage caller p value =>
    rw [ofCall, stage]
    refine failsWith_mutate hidle ?_
    have hchecks : FailsWith ((Call.stage caller p value).Grounds w.vault)
        (checkReference value) (w.mapVault .begin) := by
      cases value with
      | reference r =>
        refine failsWith_bind (failsWith_adapterOf rfl) fun _ _ _ => ?_
        exact failsWith_pure _
      | rate a => exact failsWith_pure _
      | seconds t => exact failsWith_pure _
      | account a => exact failsWith_pure _
    refine failsWith_bind hchecks fun _ _ _ => ?_
    refine failsWith_bind (failsWith_part hS fun _ => .ordinary rfl) fun _ _ _ => ?_
    exact failsWith_pure _
  | commit caller p =>
    rw [ofCall, commit]
    exact failsWith_govern hS hidle
  | rollback caller p =>
    rw [ofCall, rollback]
    exact failsWith_govern hS hidle
  | grantRole caller account role =>
    rw [ofCall, grantRole]
    exact failsWith_govern hS hidle
  | revokeRole caller account role =>
    rw [ofCall, revokeRole]
    exact failsWith_govern hS hidle
  | setDepositLimits caller limits =>
    rw [ofCall, setDepositLimits]
    exact failsWith_govern hS hidle
  | setPrivate caller privateVault =>
    rw [ofCall, setPrivate]
    exact failsWith_govern hS hidle
  | setDepositorAllowed caller account allowed =>
    rw [ofCall, setDepositorAllowed]
    exact failsWith_govern hS hidle
  | registerAdapter caller adapter =>
    refine failsWith_get ?_
    refine failsWith_bind (failsWith_part hS fun _ => .ordinary rfl) fun _ _ _ => ?_
    exact failsWith_bind (failsWith_set _) fun _ _ _ => failsWith_pure _
  | previewFees =>
    rw [ofCall, preview]
    refine failsWith_guarded hidle ?_
    refine failsWith_get ?_
    refine failsWith_bind (failsWith_adapterOf rfl) fun adapter _ _ => ?_
    refine failsWith_bind (failsWith_valuation hS adapter) fun appraisal _ _ => ?_
    refine failsWith_get ?_
    refine failsWith_bind (failsWith_charge hS adapter _ _ _ _) fun charge _ _ => ?_
    exact failsWith_pure _
  | persist =>
    refine failsWith_get ?_
    refine failsWith_bind (failsWith_part hS fun _ => .ordinary rfl) fun _ _ _ => ?_
    exact failsWith_bind (failsWith_set _) fun _ _ _ => failsWith_pure _
  | ask q => exact failsWith_get (failsWith_pure _)

end Operation

/-- A call on an idle vault is not turned away, a source of prices is unknown to it only if the
vault does not know the name, and it divides by zero only if a threshold is zero. -/
theorem perform_error_idle {host : Host σ A} {w : World σ A} {c : Call A} {e : VaultError}
    (hidle : w.vault.entered = false) (h : (perform host c w).1 = .error e) :
    c.Grounds w.vault e := by
  rcases hperformed : perform host c w with ⟨outcome, w'⟩
  rw [hperformed] at h
  obtain rfl : outcome = .error e := h
  exact Operation.ofCall_failsWith (nested_attends host) host hidle c e w'
    (perform_eq_error.mp hperformed)

end ShareVault
