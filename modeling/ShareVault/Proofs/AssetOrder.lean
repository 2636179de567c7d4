import Mathlib.Data.List.FinRange
import ShareVault.Proofs.TwoPasses

/-!
# The order of the assets

A plan goes through the assets one by one, keeps the least count so far, and stops at the first one
that does not work out.  It comes to the same in any order: the least of several counts has no
order, a count that has too many digits is missing whenever it is looked at, and what is taken of an
asset depends on no other asset once the shares are known.

* `leastShares_perm`, `shareAmount_reordered` — the shares of the assets in another order;
* `normalize_reordered` — what they cost;
* `Reordered` — two plans that are one, but for the order of the assets;
* `asset_order_never_matters` — the result;
* `asset_order_never_matters_reversed` — three assets the other way round.
-/

namespace ShareVault

open Attempt

/-! ### Counts -/

theorem lesser_right_comm (least : Option Amount) (a b : Amount) :
    lesser (some (lesser least a)) b = lesser (some (lesser least b)) a := by
  apply Word.ext
  cases least with
  | none => simp only [lesser, Word.toNat_min, Nat.min_comm]
  | some current => simp only [lesser, Word.toNat_min, Nat.min_right_comm]

/-- The least count is the same in any order of the assets, and so is whether there is one, as long
as no bound is zero that counts. -/
theorem leastShares_perm {supply : Amount} {entries entries' : List (Amount × Amount × Amount)}
    {least : Option Amount} (h : entries.Perm entries')
    (hpos : ∀ t a e, (t, a, e) ∈ entries → ¬ t < e → t ≠ 0) :
    leastShares supply entries least = leastShares supply entries' least := by
  induction h generalizing least with
  | nil => rfl
  | @cons entry l l' hperm ih =>
    obtain ⟨t, a, e⟩ := entry
    have hrest := fun t a e hmem => hpos t a e (List.mem_cons_of_mem _ hmem)
    by_cases hdust : t < e
    · rw [leastShares_cons_dust hdust, leastShares_cons_dust hdust, ih hrest]
    · rw [leastShares_cons_worth hdust, leastShares_cons_worth hdust]
      exact congrArg (mulDiv a supply t >>= ·) (funext fun candidate => ih hrest)
  | swap entry entry' l =>
    obtain ⟨t, a, e⟩ := entry
    obtain ⟨t', a', e'⟩ := entry'
    by_cases hdust : t < e
    · by_cases hdust' : t' < e'
      · simp only [leastShares_cons_dust hdust, leastShares_cons_dust hdust']
      · simp only [leastShares_cons_dust hdust, leastShares_cons_worth hdust']
    · by_cases hdust' : t' < e'
      · simp only [leastShares_cons_worth hdust, leastShares_cons_dust hdust']
      · simp only [leastShares_cons_worth hdust, leastShares_cons_worth hdust']
        -- a count that is missing has too many digits, whichever of the two comes first
        have hfails := mulDiv_failsOnly (a := a) (b := supply)
          (hpos t a e (List.mem_cons_of_mem _ List.mem_cons_self) hdust)
        have hfails' := mulDiv_failsOnly (a := a') (b := supply)
          (hpos t' a' e' List.mem_cons_self hdust')
        rw [bind_comm hfails' hfails]
        simp only [lesser_right_comm]
  | trans hfirst hsecond ihfirst ihsecond =>
    rw [ihfirst hpos, ihsecond fun t a e hmem => hpos t a e (hfirst.mem_iff.mpr hmem)]

theorem largestAmount_perm {amounts amounts' : List Amount} (h : amounts.Perm amounts') :
    largestAmount amounts = largestAmount amounts' := by
  refine h.foldl_eq' (fun a _ b _ c => ?_) 0
  apply Word.ext
  simp only [Word.toNat_max]
  exact Nat.max_right_comm _ _ _

section Orders

variable {n : Nat} {upper amounts requested existentials : Fin n → Amount}
  {supply provisional : Amount} {significant : Bool}

/-! ### Assets in another order -/

theorem zip_ofFn {α β : Type} (f : Fin n → α) (g : Fin n → β) :
    (List.ofFn f).zip (.ofFn g) = .ofFn fun i => (f i, g i) := by
  apply List.ext_getElem
  · simp only [List.length_zip, List.length_ofFn, Nat.min_self]
  · intro i _ _
    simp only [List.getElem_zip, List.getElem_ofFn]

theorem sideBySide_ofFn (upper amounts existentials : Fin n → Amount) :
    sideBySide (.ofFn upper) (.ofFn amounts) (.ofFn existentials) =
      .ofFn fun i => (upper i, amounts i, existentials i) := by
  rw [sideBySide, zip_ofFn, zip_ofFn]

/-- A step for each entry of a tuple that succeeds has given the entries of a tuple. -/
theorem mapM_ofFn_eq_ok {α β ε : Type} {f : α → Except ε β} {g : Fin n → α} {l : List β} :
    (List.ofFn g).mapM f = .ok l ↔ ∃ t : Fin n → β, l = .ofFn t ∧ ∀ i, f (g i) = .ok (t i) := by
  constructor
  · intro h
    obtain ⟨hlength, hat⟩ := mapM_ok h
    rw [List.length_ofFn] at hlength
    subst hlength
    refine ⟨l.get, (List.ofFn_get l).symm, fun i => ?_⟩
    obtain ⟨b, hb, hstep⟩ := hat i (g i) (by simp)
    obtain ⟨_, rfl⟩ := List.getElem?_eq_some_iff.mp hb
    exact hstep
  · rintro ⟨t, rfl, hsteps⟩
    induction n with
    | zero => rfl
    | succ n ih =>
      have hrest := ih (fun i => t i.succ) fun i => hsteps i.succ
      simp only [List.ofFn_succ, List.mapM_cons, hsteps, ok_bind, hrest]
      rfl

/-- The count is the same in another order. -/
theorem shareAmount_reordered (upper amounts : Fin n → Amount) (supply : Amount)
    (hpositive : ∀ i, existentials i ≠ 0) (σ : Equiv.Perm (Fin n)) :
    shareAmount (.ofFn (upper ∘ σ)) (.ofFn (amounts ∘ σ)) supply (.ofFn (existentials ∘ σ)) =
      shareAmount (.ofFn upper) (.ofFn amounts) supply (.ofFn existentials) := by
  have hentries : (sideBySide (.ofFn (upper ∘ σ)) (.ofFn (amounts ∘ σ))
      (.ofFn (existentials ∘ σ))).Perm
      (sideBySide (.ofFn upper) (.ofFn amounts) (.ofFn existentials)) := by
    rw [sideBySide_ofFn, sideBySide_ofFn]
    exact σ.ofFn_comp_perm fun i => (upper i, amounts i, existentials i)
  have hpos : ∀ t a e, (t, a, e) ∈ sideBySide (.ofFn (upper ∘ σ)) (.ofFn (amounts ∘ σ))
      (.ofFn (existentials ∘ σ)) → ¬ t < e → t ≠ 0 := by
    rintro t a e hmem hworth rfl
    obtain ⟨i, rfl⟩ := List.mem_ofFn.mp (existential_mem_of_sideBySide hmem)
    exact hpositive (σ i) (Word.ext (Nat.le_zero.mp (Nat.not_lt.mp hworth)))
  unfold shareAmount
  rw [leastShares_perm hentries hpos, largestAmount_perm (σ.ofFn_comp_perm amounts)]

/-- What is taken of each asset is the same in another order. -/
theorem normalize_reordered {taken : List Amount}
    (h : normalize (.ofFn upper) (.ofFn requested) provisional supply significant
      (.ofFn existentials) = .ok taken) (σ : Equiv.Perm (Fin n)) :
    ∃ t : Fin n → Amount, taken = .ofFn t ∧
      normalize (.ofFn (upper ∘ σ)) (.ofFn (requested ∘ σ)) provisional supply significant
        (.ofFn (existentials ∘ σ)) = .ok (.ofFn (t ∘ σ)) := by
  cases significant with
  | false => exact ⟨requested, (Except.ok.inj h).symm, rfl⟩
  | true =>
    have htrims : (sideBySide (.ofFn upper) (.ofFn requested) (.ofFn existentials)).mapM
        (trim provisional supply) = .ok taken := h
    rw [sideBySide_ofFn, mapM_ofFn_eq_ok] at htrims
    obtain ⟨t, rfl, hsteps⟩ := htrims
    refine ⟨t, rfl, ?_⟩
    show (sideBySide _ _ _).mapM (trim provisional supply) = _
    rw [sideBySide_ofFn, mapM_ofFn_eq_ok]
    exact ⟨t ∘ σ, rfl, fun i => hsteps (σ i)⟩

/-! ### Plans -/

/-- Whether a first deposit is accepted does not depend on the order. -/
theorem checkFirstDeposit_perm {entries entries' : List (Amount × Amount)}
    (h : entries.Perm entries') :
    (checkFirstDeposit 0 entries = .ok () ∧ checkFirstDeposit 0 entries' = .ok ()) ∨
      ∃ i a m i' a' m', checkFirstDeposit 0 entries = .error (.firstDepositTooSmall i a m) ∧
        checkFirstDeposit 0 entries' = .error (.firstDepositTooSmall i' a' m') := by
  have hiff : checkFirstDeposit 0 entries = .ok () ↔ checkFirstDeposit 0 entries' = .ok () := by
    simp only [checkFirstDeposit_eq_ok, h.mem_iff]
  have hfails (l : List (Amount × Amount)) :
      FailsOnly (fun e => ∃ i a m, e = .firstDepositTooSmall i a m) (checkFirstDeposit 0 l) :=
    checkFirstDeposit_failsOnly (fun i a m => ⟨i, a, m, rfl⟩) 0 l
  cases hfirst : checkFirstDeposit 0 entries with
  | ok u => exact .inl ⟨rfl, hiff.mp hfirst⟩
  | error e =>
    cases hfirst' : checkFirstDeposit 0 entries' with
    | ok u =>
      rw [hiff.mpr hfirst'] at hfirst
      cases hfirst
    | error e' =>
      obtain ⟨i, a, m, rfl⟩ := hfails entries e hfirst
      obtain ⟨i', a', m', rfl⟩ := hfails entries' e' hfirst'
      exact .inr ⟨i, a, m, i', a', m', rfl, rfl⟩

/-- Two outcomes of a plan, the second with the assets in another order: as many shares for the same
amounts of the assets, or the same error.  Of the assets that a first deposit brings too little of,
each names the one that is first in its order. -/
inductive Reordered (σ : Equiv.Perm (Fin n)) :
    Except VaultError DepositPlan → Except VaultError DepositPlan → Prop where
  | planned (shares : Amount) (taken : Fin n → Amount) :
      Reordered σ (.ok ⟨shares, .ofFn taken⟩) (.ok ⟨shares, .ofFn (taken ∘ σ)⟩)
  | refused (e : VaultError) : Reordered σ (.error e) (.error e)
  | tooSmall (i i' : Nat) (a a' m m' : Amount) :
      Reordered σ (.error (.firstDepositTooSmall i a m)) (.error (.firstDepositTooSmall i' a' m'))

/-- The checks of a plan come to the same in another order. -/
theorem DepositPlan.accept_reordered (shares : Amount) (taken existentials : Fin n → Amount)
    (σ : Equiv.Perm (Fin n)) :
    Reordered σ (accept ⟨shares, .ofFn taken⟩ supply (.ofFn existentials))
      (accept ⟨shares, .ofFn (taken ∘ σ)⟩ supply (.ofFn (existentials ∘ σ))) := by
  have hlast : Reordered σ (if shares = 0 then .error .zeroShares else .ok ⟨shares, .ofFn taken⟩)
      (if shares = 0 then .error .zeroShares else .ok ⟨shares, .ofFn (taken ∘ σ)⟩) := by
    by_cases hshares : shares = 0
    · rw [if_pos hshares, if_pos hshares]
      exact .refused _
    · rw [if_neg hshares, if_neg hshares]
      exact .planned shares taken
  by_cases hsupply : supply = 0
  · have hsame : ((List.ofFn taken).zip (.ofFn existentials)).Perm
        ((List.ofFn (taken ∘ σ)).zip (.ofFn (existentials ∘ σ))) := by
      rw [zip_ofFn, zip_ofFn]
      exact (σ.ofFn_comp_perm fun i => (taken i, existentials i)).symm
    rcases checkFirstDeposit_perm hsame with ⟨hok, hok'⟩ | ⟨i, a, m, i', a', m', hsmall, hsmall'⟩
    · rw [accept_of_first hok, accept_of_first hok']
      exact hlast
    · simp only [accept, if_pos hsupply, hsmall, hsmall']
      exact .tooSmall i i' a a' m m'
  · rw [accept_of_shares _ _ hsupply, accept_of_shares _ _ hsupply]
    exact hlast

/-- With thresholds that are not zero, the plan of a deposit into assets in another order succeeds
when the plan does, and issues as many shares for the same amount of each asset; and it fails when
the plan does, with an error of the same kind. -/
theorem asset_order_never_matters (upper requested : Fin n → Amount) (supply : Amount)
    (hpositive : ∀ i, existentials i ≠ 0) (σ : Equiv.Perm (Fin n)) :
    Reordered σ (planDeposit (.ofFn upper) (.ofFn requested) supply (.ofFn existentials))
      (planDeposit (.ofFn (upper ∘ σ)) (.ofFn (requested ∘ σ)) supply
        (.ofFn (existentials ∘ σ))) := by
  have hlength (f g : Fin n → Amount) : (List.ofFn f).length = (List.ofFn g).length := by
    rw [List.length_ofFn, List.length_ofFn]
  have hreorder (amounts : Fin n → Amount) :=
    shareAmount_reordered upper amounts supply hpositive σ
  cases hfirst : shareAmount (.ofFn upper) (.ofFn requested) supply (.ofFn existentials) with
  | error e =>
    have hfirst' := (hreorder requested).trans hfirst
    rw [planDeposit_of_error (hlength _ _) (hlength _ _) hfirst,
      planDeposit_of_error (hlength _ _) (hlength _ _) hfirst']
    exact .refused _
  | ok count =>
    obtain ⟨provisional, decided⟩ := count
    obtain ⟨taken, ⟨shares, decided'⟩, htaken, hcount⟩ :=
      exists_passes (hlength _ _) (hlength _ _) hfirst
    obtain ⟨taken, rfl, htaken'⟩ := normalize_reordered htaken σ
    have hfirst' := (hreorder requested).trans hfirst
    have hcount' := (hreorder taken).trans hcount
    rw [planDeposit_eq (hlength _ _) (hlength _ _) hfirst htaken hcount,
      planDeposit_eq (hlength _ _) (hlength _ _) hfirst' htaken' hcount']
    exact DepositPlan.accept_reordered shares taken existentials σ

end Orders

namespace TripleVault

/-- An entry of three. -/
def entry (l : List Amount) (i : Fin 3) : Amount := l[i.val]?.getD 0

/-- The plan for what is offered of the three assets, in some order. -/
def planIn (order : Equiv.Perm (Fin 3)) (supply : Amount) : Except VaultError DepositPlan :=
  planDeposit (.ofFn (entry upper ∘ order)) (.ofFn (entry offered ∘ order)) supply
    (.ofFn (entry existentials ∘ order))

/-- The other way round. -/
def reversal : Equiv.Perm (Fin 3) := Equiv.swap 0 2

end TripleVault

open TripleVault in
/-- The dust comes first, the other way round, and not even it is enough for a first deposit. -/
theorem asset_order_never_matters_reversed :
    (∀ i, entry existentials i ≠ 0) ∧
      Reordered reversal (planIn (.refl _) (.saturate 128 10))
        (planIn reversal (.saturate 128 10)) ∧
      planIn (.refl _) (.saturate 128 10) =
        .ok ⟨.saturate 128 3, [.saturate 128 1, .saturate 128 3, 0]⟩ ∧
      planIn reversal (.saturate 128 10) =
        .ok ⟨.saturate 128 3, [0, .saturate 128 3, .saturate 128 1]⟩ ∧
      Reordered reversal (planIn (.refl _) 0) (planIn reversal 0) ∧
      planIn (.refl _) 0 = .error (.firstDepositTooSmall 0 (.saturate 128 2) (.saturate 128 10)) ∧
      planIn reversal 0 =
        .error (.firstDepositTooSmall 0 (.saturate 128 9) (.saturate 128 100)) := by
  have hpositive : ∀ i, entry existentials i ≠ 0 := by decide
  have hreordered (supply : Amount) :
      Reordered reversal (planIn (.refl _) supply) (planIn reversal supply) :=
    asset_order_never_matters (entry upper) (entry offered) supply hpositive reversal
  exact ⟨hpositive, hreordered _, by decide +kernel, by decide +kernel, hreordered _,
    by decide +kernel, by decide +kernel⟩

end ShareVault
