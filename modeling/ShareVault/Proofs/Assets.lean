import ShareVault.Proofs.Conservation
import ShareVault.Proofs.Rounding
import ShareVault.Proofs.Sources

/-!
# Conservation of assets

A custody moves assets between the vault and one wallet at a time, all that is asked for or nothing.
So the exact sum of what the vault and all wallets hold of an asset changes only when the custody is
told from outside to fund a wallet, to donate to the vault or to remove from it; the vault itself
does none of these.

* `CustodyCall`, `Custody.handle`, `Custody.after` — what a custody can be asked for;
* `Custody.Sized`, `Custody.sized_after` — every custody keeps one amount for each asset;
* `Custody.total` — what the vault and all wallets hold of an asset;
* `Custody.Moves`, `pull_moves`, `release_moves`, `Moves.total` — a move between a wallet and the
  vault keeps the sum;
* `Host.KeepsCustody` — collaborators over a custody that may call the vault back;
* `Call.Handles`, `perform_handles` — what a call on the vault does with the custody;
* `Turn.Tends`, `play_custody` — what a run does with it;
* `assets_conserved` — the result.
-/

namespace ShareVault

/-! ### What a custody can be asked for -/

inductive CustodyCall where
  | pull (account : Account) (amounts : List Amount)
  | release (account : Account) (amounts : List Amount)
  | fund (account : Account) (amounts : List Amount)
  | donate (amounts : List Amount)
  | remove (amounts : List Amount)
deriving DecidableEq

/-- Whether a call moves assets between the vault and a wallet. -/
def CustodyCall.moves : CustodyCall → Bool
  | .pull .. => true
  | .release .. => true
  | _ => false

namespace Custody

variable {c c' : Custody} {account : Account} {amounts : List Amount}

/-- What a custody answers to a call, and what becomes of it. -/
def handle (c : Custody) : CustodyCall → Except CustodyError Unit × Custody
  | .pull account amounts => Attempt.carry c (c.pull account amounts)
  | .release account amounts => Attempt.carry c (c.release account amounts)
  | .fund account amounts => c.fund account amounts
  | .donate amounts => c.donate amounts
  | .remove amounts => Attempt.carry c (c.remove amounts)

/-- What becomes of a custody after some calls. -/
def after (c : Custody) (calls : List CustodyCall) : Custody :=
  calls.foldl (fun c call => (c.handle call).2) c

theorem after_append (c : Custody) (calls more : List CustodyCall) :
    c.after (calls ++ more) = (c.after calls).after more := by
  unfold after
  rw [List.foldl_append]

/-! ### One amount for each asset -/

/-- The vault and every wallet hold one amount of each asset. -/
structure Sized (c : Custody) : Prop where
  holdings : c.holdings.length = c.assets
  wallets : ∀ account, (c.wallet account).length = c.assets

theorem sized_new (assets : Nat) : (Custody.new assets).Sized := by
  constructor
  · simp [new]
  · intro account
    show (List.replicate assets (0 : Amount)).length = assets
    simp

/-- The wallets after a change to one of them. -/
theorem wallet_insert (c : Custody) (holdings wallet : List Amount) (account a : Account) :
    (⟨c.assets, holdings, c.wallets.insert account wallet⟩ : Custody).wallet a =
      if a = account then wallet else c.wallet a := by
  show ((c.wallets.insert account wallet).get? a).getD _ = _
  rw [SortedMap.get?_insert]
  by_cases h : a = account
  · rw [if_pos h, if_pos h]
    rfl
  · rw [if_neg h, if_neg h]
    rfl

theorem Sized.insert (h : c.Sized) {holdings wallet : List Amount}
    (hholdings : holdings.length = c.assets) (hwallet : wallet.length = c.assets) :
    (⟨c.assets, holdings, c.wallets.insert account wallet⟩ : Custody).Sized := by
  refine ⟨hholdings, ?_⟩
  intro a
  rw [wallet_insert]
  split
  next => exact hwallet
  next => exact h.wallets a

/-! ### Moves -/

/-- The amounts move from a wallet into the vault, and nothing else changes. -/
structure Moves (c : Custody) (account : Account) (amounts : List Amount) (c' : Custody) :
    Prop where
  assets : c'.assets = c.assets
  length : amounts.length = c.assets
  wallet : ∀ i, amountAt (c'.wallet account) i + amountAt amounts i = amountAt (c.wallet account) i
  holdings : ∀ i, amountAt c'.holdings i = amountAt c.holdings i + amountAt amounts i
  others : ∀ a, a ≠ account → c'.wallets.get? a = c.wallets.get? a

/-- A pull that succeeds is such a move. -/
theorem pull_moves (hs : c.Sized) (h : c.pull account amounts = .ok c') :
    c.Moves account amounts c' ∧ c'.Sized := by
  obtain ⟨hlength, wallet, holdings, hdebit, hcredit, rfl⟩ := pull_eq_ok.mp h
  have hwallet := hs.wallets account
  have hholdings := hs.holdings
  obtain ⟨hleft, hdebited⟩ := debit_ok (by omega) hdebit
  obtain ⟨hright, hcredited⟩ := credit_ok (by omega) hcredit
  refine ⟨⟨rfl, hlength, ?_, hcredited, ?_⟩, hs.insert (by omega) (by omega)⟩
  · intro i
    rw [wallet_insert, if_pos rfl]
    exact hdebited i
  · intro a hother
    exact SortedMap.get?_insert_of_ne hother _

/-- A release that succeeds is such a move, taken back. -/
theorem release_moves (hs : c.Sized) (h : c.release account amounts = .ok c') :
    c'.Moves account amounts c ∧ c'.Sized := by
  obtain ⟨hlength, holdings, wallet, hdebit, hcredit, rfl⟩ := release_eq_ok.mp h
  have hwallet := hs.wallets account
  have hholdings := hs.holdings
  obtain ⟨hleft, hdebited⟩ := debit_ok (by omega) hdebit
  obtain ⟨hright, hcredited⟩ := credit_ok (by omega) hcredit
  refine ⟨⟨rfl, hlength, ?_, ?_, ?_⟩, hs.insert (by omega) (by omega)⟩
  · intro i
    rw [wallet_insert, if_pos rfl, hcredited i]
  · intro i
    exact (hdebited i).symm
  · intro a hother
    exact (SortedMap.get?_insert_of_ne hother _).symm

/-! ### The sum over all holders -/

/-- What every wallet holds of an asset. -/
def column (c : Custody) (i : Nat) : SortedMap Account Amount :=
  c.wallets.mapValues fun wallet => wallet[i]?.getD 0

/-- What the vault and all wallets hold of an asset. -/
def total (c : Custody) (i : Nat) : Nat := amountAt c.holdings i + entriesSum (c.column i).entries

theorem amountAt_wallet (c : Custody) (account : Account) (i : Nat) :
    amountAt (c.wallet account) i = entryAmount account (c.column i).entries := by
  show _ = (((c.column i).get? account).getD 0).toNat
  unfold column wallet amountAt
  rw [SortedMap.get?_mapValues]
  cases c.wallets.get? account with
  | some wallet => rfl
  | none =>
    show ((List.replicate c.assets (0 : Amount))[i]?.getD 0).toNat = 0
    rw [List.getElem?_replicate]
    split <;> rfl

/-- A move keeps the sum.  The wallets before and after it are the same once one entry is put into
both. -/
theorem Moves.total (h : c.Moves account amounts c') (i : Nat) : c'.total i = c.total i := by
  have hsame : (c'.column i).insert account 0 = (c.column i).insert account 0 := by
    apply SortedMap.insert_eq_insert
    intro a hother
    unfold column
    rw [SortedMap.get?_mapValues, SortedMap.get?_mapValues, h.others a hother]
  have hbefore := entriesSum_insertEntry account 0 (c.column i).sorted
  have hafter := entriesSum_insertEntry account 0 (c'.column i).sorted
  have hentries := congrArg SortedMap.entries hsame
  change SortedMap.insertEntry account 0 _ = SortedMap.insertEntry account 0 _ at hentries
  rw [hentries, ← amountAt_wallet] at hafter
  rw [← amountAt_wallet] at hbefore
  have hwallet := h.wallet i
  have hholdings := h.holdings i
  unfold Custody.total
  omega

/-! ### Calls on a custody -/

/-- A pull or release that is refused changes nothing. -/
theorem handle_refused {call : CustodyCall} {e : CustodyError} (hm : call.moves = true)
    (h : (c.handle call).1 = .error e) : (c.handle call).2 = c := by
  cases call with
  | pull account amounts => exact Attempt.carry_failed h
  | release account amounts => exact Attempt.carry_failed h
  | fund account amounts => cases hm
  | donate amounts => cases hm
  | remove amounts => cases hm

/-- Every call keeps one amount for each asset, whether it succeeds or not. -/
theorem Sized.handle (hs : c.Sized) (call : CustodyCall) : (c.handle call).2.Sized := by
  cases call with
  | pull account amounts => exact Attempt.carry_keeps hs fun _ h => (pull_moves hs h).2
  | release account amounts => exact Attempt.carry_keeps hs fun _ h => (release_moves hs h).2
  | fund account amounts =>
    show (c.fund account amounts).2.Sized
    unfold fund
    split
    next => exact hs
    next => exact hs.insert hs.holdings ((length_creditUpTo _ _).trans (hs.wallets account))
  | donate amounts =>
    show (c.donate amounts).2.Sized
    unfold donate
    split
    next => exact hs
    next => exact ⟨(length_creditUpTo _ _).trans hs.holdings, hs.wallets⟩
  | remove amounts =>
    refine Attempt.carry_keeps hs fun c' h => ?_
    unfold remove at h
    simp only [Attempt.bind_eq_ok, Attempt.pure_eq_ok] at h
    obtain ⟨_, _, holdings, hdebit, rfl⟩ := h
    exact ⟨(length_debitFrom hdebit).trans hs.holdings, hs.wallets⟩

theorem sized_after (hs : c.Sized) (calls : List CustodyCall) : (c.after calls).Sized := by
  induction calls generalizing c with
  | nil => exact hs
  | cons call rest ih => exact ih (hs.handle call)

/-- Pulls and releases keep the sum, whether they succeed or not. -/
theorem total_handle (hs : c.Sized) {call : CustodyCall} (hm : call.moves = true) (i : Nat) :
    (c.handle call).2.total i = c.total i := by
  cases hend : (c.handle call).1 with
  | error e => rw [handle_refused hm hend]
  | ok u =>
    cases call with
    | pull account amounts => exact (pull_moves hs (Attempt.carry_eq_ok.mp hend)).1.total i
    | release account amounts => exact ((release_moves hs (Attempt.carry_eq_ok.mp hend)).1.total i).symm
    | fund account amounts => cases hm
    | donate amounts => cases hm
    | remove amounts => cases hm

theorem total_after (hs : c.Sized) {calls : List CustodyCall}
    (hm : ∀ call ∈ calls, call.moves = true) (i : Nat) : (c.after calls).total i = c.total i := by
  induction calls generalizing c with
  | nil => rfl
  | cons call rest ih =>
    rw [List.forall_mem_cons] at hm
    exact (ih (hs.handle call) hm.2).trans (total_handle hs hm.1 i)

end Custody

/-! ### Collaborators that may call back -/

section Collaborators

variable {σ A : Type} {host : Host σ A} {books : σ → Custody} {w w' start : World σ A}
  {c : Call A} {reply : Reply} {turns : List (Turn σ A)}

/-- Collaborators that may call the vault back, and that come to what collaborators over a custody
come to, whatever the vault replies. -/
def Host.KeepsCustody (host : Host σ A) (books : σ → Custody) : Prop :=
  ∀ replies, (host.silent replies).OverCustody books

theorem MovesBy.silent {change : Custody → Except CustodyError Custody} {s : σ}
    {script : Script σ A (Except CustodyError Unit)} (h : MovesBy books change s script)
    (replies : Call A → Outcome) : MovesBy books change s (script.silent replies) := by
  obtain ⟨s', h⟩ := h
  refine ⟨s', ?_⟩
  cases hchange : change (books s) with
  | ok c =>
    rw [hchange] at h
    rw [h.1]
    exact ⟨rfl, h.2⟩
  | error e =>
    rw [hchange] at h
    rw [h.1]
    exact ⟨rfl, h.2⟩

/-- Collaborators that never call are of this kind. -/
theorem Host.OverCustody.keepsCustody (hc : host.OverCustody books) : host.KeepsCustody books := by
  intro replies
  constructor
  · intro s
    show (host.holdings s).silent replies = _
    rw [hc.holdings]
    rfl
  · intro adapter holdings s
    obtain ⟨answer, s', hanswer, hbooks⟩ := hc.tvl adapter holdings s
    refine ⟨answer, s', ?_, hbooks⟩
    show (host.tvl adapter holdings s).silent replies = _
    rw [hanswer]
    rfl
  · intro adapter amounts s
    obtain ⟨answer, s', hanswer, hbooks⟩ := hc.convert adapter amounts s
    refine ⟨answer, s', ?_, hbooks⟩
    show (host.convert adapter amounts s).silent replies = _
    rw [hanswer]
    rfl
  · intro account amounts s
    exact (hc.pull account amounts s).silent replies
  · intro account amounts s
    exact (hc.release account amounts s).silent replies

/-! ### What a call on the vault does with the custody -/

/-- A deposit pulls what it takes from the depositor, a withdrawal releases what it pays to the
recipient, and every other call, and every call that fails, leaves the custody alone. -/
inductive Call.Handles (before : Custody) : Call A → Outcome → Custody → Prop where
  | pulls {caller : Account} {amounts taken : List Amount} {minShares shares : Amount}
      {deadline : Timestamp} {after : Custody} (pulled : before.pull caller taken = .ok after) :
      Handles before (.deposit caller amounts minShares deadline)
        (.ok (.deposited shares taken)) after
  | releases {caller recipient : Account} {shares : Amount} {minAmounts paid : List Amount}
      {after : Custody} (released : before.release recipient paid = .ok after) :
      Handles before (.withdraw caller shares minAmounts recipient) (.ok (.withdrawn paid)) after
  | leaves {c : Call A} {outcome : Outcome} (idle : c.pays = false ∨ ∃ e, outcome = .error e) :
      Handles before c outcome before

/-- A call on a vault over a custody, with collaborators that never call. -/
theorem Host.OverCustody.handles (hc : host.OverCustody books) (hidle : w.vault.entered = false)
    (c : Call A) :
    c.Handles (books w.host) (perform host c w).1 (books (perform host c w).2.host) := by
  rcases hend : perform host c w with ⟨e | reply, w'⟩
  · rw [perform_error_custody hc hidle hend]
    exact .leaves (.inr ⟨e, rfl⟩)
  · cases hp : c.pays with
    | false =>
      have hsame := (hc.ofCall_custody hp).onOk (perform_eq_ok.mp hend)
      rw [show books w'.host = books w.host from hsame]
      exact .leaves (.inl hp)
    | true =>
      cases c with
      | deposit caller amounts minShares deadline =>
        obtain ⟨_, run, rfl, rfl⟩ := Operation.deposit_ok (perform_eq_ok.mp hend)
        obtain ⟨hpull, _⟩ := (hc.pull caller run.plan.amounts run.settled.host).made run.pulls
        rw [hc.settled_books run.appraises run.charges] at hpull
        exact .pulls hpull
      | withdraw caller shares minAmounts recipient =>
        obtain ⟨_, run, rfl, rfl⟩ := Operation.withdraw_ok (perform_eq_ok.mp hend)
        obtain ⟨hrelease, _⟩ :=
          (hc.release recipient run.amounts run.settled.host).made run.releases
        rw [hc.settled_books run.appraises run.charges] at hrelease
        exact .releases hrelease
      | _ => cases hp

/-- The same when they call the vault back: a call that hands them control comes to what it would
have come to if they had not called. -/
theorem perform_handles (hc : host.KeepsCustody books) (hidle : w.vault.entered = false)
    (c : Call A) :
    c.Handles (books w.host) (perform host c w).1 (books (perform host c w).2.host) := by
  cases hp : c.priced with
  | true =>
    have hharmless : CallbacksHarmless host c w := callbacks_harmless hidle hp
    rw [hharmless.outcome, hharmless.surroundings]
    exact (hc _).handles hidle c
  | false =>
    have hsame : (perform host c w).2.host = w.host := by
      cases hg : c.guarded with
      | true => exact (performWith_inner hg hp).2
      | false =>
        have hcall : NestedCall.WhileBusy host
            ⟨c, w, (perform host c w).1, (perform host c w).2⟩ :=
          performWith_whileBusy fun h => by rw [hg] at h; cases h
        exact hcall.host_eq
    rw [hsame]
    apply Call.Handles.leaves
    cases c with
    | deposit caller amounts minShares deadline => cases hp
    | withdraw caller shares minAmounts recipient => cases hp
    | _ => exact .inl rfl

/-- Whatever a call does, it asks the custody for moves at most. -/
theorem Call.Handles.calls {before after : Custody} {outcome : Outcome}
    (h : c.Handles before outcome after) :
    ∃ calls : List CustodyCall, after = before.after calls ∧ ∀ call ∈ calls, call.moves = true := by
  cases h with
  | @pulls caller amounts taken minShares shares deadline after pulled =>
    refine ⟨[.pull caller taken], ?_, by simp [CustodyCall.moves]⟩
    show after = (Attempt.carry before (before.pull caller taken)).2
    rw [pulled]
    rfl
  | @releases caller recipient shares minAmounts paid after released =>
    refine ⟨[.release recipient paid], ?_, by simp [CustodyCall.moves]⟩
    show after = (Attempt.carry before (before.release recipient paid)).2
    rw [released]
    rfl
  | leaves idle => exact ⟨[], rfl, by simp⟩

/-! ### Turns and runs -/

/-- When the surroundings change on their own, the custody is asked for calls of this kind, and no
more. -/
def Turn.Tends (books : σ → Custody) (kind : CustodyCall → Prop) (w : World σ A) :
    Turn σ A → Prop
  | .outside s => ∃ calls : List CustodyCall,
      (∀ call ∈ calls, kind call) ∧ books s = (books w.host).after calls
  | _ => True

theorem Turn.Tends.mono {kind kind' : CustodyCall → Prop} {t : Turn σ A}
    (h : t.Tends books kind w) (hkind : ∀ call, kind call → kind' call) :
    t.Tends books kind' w := by
  cases t with
  | outside s =>
    obtain ⟨calls, hcalls, hbooks⟩ := h
    exact ⟨calls, fun call hcall => hkind call (hcalls call hcall), hbooks⟩
  | call c => trivial
  | restore id adapters => trivial

/-- A turn asks the custody for calls of this kind, or for moves. -/
theorem Turn.custody (hc : host.KeepsCustody books) (hidle : w.vault.entered = false)
    {kind : CustodyCall → Prop} {t : Turn σ A} (ht : t.Tends books kind w) :
    ∃ calls : List CustodyCall, books (t.play host w).host = (books w.host).after calls ∧
      ∀ call ∈ calls, call.moves = true ∨ kind call := by
  cases t with
  | outside s =>
    obtain ⟨calls, hkind, hbooks⟩ := ht
    exact ⟨calls, hbooks, fun call h => .inr (hkind call h)⟩
  | restore id adapters =>
    refine ⟨[], ?_, by simp⟩
    rw [play]
    cases Vault.restore w.store id (adapters.map fun a => (host.reference a, a)) with
    | ok v => rfl
    | error e => rfl
  | call c =>
    obtain ⟨calls, hbooks, hmoves⟩ := (perform_handles hc hidle c).calls
    exact ⟨calls, hbooks, fun call h => .inl (hmoves call h)⟩

/-- So does a run. -/
theorem play_custody (hc : host.KeepsCustody books) (hidle : start.vault.entered = false)
    {kind : CustodyCall → Prop}
    (htends : ∀ x ∈ history host start turns, x.2.Tends books kind x.1) :
    ∃ calls : List CustodyCall,
      books (play host start turns).host = (books start.host).after calls ∧
      ∀ call ∈ calls, call.moves = true ∨ kind call := by
  induction turns generalizing start with
  | nil => exact ⟨[], rfl, by simp⟩
  | cons t rest ih =>
    rw [history, List.forall_mem_cons] at htends
    obtain ⟨first, hfirst, hfirstKind⟩ := Turn.custody hc hidle htends.1
    obtain ⟨more, hmore, hmoreKind⟩ := ih (t.idle hidle) htends.2
    refine ⟨first ++ more, ?_, ?_⟩
    · rw [Custody.after_append, ← hfirst]
      exact hmore
    · intro call h
      rcases List.mem_append.mp h with h | h
      · exact hfirstKind call h
      · exact hmoreKind call h

/-! ### The result -/

/-- What holds of the assets over a run of a vault over a custody. -/
structure AssetsConserved (host : Host σ A) (books : σ → Custody) (start : World σ A)
    (turns : List (Turn σ A)) : Prop where
  /-- If nobody funds, donates or removes, the sum of what the vault and all wallets hold of an
  asset stays the same. -/
  total : (∀ x ∈ history host start turns, x.2.Tends books (·.moves = true) x.1) →
    ∀ i, (books (play host start turns).host).total i = (books start.host).total i
  /-- At every moment a pull or release that is refused changes nothing. -/
  refused : ∀ before after, turns = before ++ after → ∀ (call : CustodyCall) e,
    call.moves = true → ((books (play host start before).host).handle call).1 = .error e →
    ((books (play host start before).host).handle call).2 = books (play host start before).host
  /-- A pull that succeeds moves the amounts from the wallet into the vault, and nothing else. -/
  pulled : ∀ before after, turns = before ++ after → ∀ account amounts,
    ((books (play host start before).host).handle (.pull account amounts)).1 = .ok () →
    (books (play host start before).host).Moves account amounts
      ((books (play host start before).host).handle (.pull account amounts)).2
  /-- A release that succeeds moves them the other way. -/
  released : ∀ before after, turns = before ++ after → ∀ account amounts,
    ((books (play host start before).host).handle (.release account amounts)).1 = .ok () →
    ((books (play host start before).host).handle (.release account amounts)).2.Moves account
      amounts (books (play host start before).host)
  /-- A deposit that succeeds moves what it takes from the caller's wallet, and nothing else. -/
  deposit : ∀ before caller amounts minShares deadline after reply,
    turns = before ++ .call (.deposit caller amounts minShares deadline) :: after →
    (perform host (.deposit caller amounts minShares deadline) (play host start before)).1 =
      .ok reply →
    ∃ shares taken, reply = .deposited shares taken ∧
      (books (play host start before).host).Moves caller taken
        (books (play host start
          (before ++ [.call (.deposit caller amounts minShares deadline)])).host)
  /-- A withdrawal that succeeds moves what it pays into the recipient's wallet, and nothing
  else. -/
  withdraw : ∀ before caller shares minAmounts recipient after reply,
    turns = before ++ .call (.withdraw caller shares minAmounts recipient) :: after →
    (perform host (.withdraw caller shares minAmounts recipient) (play host start before)).1 =
      .ok reply →
    ∃ paid, reply = .withdrawn paid ∧
      (books (play host start
          (before ++ [.call (.withdraw caller shares minAmounts recipient)])).host).Moves recipient
        paid (books (play host start before).host)
  /-- Every other call, and every call that fails, leaves the custody as it was. -/
  others : ∀ before c after, turns = before ++ .call c :: after →
    (c.pays = false ∨ ∃ e, (perform host c (play host start before)).1 = .error e) →
    books (play host start (before ++ [.call c])).host = books (play host start before).host

theorem Call.Handles.deposit {before after : Custody} {caller : Account} {amounts : List Amount}
    {minShares : Amount} {deadline : Timestamp}
    (h : (Call.deposit caller amounts minShares deadline : Call A).Handles before (.ok reply)
      after) :
    ∃ shares taken, reply = .deposited shares taken ∧ before.pull caller taken = .ok after := by
  cases h with
  | pulls pulled => exact ⟨_, _, rfl, pulled⟩
  | leaves idle =>
    rcases idle with hpays | ⟨_, herror⟩
    · cases hpays
    · cases herror

theorem Call.Handles.withdraw {before after : Custody} {caller recipient : Account}
    {shares : Amount} {minAmounts : List Amount}
    (h : (Call.withdraw caller shares minAmounts recipient : Call A).Handles before (.ok reply)
      after) :
    ∃ paid, reply = .withdrawn paid ∧ before.release recipient paid = .ok after := by
  cases h with
  | releases released => exact ⟨_, rfl, released⟩
  | leaves idle =>
    rcases idle with hpays | ⟨_, herror⟩
    · cases hpays
    · cases herror

theorem Call.Handles.eq {before after : Custody} {outcome : Outcome}
    (h : c.Handles before outcome after)
    (hidle : c.pays = false ∨ ∃ e, outcome = .error e) : after = before := by
  cases h with
  | leaves idle => rfl
  | pulls pulled =>
    rcases hidle with hpays | ⟨_, herror⟩
    · cases hpays
    · cases herror
  | releases released =>
    rcases hidle with hpays | ⟨_, herror⟩
    · cases hpays
    · cases herror

/-- Over every run of a vault over a custody that was made empty, in which the surroundings ask the
custody for anything, assets move between the vault and one wallet at a time, and none is lost. -/
theorem assets_conserved {assets : Nat} {calls : List CustodyCall}
    (hc : host.KeepsCustody books) (hstart : Reachable host start)
    (hmade : books start.host = (Custody.new assets).after calls)
    (htends : ∀ x ∈ history host start turns, x.2.Tends books (fun _ => True) x.1) :
    AssetsConserved host books start turns := by
  have hsized : (books start.host).Sized := by
    rw [hmade]
    exact Custody.sized_after (Custody.sized_new assets) calls
  have hbefore : ∀ before after, turns = before ++ after →
      (books (play host start before).host).Sized := by
    intro before after hsplit
    have hpart : ∀ x ∈ history host start before, x.2.Tends books (fun _ => True) x.1 := by
      intro x hx
      apply htends
      rw [hsplit, history_append]
      exact List.mem_append_left _ hx
    obtain ⟨calls, hbooks, _⟩ := play_custody hc hstart.idle hpart
    rw [hbooks]
    exact Custody.sized_after hsized calls
  have hhandles : ∀ before (c : Call A), c.Handles (books (play host start before).host)
      (perform host c (play host start before)).1
      (books (play host start (before ++ [.call c])).host) := by
    intro before c
    rw [play_append]
    exact perform_handles hc (hstart.play before).idle c
  refine ⟨?_, ?_, ?_, ?_, ?_, ?_, ?_⟩
  · intro hmoves i
    obtain ⟨calls, hbooks, hkind⟩ := play_custody hc hstart.idle hmoves
    rw [hbooks]
    exact Custody.total_after hsized (fun call h => (hkind call h).elim id id) i
  · intro before after _ call e hm hrefused
    exact Custody.handle_refused hm hrefused
  · intro before after hsplit account amounts hok
    exact (Custody.pull_moves (hbefore before after hsplit) (Attempt.carry_eq_ok.mp hok)).1
  · intro before after hsplit account amounts hok
    exact (Custody.release_moves (hbefore before after hsplit) (Attempt.carry_eq_ok.mp hok)).1
  · intro before caller amounts minShares deadline after reply hsplit hok
    have hdeposit := hhandles before (.deposit caller amounts minShares deadline)
    rw [hok] at hdeposit
    obtain ⟨shares, taken, hreply, hpulls⟩ := hdeposit.deposit
    exact ⟨shares, taken, hreply, (Custody.pull_moves (hbefore before _ hsplit) hpulls).1⟩
  · intro before caller shares minAmounts recipient after reply hsplit hok
    have hwithdrawal := hhandles before (.withdraw caller shares minAmounts recipient)
    rw [hok] at hwithdrawal
    obtain ⟨paid, hreply, hreleases⟩ := hwithdrawal.withdraw
    exact ⟨paid, hreply, (Custody.release_moves (hbefore before _ hsplit) hreleases).1⟩
  · intro before c after _ hidle
    exact (hhandles before c).eq hidle

end Collaborators

namespace SmallVault

/-- What is left of the assets when Alice has deposited everything, and has withdrawn half of her
shares for Bob a year later. -/
def sharedOut : Custody :=
  ⟨1, [.saturate 128 546], .ofList [("alice", [0]), ("bob", [.saturate 128 454])]⟩

/-- Alice deposits and withdraws, once for more than she has.  Then the custody is asked to pay
Carol, and to take more from Bob than he has. -/
def moved : List (Turn InMemory Handle) :=
  [.call (.deposit "alice" [.saturate 128 1000] 0 0),
    .outside (surroundings 1 1000 0),
    .call (.withdraw "alice" (.saturate 128 500) [0] "bob"),
    .call (.withdraw "alice" (.saturate 128 501) [0] "bob"),
    .outside { surroundings 1 0 0 with
      custody := sharedOut.after
        [.release "carol" [.saturate 128 46], .pull "bob" [.saturate 128 455]] }]

end SmallVault

theorem assets_conserved_moved :
    AssetsConserved InMemory.host InMemory.custody SmallVault.start SmallVault.moved ∧
      (∀ i, (play InMemory.host SmallVault.start SmallVault.moved).host.custody.total i =
        SmallVault.start.host.custody.total i) ∧
      (play InMemory.host SmallVault.start SmallVault.moved).host.custody =
        ⟨1, [.saturate 128 500], .ofList [("alice", [0]), ("bob", [.saturate 128 454]),
          ("carol", [.saturate 128 46])]⟩ := by
  have htends : ∀ x ∈ history InMemory.host SmallVault.start SmallVault.moved,
      x.2.Tends InMemory.custody (·.moves = true) x.1 := by
    simp only [SmallVault.moved, history, List.forall_mem_cons]
    refine ⟨trivial, ⟨[], by simp, ?_⟩, trivial, trivial, ⟨[.release "carol" [.saturate 128 46],
      .pull "bob" [.saturate 128 455]], by simp [CustodyCall.moves], ?_⟩, by simp⟩
    · decide +kernel
    · decide +kernel
  have hconserved : AssetsConserved InMemory.host InMemory.custody SmallVault.start
      SmallVault.moved := by
    have hmade : SmallVault.start.host.custody =
        (Custody.new 1).after [.fund "alice" [.saturate 128 1000]] := by decide +kernel
    exact assets_conserved InMemory.overCustody.keepsCustody (.create SmallVault.created) hmade
      fun x hx => (htends x hx).mono fun _ _ => trivial
  exact ⟨hconserved, hconserved.total htends, by decide +kernel⟩

end ShareVault
