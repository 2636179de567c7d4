import ShareVault.Proofs.Booking
import ShareVault.Proofs.Reentrancy

/-!
# Previews

A preview makes the charge of a deposit or a withdrawal on a copy of the ledger, and throws the copy
away.  It sees what they see, by other code, so it gives the fees that they charge, and it fails
only where they would fail.

* `World.toldHoldings`, `toldBounds`, `toldValue` — what outside code answers in a priced call;
* `SameInputs` — the same committed state, the same time and the same answers;
* `Due.alike` — the same fees are due in two worlds with the same inputs;
* `preview_of_due`, `preview_vault`, `preview_store` — what a preview gives, and what it leaves;
* `preview_agrees` — the result.
-/

namespace ShareVault

variable {σ A α : Type} {host : Host σ A} {w w' x y : World σ A} {fees : FeeCharge} {c : Call A}
  {reply : Reply}

/-! ### What outside code answers -/

namespace World

/-- What outside code answers while a call is in progress, and the world after it. -/
def asked (host : Host σ A) (w : World σ A) (script : σ → Script σ A α) : α × World σ A :=
  (script w.host).run host.nested w.vault w.store

/-- What the custody says it holds, at the start of a call. -/
def toldHoldings (host : Host σ A) (w : World σ A) :
    Except CustodyError (List Amount) × World σ A :=
  (w.mapVault .begin).asked host host.holdings

/-- What a source of prices then gives as the bounds of some holdings. -/
def toldBounds (host : Host σ A) (w : World σ A) (adapter : A) (holdings : List Amount) :
    Except ValuationError Tvl × World σ A :=
  (w.toldHoldings host).2.asked host (host.tvl adapter holdings)

/-- What it then gives as the value of some amounts. -/
def toldValue (host : Host σ A) (w : World σ A) (adapter : A) (holdings amounts : List Amount) :
    Except ValuationError Amount × World σ A :=
  (w.toldBounds host adapter holdings).2.asked host (host.convert adapter amounts)

end World

/-- A priced call in the second world sees what a preview sees in the first one: the same committed
state, the same time, and the same answers to the same questions. -/
structure SameInputs (host : Host σ A) (x y : World σ A) : Prop where
  config : y.vault.config = x.vault.config
  state : y.vault.state = x.vault.state
  unknown : x.vault.source? = none → y.vault.source? = none
  holdings : (y.toldHoldings host).1 = (x.toldHoldings host).1
  bounds : ∀ a b holdings, x.vault.source? = some a → y.vault.source? = some b →
    (x.toldHoldings host).1 = .ok holdings →
    (y.toldBounds host b holdings).1 = (x.toldBounds host a holdings).1
  value : ∀ a b holdings tvl, x.vault.source? = some a → y.vault.source? = some b →
    (x.toldHoldings host).1 = .ok holdings → (x.toldBounds host a holdings).1 = .ok tvl →
    (y.toldValue host b holdings tvl.lower).1 = (x.toldValue host a holdings tvl.lower).1
  /-- A preview looks at the clock after the appraisal, an operation when it begins. -/
  clock : ∀ a holdings, x.vault.source? = some a → (x.toldHoldings host).1 = .ok holdings →
    host.now (x.toldBounds host a holdings).2.host = host.now y.host

namespace Operation

variable {nested : Performer σ A} {adapter : A}

/-- An appraisal succeeds exactly if both answers are there, with one entry per asset. -/
theorem valuation_eq_ok {holdings : List Amount} {tvl : Tvl} :
    valuation host.nested host adapter (w.mapVault .begin) = .ok (holdings, tvl) w' ↔
      (w.toldHoldings host).1 = .ok holdings ∧
        w.toldBounds host adapter holdings = (.ok tvl, w') ∧
        w.vault.tokenCount = holdings.length ∧ w.vault.tokenCount = tvl.lower.length ∧
        w.vault.tokenCount = tvl.upper.length := by
  constructor
  · intro h
    obtain ⟨w₁, hholdings, hheld, hbounds, hlower, hupper⟩ := valuation_ok h
    have hholdings : w.toldHoldings host = (.ok holdings, w₁) := hholdings
    refine ⟨by rw [hholdings], ?_, hheld, hlower, hupper⟩
    unfold World.toldBounds
    rw [hholdings]
    exact hbounds
  · rintro ⟨hholdings, hbounds, hheld, hlower, hupper⟩
    unfold valuation
    simp only [Effectful.bind_eq_ok, Effectful.get_eq_ok, lift_eq_ok, consult_eq_ok,
      Effectful.pure_eq_ok, Attempt.mapError_eq_ok, checkLength_eq_ok]
    exact ⟨_, _, ⟨rfl, rfl⟩, .ok holdings, (w.toldHoldings host).2, Prod.ext hholdings rfl,
      holdings, _, ⟨rfl, rfl⟩, (), _, ⟨hheld, rfl⟩, .ok tvl, w', hbounds, tvl, _, ⟨rfl, rfl⟩, (),
      _, ⟨hlower, rfl⟩, (), _, ⟨hupper, rfl⟩, rfl, rfl⟩

end Operation

/-! ### The same fees -/

namespace SameInputs

variable {a b : A} {holdings : List Amount} {tvl : Tvl} {priced : World σ A}

/-- An appraisal in the second world says what one in the first world says. -/
theorem appraises (h : SameInputs host x y) (hx : x.vault.source? = some a)
    (hy : y.vault.source? = some b)
    (happraises : Operation.valuation host.nested host b (y.mapVault .begin) =
      .ok (holdings, tvl) priced) :
    Operation.valuation host.nested host a (x.mapVault .begin) =
      .ok (holdings, tvl) (x.toldBounds host a holdings).2 := by
  obtain ⟨hholdings, hbounds, hheld, hlower, hupper⟩ := Operation.valuation_eq_ok.mp happraises
  rw [h.holdings] at hholdings
  have hbounds' : (x.toldBounds host a holdings).1 = .ok tvl := by
    rw [← h.bounds a b holdings hx hy hholdings, hbounds]
  have hcount : y.vault.tokenCount = x.vault.tokenCount := by
    unfold Vault.tokenCount
    rw [h.config]
  rw [hcount] at hheld hlower hupper
  exact Operation.valuation_eq_ok.mpr ⟨hholdings, Prod.ext hbounds' rfl, hheld, hlower, hupper⟩

/-- So does a charge after it. -/
theorem charges {charged : ShareLedger} {settled : World σ A} (h : SameInputs host x y)
    (hx : x.vault.source? = some a) (hy : y.vault.source? = some b)
    (happraises : Operation.valuation host.nested host b (y.mapVault .begin) =
      .ok (holdings, tvl) priced)
    (hcharges : Operation.charge host.nested host b y.vault.state.ledger
      y.vault.state.governance.schedule tvl.lower (host.now y.host) priced =
        .ok (fees, charged) settled) :
    ∃ settled', Operation.charge host.nested host a x.vault.state.ledger
      x.vault.state.governance.schedule tvl.lower
      (host.now (x.toldBounds host a holdings).2.host) (x.toldBounds host a holdings).2 =
        .ok (fees, charged) settled' := by
  have happraises' := h.appraises hx hy happraises
  obtain ⟨hholdings, hbounds', _⟩ := Operation.valuation_eq_ok.mp happraises'
  obtain ⟨_, hbounds, _⟩ := Operation.valuation_eq_ok.mp happraises
  have hn := nested_attends host
  have hconfig : priced.vault.config = (x.toldBounds host a holdings).2.vault.config := by
    rw [Operation.valuation_config hn happraises, Operation.valuation_config hn happraises',
      h.config]
  obtain ⟨value, hfees, hvalue⟩ := Operation.charge_eq_ok.mp hcharges
  rw [h.state, ← h.clock a holdings hx hholdings, hconfig] at hfees hvalue
  split at hvalue
  next hasks =>
    refine ⟨(x.toldValue host a holdings tvl.lower).2,
      Operation.charge_eq_ok.mpr ⟨value, hfees, ?_⟩⟩
    rw [if_pos hasks]
    have hanswer : (y.toldValue host b holdings tvl.lower).1 = value := by
      unfold World.toldValue
      rw [hbounds]
      exact congrArg Prod.fst hvalue
    rw [h.value a b holdings tvl hx hy hholdings (congrArg Prod.fst hbounds')] at hanswer
    exact Prod.ext hanswer rfl
  next hasks =>
    refine ⟨(x.toldBounds host a holdings).2, Operation.charge_eq_ok.mpr ⟨value, hfees, ?_⟩⟩
    rw [if_neg hasks]
    exact ⟨hvalue.1, rfl⟩

end SameInputs

/-- The fees that are due in the second world are due in the first one, when a preview looks at the
clock there. -/
theorem Due.alike {priced : World σ A} (h : SameInputs host x y)
    (due : Due host y (host.now y.host) priced fees) :
    ∃ priced', Due host x (host.now priced'.host) priced' fees := by
  cases due with
  | intro known appraises charges =>
    cases hx : x.vault.source? with
    | none =>
      rw [h.unknown hx] at known
      cases known
    | some a =>
      obtain ⟨settled', hcharges⟩ := h.charges hx known appraises charges
      exact ⟨_, .intro hx (h.appraises hx known appraises) hcharges⟩

/-- A preview gives the fees that are due. -/
theorem preview_of_due {priced : World σ A} (hidle : x.vault.entered = false)
    (due : Due host x (host.now priced.host) priced fees) :
    (perform host .previewFees x).1 = .ok (.fees fees) := by
  cases due with
  | @intro adapter holdings tvl charged settled known appraises charges =>
    have hpreview : Operation.preview host.nested host x =
        .ok (.fees fees) (settled.mapVault .abandon) := by
      rw [Operation.preview]
      refine Operation.guarded_ok hidle ?_
      simp only [Effectful.bind_eq_ok, Effectful.get_eq_ok, Effectful.pure_eq_ok,
        Operation.adapterOf_eq_ok]
      exact ⟨_, _, ⟨rfl, rfl⟩, adapter, _, ⟨known, rfl⟩, (holdings, tvl), priced, appraises, _, _,
        ⟨rfl, rfl⟩, (fees, charged), settled, charges, rfl, rfl⟩
    have hperform : perform host .previewFees x =
        (.ok (.fees fees), settled.mapVault .abandon) := perform_eq_ok.mpr hpreview
    rw [hperform]

/-! ### What a preview leaves -/

/-- The vault does not change. -/
def Frame.still : Frame σ A where
  rel w w' := w'.vault = w.vault
  refl _ := rfl
  trans h h' := h'.trans h

/-- A preview among collaborators that never call leaves the vault as it was. -/
theorem preview_silent (hidle : x.vault.entered = false) (replies : Call A → Outcome) :
    (perform (host.silent replies) .previewFees x).2.vault = x.vault := by
  have hquestions : Operation.Questions .still (host.silent replies).nested
      (host.silent replies) :=
    ⟨fun w => rfl, fun adapter holdings w => rfl, fun adapter amounts w => rfl⟩
  obtain ⟨body, hpreview, hbody⟩ := Operation.preview_eq_guarded hquestions
  obtain ⟨w₁, hend, hstill⟩ := Operation.guarded_end hbody hidle
  have hstill : w₁.vault = x.vault.begin := hstill
  rw [perform, performWith_world, Operation.ofCall, hpreview, hend]
  show w₁.vault.abandon = x.vault
  rw [hstill, Vault.begin_abandon hidle]

/-- Among others it leaves what outside code has made of the vault by calls of its own. -/
theorem preview_vault (host : Host σ A) (hidle : x.vault.entered = false) :
    (perform host .previewFees x).2.vault =
      x.vault.attend host.reference (journal host .previewFees x) := by
  obtain ⟨_, hended⟩ := perform_silenced host hidle (rfl : Call.priced .previewFees = true)
  obtain ⟨_, herased⟩ := perform_journaled host hidle (rfl : Call.priced .previewFees = true)
  rw [← herased]
  show (performJournaled host .previewFees (x.beside [])).2.vault = _
  rw [hended.attended, preview_silent hidle]
  rfl

/-- Beside a journal, while the vault is busy, the journal grows, and the store changes only by
calls that write to it. -/
def Frame.written : Frame (σ × Journal σ A) A where
  rel x x' := x.vault.entered = true → x'.vault.entered = true ∧ x.host.2 <+: x'.host.2 ∧
    ((∀ e ∈ x'.host.2, e.call ≠ .persist) → x'.store = x.store)
  refl x hbusy := ⟨hbusy, List.prefix_rfl, fun _ => rfl⟩
  trans := by
    intro x x' x'' h h' hbusy
    obtain ⟨hbusy', hgrows, hstore⟩ := h hbusy
    obtain ⟨hbusy'', hgrows', hstore'⟩ := h' hbusy'
    refine ⟨hbusy'', hgrows.trans hgrows', fun hnone => ?_⟩
    rw [hstore' hnone, hstore fun e he => hnone e (hgrows'.subset he)]

theorem NestedCall.WhileBusy.store_eq {e : NestedCall σ A} (h : e.WhileBusy host)
    (hc : e.call ≠ .persist) : e.after.store = e.before.store := by
  cases h with
  | persisted writes => exact (hc rfl).elim
  | _ => rfl

/-- By induction on the script, call after call. -/
theorem Script.run_written (script : Script σ A α) (x : World (σ × Journal σ A) A) :
    Frame.written.rel x
      ((script.journaled x.host.2).run host.nested.journaled x.vault x.store).2 := by
  induction script generalizing x with
  | answer a s => exact fun hbusy => ⟨hbusy, List.prefix_rfl, fun _ => rfl⟩
  | call c s resume ih =>
    intro hbusy
    let before : World σ A := ⟨x.vault, x.store, s⟩
    let e : NestedCall σ A := ⟨c, before, (host.nested c before).1, (host.nested c before).2⟩
    have he : e.WhileBusy host := performWith_whileBusy fun _ => hbusy
    have hfirst : Frame.written.rel x (e.after.beside (x.host.2 ++ [e])) := by
      refine fun _ => ⟨?_, List.prefix_append _ _, fun hnone => ?_⟩
      · exact (nested_attends host c before hbusy).vault.entered_eq.trans hbusy
      · exact he.store_eq (hnone e (List.mem_append_right _ (List.mem_singleton_self e)))
    exact Frame.written.trans hfirst (ih e.outcome e.after.host _) hbusy

/-- A preview leaves the store as it was, unless outside code writes to it. -/
theorem preview_store (host : Host σ A) (hidle : x.vault.entered = false)
    (hnone : ∀ e ∈ journal host .previewFees x, e.call ≠ .persist) :
    (perform host .previewFees x).2.store = x.store := by
  have hquestions : Operation.Questions .written host.nested.journaled host.journaled :=
    ⟨fun x => (host.holdings x.host.1).run_written x,
      fun adapter holdings x => (host.tvl adapter holdings x.host.1).run_written x,
      fun adapter amounts x => (host.convert adapter amounts x.host.1).run_written x⟩
  obtain ⟨body, hpreview, hbody⟩ := Operation.preview_eq_guarded hquestions
  have hbeside : (x.beside []).vault.entered = false := hidle
  obtain ⟨w₁, hend, hwritten⟩ := Operation.guarded_end hbody hbeside
  have hjournaled : (performJournaled host .previewFees (x.beside [])).2 =
      w₁.mapVault .abandon := by
    rw [performJournaled, performWith_world, Operation.ofCall, hpreview, hend]
  obtain ⟨_, herased⟩ := perform_journaled host hidle (rfl : Call.priced .previewFees = true)
  rw [← herased, hjournaled]
  unfold journal at hnone
  rw [hjournaled] at hnone
  exact (hwritten rfl).2.2 hnone

/-! ### The result -/

/-- What a preview has to do with the deposits and withdrawals that see what it sees. -/
structure PreviewAgrees (host : Host σ A) (x : World σ A) : Prop where
  /-- However it ends, the vault is as it was, but for calls that outside code has made. -/
  vault : (perform host .previewFees x).2.vault =
    x.vault.attend host.reference (journal host .previewFees x)
  /-- So is the store. -/
  store : (∀ e ∈ journal host .previewFees x, e.call ≠ .persist) →
    (perform host .previewFees x).2.store = x.store
  /-- No assets are moved. -/
  custody : ∀ books, host.OverCustody books →
    books (perform host .previewFees x).2.host = books x.host
  /-- Deposits and withdrawals that succeed settle the fees of the preview. -/
  agrees : ∀ fees, (perform host .previewFees x).1 = .ok (.fees fees) →
    ∀ y c reply y', SameInputs host x y → c.pays = true → perform host c y = (.ok reply, y') →
      c.SettlesWith host y fees (.ok reply, y')
  /-- If the preview fails, so do they. -/
  fails : ∀ e, (perform host .previewFees x).1 = .error e →
    ∀ y c, SameInputs host x y → c.pays = true → ∃ e', (perform host c y).1 = .error e'

/-- A preview changes nothing, and gives the fees that every deposit or withdrawal with the same
inputs charges if it succeeds; if the preview fails, none succeeds. -/
theorem preview_agrees (hx : Reachable host x) : PreviewAgrees host x := by
  -- the heart of it: where a deposit or a withdrawal succeeds, the preview gives its fees
  have hgives (y : World σ A) (c : Call A) (reply : Reply) (y' : World σ A)
      (hsame : SameInputs host x y) (hpays : c.pays = true)
      (h : perform host c y = (.ok reply, y')) :
      ∃ fees, (perform host .previewFees x).1 = .ok (.fees fees) ∧
        c.SettlesWith host y fees (.ok reply, y') := by
    have hsound : y.vault.state.ledger.Sound := by
      rw [hsame.state]
      exact hx.sound.ledger
    obtain ⟨fees, priced, hdue, hsettles⟩ := perform_settles hsound hpays h
    obtain ⟨priced', hdue'⟩ := hdue.alike hsame
    exact ⟨fees, preview_of_due hx.idle hdue', hsettles⟩
  refine ⟨preview_vault host hx.idle, preview_store host hx.idle, ?_, ?_, ?_⟩
  · intro books hc
    rw [perform, performWith_world]
    exact hc.ofCall_custody rfl x
  · intro fees hpreview y c reply y' hsame hpays h
    obtain ⟨fees', hpreview', hsettles⟩ := hgives y c reply y' hsame hpays h
    rw [hpreview] at hpreview'
    cases hpreview'
    exact hsettles
  · intro e hpreview y c hsame hpays
    rcases h : perform host c y with ⟨e' | reply, y'⟩
    · exact ⟨e', rfl⟩
    · obtain ⟨fees, hpreview', _⟩ := hgives y c reply y' hsame hpays h
      rw [hpreview] at hpreview'
      cases hpreview'

namespace SmallVault

/-- The vault after a preview. -/
def previewed : World InMemory Handle := (perform InMemory.host .previewFees nextYear).2

/-- After the preview Alice sees what the preview saw. -/
theorem sameInputs : SameInputs InMemory.host nextYear previewed where
  config := rfl
  state := rfl
  unknown h := by cases h
  holdings := rfl
  bounds a b holdings ha hb hholdings := by
    cases ha
    cases hb
    rfl
  value a b holdings tvl ha hb hholdings hbounds := by
    cases ha
    cases hb
    rfl
  clock a holdings ha hholdings := rfl

end SmallVault

/-- The preview gives a hundred shares of fees.  The withdrawal after it charges them, and burns
half of Alice's shares. -/
theorem preview_agrees_half_withdrawal :
    (perform InMemory.host .previewFees SmallVault.nextYear).1 =
        .ok (.fees ⟨.saturate 128 100, 0, 0, 0, 0, none⟩) ∧
      SmallVault.previewed.vault = SmallVault.nextYear.vault ∧
      SmallVault.halfWithdrawal.SettlesWith InMemory.host SmallVault.previewed
        ⟨.saturate 128 100, 0, 0, 0, 0, none⟩
        (perform InMemory.host SmallVault.halfWithdrawal SmallVault.previewed) := by
  have hagrees := preview_agrees (SmallVault.reachable
    [.call (.deposit "alice" [.saturate 128 1000] 0 0),
      .outside (SmallVault.surroundings 1 1000 0)])
  have hpreview : (perform InMemory.host .previewFees SmallVault.nextYear).1 =
      .ok (.fees ⟨.saturate 128 100, 0, 0, 0, 0, none⟩) := rfl
  have hwithdraws : (perform InMemory.host SmallVault.halfWithdrawal SmallVault.previewed).1 =
      .ok (.withdrawn [.saturate 128 454]) := rfl
  refine ⟨hpreview, hagrees.vault, ?_⟩
  have hsettles := hagrees.agrees _ hpreview _ _ _ _ SmallVault.sameInputs rfl
    (Prod.ext hwithdraws rfl)
  rw [← hwithdraws] at hsettles
  exact hsettles

end ShareVault
