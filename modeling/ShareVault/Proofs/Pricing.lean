import ShareVault.Proofs.Reentrancy

/-!
# The source of prices that a call goes by

A priced call goes by the source of prices that is in force when it begins.  No other source has a
say in what it comes to, whatever outside code does in the meantime.

* `Call.PricedBy` — the source of prices that a call goes by;
* `Host.AgreesOn` — collaborators that differ at most in what the other sources answer;
* `performWith_busy_eq` — to a busy vault they make no difference at all;
* `perform_eq_of_agreesOn` — nor do they to a call that goes by this source.
-/

namespace ShareVault

variable {σ A α : Type} {host host' : Host σ A} {w : World σ A} {c : Call A} {adapter : A}

/-- The call goes by this source of prices. -/
def Call.PricedBy (w : World σ A) (c : Call A) (adapter : A) : Prop :=
  c.priced = true ∧ w.vault.source? = some adapter

/-- The second collaborators give the answers of the first ones, except that other sources of prices
than this one may answer differently. -/
structure Host.AgreesOn (host host' : Host σ A) (adapter : A) : Prop where
  now : host'.now = host.now
  reference : host'.reference = host.reference
  holdings : host'.holdings = host.holdings
  tvl : host'.tvl adapter = host.tvl adapter
  convert : host'.convert adapter = host.convert adapter
  pull : host'.pull = host.pull
  release : host'.release = host.release

/-! ### Outside code and a busy vault -/

/-- A busy vault asks its collaborators for the names of sources of prices, and for nothing else. -/
theorem performWith_busy_eq {nested nested' : Performer σ A}
    (hreference : host'.reference = host.reference) (hbusy : w.vault.entered = true) (c : Call A) :
    performWith nested' host' c w = performWith nested host c w := by
  cases hc : c.guarded with
  | true => rw [performWith_guarded hc hbusy, performWith_guarded hc hbusy]
  | false =>
    cases c with
    | registerAdapter caller adapter =>
      simp only [performWith, Operation.ofCall, Operation.registerAdapter, hreference]
    | persist => rfl
    | ask q => rfl
    | _ => cases hc

/-- A script comes to the same when a busy vault gives the same replies.  By induction on the
script; the vault stays busy from call to call. -/
theorem Script.run_busy_eq {nested nested' : Performer σ A} (hattends : nested.Attends)
    (hreplies : ∀ c w, w.vault.entered = true → nested' c w = nested c w) (script : Script σ A α)
    (vault : Vault A) (store : VaultStore) (hbusy : vault.entered = true) :
    script.run nested' vault store = script.run nested vault store := by
  induction script generalizing vault store with
  | answer a s => rfl
  | call c s resume ih =>
    have hafter : (nested c ⟨vault, store, s⟩).2.vault.entered = true :=
      (hattends c ⟨vault, store, s⟩ hbusy).vault.entered_eq.trans hbusy
    simp only [run]
    rw [hreplies c ⟨vault, store, s⟩ hbusy]
    exact ih _ _ _ _ hafter

/-! ### A call among collaborators that agree -/

namespace Operation

/-- The same world, in which the vault is busy. -/
def SameBusy (x y : World σ A) : Prop := x = y ∧ x.vault.entered = true

theorem consult_sameBusy (hreference : host'.reference = host.reference)
    (script : σ → Script σ A α) :
    Lockstep SameBusy SameBusy (consult host.nested script) (consult host'.nested script) := by
  rintro x _ ⟨rfl, hbusy⟩
  have hattends : host.nested.Attends := nested_attends host
  unfold consult
  dsimp only
  rw [(script x.host).run_busy_eq hattends (fun c w h => performWith_busy_eq hreference h c)
    x.vault x.store hbusy]
  exact .ok ⟨rfl, ((script x.host).run_attends hattends x hbusy).vault.entered_eq.trans hbusy⟩

theorem inStep_agreesOn (h : host.AgreesOn host' adapter) :
    InStep (· = adapter) SameBusy host.nested host host'.nested host' where
  now x y hxy := by rw [h.now, hxy.1]
  config x y hxy := by rw [hxy.1]
  holdings := by
    rw [h.holdings]
    exact consult_sameBusy h.reference _
  tvl := by
    rintro _ holdings rfl
    rw [h.tvl]
    exact consult_sameBusy h.reference _
  convert := by
    rintro _ amounts rfl
    rw [h.convert]
    exact consult_sameBusy h.reference _
  pull account amounts := by
    rw [h.pull]
    exact consult_sameBusy h.reference _
  release account amounts := by
    rw [h.release]
    exact consult_sameBusy h.reference _

theorem closes_sameBusy : Closes SameBusy (Eq : World σ A → World σ A → Prop) where
  commit x y state now events h := by rw [h.1]
  reject x y h := by rw [h.1]
  abandon x y h := by rw [h.1]

end Operation

/-- A call depends on no source of prices but the one it goes by. -/
theorem perform_eq_of_agreesOn (hidle : w.vault.entered = false) (hpriced : c.PricedBy w adapter)
    (h : host.AgreesOn host' adapter) : perform host' c w = perform host c w := by
  have hbegin : Operation.Begins Operation.SameBusy host host' w w :=
    ⟨.refl _, hidle, congrFun h.now.symm _, rfl, rfl⟩
  have hasked : ∀ a, w.vault.source? = some a → a = adapter := fun a ha =>
    Option.some.inj (ha.symm.trans hpriced.2)
  obtain ⟨houtcome, hworld⟩ := performWith_lockstep (Operation.inStep_agreesOn h)
    Operation.closes_sameBusy hbegin (Call.guarded_of_priced hpriced.1) hasked
  exact (Prod.ext houtcome hworld).symm

end ShareVault
