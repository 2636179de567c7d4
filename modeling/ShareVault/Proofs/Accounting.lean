import ShareVault.Proofs.Run

/-!
# Calls that are priced

A deposit, a withdrawal and a preview are priced by the source of prices in force, and charge or
preview the fees that the schedule in force demands.

* `Call.priced` — the three calls;
* `Vault.source?` — the source of prices in force;
* `PreviewRun`, `preview_ok` — everything that a preview has gone through;
* `Due` — fees that are due by the schedule in force.
-/

namespace ShareVault

variable {σ A : Type} {host : Host σ A} {w w' : World σ A} {reply : Reply}

/-- Whether a call is priced. -/
def Call.priced : Call A → Bool
  | .deposit .. => true
  | .withdraw .. => true
  | .previewFees => true
  | _ => false

/-- The source of prices in force: what the vault knows by the name that governance has chosen. -/
def Vault.source? (v : Vault A) : Option A :=
  v.adapters.get? v.state.governance.schedule.valuationReference

/-! ### Previews -/

namespace Operation

variable {nested : Performer σ A}

/-- All that a preview has gone through. -/
structure PreviewRun (nested : Performer σ A) (host : Host σ A) (w : World σ A) where
  adapter : A
  holdings : List Amount
  tvl : Tvl
  fees : FeeCharge
  /-- The ledger after the fees. -/
  charged : ShareLedger
  /-- The worlds after the appraisal and after the fees. -/
  priced : World σ A
  settled : World σ A
  known : w.vault.source? = some adapter
  appraises : valuation nested host adapter (w.mapVault .begin) = .ok (holdings, tvl) priced
  charges : charge nested host adapter w.vault.state.ledger w.vault.state.governance.schedule
    tvl.lower (host.now priced.host) priced = .ok (fees, charged) settled

/-- A preview that succeeds has passed every check, and changes nothing of its own. -/
theorem preview_ok (h : preview nested host w = .ok reply w') :
    w.vault.entered = false ∧ ∃ run : PreviewRun nested host w,
      reply = .fees run.fees ∧ w' = run.settled.mapVault .abandon := by
  rw [preview] at h
  cases hw : w.vault.entered with
  | true =>
    rw [guarded_busy hw] at h
    cases h
  | false =>
    refine ⟨rfl, ?_⟩
    rw [guarded_idle hw] at h
    split at h
    next a w₁ hbody =>
      simp only [Effectful.bind_eq_ok, Effectful.get_eq_ok, Effectful.pure_eq_ok,
        adapterOf_eq_ok] at hbody
      obtain ⟨_, _, ⟨rfl, rfl⟩, adapter, _, ⟨hknown, rfl⟩, ⟨holdings, tvl⟩, priced, happraises,
        _, _, ⟨rfl, rfl⟩, ⟨fees, charged⟩, settled, hcharges, rfl, rfl⟩ := hbody
      cases h
      exact ⟨⟨adapter, holdings, tvl, fees, charged, _, _, hknown, happraises, hcharges⟩,
        rfl, rfl⟩
    next => cases h

end Operation

/-! ### Fees that are due -/

/-- These fees are due at a time by the schedule in force on the committed ledger, as the source of
prices in force appraises the holdings; `priced` is the world after the appraisal. -/
inductive Due (host : Host σ A) (w : World σ A) (now : Timestamp) (priced : World σ A)
    (fees : FeeCharge) : Prop where
  | intro {adapter : A} {holdings : List Amount} {tvl : Tvl} {charged : ShareLedger}
      {settled : World σ A} (known : w.vault.source? = some adapter)
      (appraises : Operation.valuation host.nested host adapter (w.mapVault .begin) =
        .ok (holdings, tvl) priced)
      (charges : Operation.charge host.nested host adapter w.vault.state.ledger
        w.vault.state.governance.schedule tvl.lower now priced = .ok (fees, charged) settled)

end ShareVault
