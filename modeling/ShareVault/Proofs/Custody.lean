import ShareVault.InMemory
import ShareVault.Proofs.Run

/-!
# All or nothing

A vault over a custody in memory, with sources of prices that answer anything but never call back.
An operation that fails, at whatever point, has moved no assets and has left everything as it was,
but for the count of rejections.

* `MovesBy`, `Host.OverCustody` — such collaborators;
* `Frame.untilPaid` — what they leave alone until they pay;
* `Frame.custody`, `ofCall_custody` — calls that pay nothing;
* `perform_error_custody` — calls that fail;
* `InMemory.overCustody` — the collaborators in memory are of this kind;
* `SmallVault` — a vault among collaborators in memory;
* `failed_operation` — all or nothing.
-/

namespace ShareVault

section OverCustody

variable {σ A α : Type} {books : σ → Custody} {host : Host σ A} {nested : Performer σ A}
  {w w' : World σ A}

/-! ### Collaborators over a custody -/

/-- A script answers at once what comes of a change of the custody, and takes the change over if
there is one. -/
def MovesBy (books : σ → Custody) (change : Custody → Except CustodyError Custody) (s : σ)
    (script : Script σ A (Except CustodyError Unit)) : Prop :=
  ∃ s', match change (books s) with
    | .ok c => script = .answer (.ok ()) s' ∧ books s' = c
    | .error e => script = .answer (.error e) s' ∧ books s' = books s

/-- A custody in memory, with sources of prices that answer at once and keep away from it. -/
structure Host.OverCustody (host : Host σ A) (books : σ → Custody) : Prop where
  holdings : ∀ s, host.holdings s = .answer (.ok (books s).holdings) s
  tvl : ∀ adapter holdings s, ∃ answer s', host.tvl adapter holdings s = .answer answer s' ∧
    books s' = books s
  convert : ∀ adapter amounts s, ∃ answer s', host.convert adapter amounts s = .answer answer s' ∧
    books s' = books s
  pull : ∀ account amounts s,
    MovesBy books (·.pull account amounts) s (host.pull account amounts s)
  release : ∀ account amounts s,
    MovesBy books (·.release account amounts) s (host.release account amounts s)

/-- Nothing but the surroundings changes, and of these the custody does not. -/
def Frame.untilPaid (books : σ → Custody) : Frame σ A where
  rel w w' := w'.vault = w.vault ∧ w'.store = w.store ∧ books w'.host = books w.host
  refl _ := ⟨rfl, rfl, rfl⟩
  trans h h' := ⟨h'.1.trans h.1, h'.2.1.trans h.2.1, h'.2.2.trans h.2.2⟩

/-- The custody does not change, whatever becomes of the vault. -/
def Frame.custody (books : σ → Custody) : Frame σ A where
  rel w w' := books w'.host = books w.host
  refl _ := rfl
  trans h h' := h'.trans h

/-- A payment that is refused moves nothing. -/
theorem MovesBy.refused {change : Custody → Except CustodyError Custody}
    {script : Script σ A (Except CustodyError Unit)} {e : CustodyError}
    (h : MovesBy books change w.host script)
    (hrun : script.run nested w.vault w.store = (.error e, w')) :
    (Frame.untilPaid books).rel w w' := by
  obtain ⟨s', h⟩ := h
  cases hchange : change (books w.host) with
  | ok c =>
    rw [hchange] at h
    rw [h.1] at hrun
    cases hrun
  | error e' =>
    rw [hchange] at h
    rw [h.1] at hrun
    cases hrun
    exact ⟨rfl, rfl, h.2⟩

/-- A payment that is made is the change of the custody, and no other. -/
theorem MovesBy.made {change : Custody → Except CustodyError Custody}
    {script : Script σ A (Except CustodyError Unit)}
    (h : MovesBy books change w.host script)
    (hrun : script.run nested w.vault w.store = (.ok (), w')) :
    change (books w.host) = .ok (books w'.host) ∧ w'.vault = w.vault ∧ w'.store = w.store := by
  obtain ⟨s', h⟩ := h
  cases hchange : change (books w.host) with
  | ok c =>
    rw [hchange] at h
    rw [h.1] at hrun
    cases hrun
    exact ⟨congrArg Except.ok h.2.symm, rfl, rfl⟩
  | error e =>
    rw [hchange] at h
    rw [h.1] at hrun
    cases hrun

namespace Host.OverCustody

open Operation

/-- Questions leave the custody alone. -/
theorem questions (hc : host.OverCustody books) (nested : Performer σ A) :
    Questions (.untilPaid books) nested host where
  holdings w := by
    show (Frame.untilPaid books).rel w ((host.holdings w.host).run nested w.vault w.store).2
    rw [hc.holdings]
    exact ⟨rfl, rfl, rfl⟩
  tvl adapter holdings w := by
    obtain ⟨answer, s', htvl, hsame⟩ := hc.tvl adapter holdings w.host
    show (Frame.untilPaid books).rel w
      ((host.tvl adapter holdings w.host).run nested w.vault w.store).2
    rw [htvl]
    exact ⟨rfl, rfl, hsame⟩
  convert adapter amounts w := by
    obtain ⟨answer, s', hconvert, hsame⟩ := hc.convert adapter amounts w.host
    show (Frame.untilPaid books).rel w
      ((host.convert adapter amounts w.host).run nested w.vault w.store).2
    rw [hconvert]
    exact ⟨rfl, rfl, hsame⟩

theorem refusals (hc : host.OverCustody books) (nested : Performer σ A) :
    Refusals (.untilPaid books) nested host where
  pull account amounts _ w _ h := (hc.pull account amounts w.host).refused h
  release account amounts _ w _ h := (hc.release account amounts w.host).refused h

theorem custody_questions (hc : host.OverCustody books) (nested : Performer σ A) :
    Questions (.custody books) nested host where
  holdings w := ((hc.questions nested).holdings w).2.2
  tvl adapter holdings w := ((hc.questions nested).tvl adapter holdings w).2.2
  convert adapter amounts w := ((hc.questions nested).convert adapter amounts w).2.2

/-- An appraisal and the charge after it leave the custody as it was. -/
theorem settled_books (hc : host.OverCustody books) {adapter : A} {ledger : ShareLedger}
    {schedule : FeeSchedule} {lower : List Amount} {now : Timestamp}
    {appraisal : List Amount × Tvl} {charge : FeeCharge × ShareLedger} {w₁ w₂ : World σ A}
    (happraises : valuation nested host adapter (w.mapVault .begin) = .ok appraisal w₁)
    (hcharges : Operation.charge nested host adapter ledger schedule lower now w₁ =
      .ok charge w₂) : books w₂.host = books w.host := by
  have hquestions := hc.custody_questions nested
  have hpriced := (keeps_valuation hquestions adapter).onOk happraises
  have hsettled := (keeps_charge hquestions _ _ _ _ _).onOk hcharges
  exact hsettled.trans hpriced

end Host.OverCustody

/-! ### Calls that pay nothing -/

namespace Operation

theorem mutate_custody {body : VaultState → Timestamp → Operation σ A (Effect α)}
    (hbody : ∀ s now, Keeps (.custody books) (body s now)) :
    Keeps (.custody books) (mutate host body) := by
  intro w
  cases hw : w.vault.entered with
  | true =>
    rw [mutate_busy hw]
    rfl
  | false =>
    have hdone := hbody w.vault.state (host.now w.host) (w.mapVault .begin)
    rw [mutate_idle hw]
    cases h : body w.vault.state (host.now w.host) (w.mapVault .begin) with
    | ok effect w₁ =>
      rw [h] at hdone
      exact hdone
    | error e w₁ =>
      rw [h] at hdone
      exact hdone

theorem govern_custody (body : VaultGovernance → Timestamp →
    Except GovernanceError (VaultGovernance × Reply × VaultEvent)) :
    Keeps (.custody books) (govern host body) := by
  rw [govern]
  refine mutate_custody fun s now => ?_
  exact keeps_bind (keeps_lift _) fun _ => keeps_pure _

theorem guarded_custody {body : Operation σ A α} (hbody : Keeps (.custody books) body) :
    Keeps (.custody books) (guarded body) := by
  intro w
  cases hw : w.vault.entered with
  | true =>
    rw [guarded_busy hw]
    rfl
  | false =>
    obtain ⟨w₁, hend, hrel⟩ := guarded_end hbody hw
    rw [hend]
    exact hrel

end Operation

namespace Host.OverCustody

open Operation

/-- A call that moves no assets leaves the custody alone, however it ends. -/
theorem ofCall_custody (hc : host.OverCustody books) {c : Call A} (hp : c.pays = false) :
    Keeps (.custody books) (ofCall nested host c) := by
  have hq := hc.custody_questions nested
  cases c with
  | deposit caller amounts minShares deadline => cases hp
  | withdraw caller shares minAmounts recipient => cases hp
  | transfer caller receiver amount =>
    rw [ofCall, transfer]
    exact mutate_custody fun s now => keeps_bind (keeps_lift _) fun _ => keeps_pure _
  | stage caller p value =>
    rw [ofCall, stage]
    refine mutate_custody fun s now => ?_
    refine keeps_bind (keeps_checkReference value) fun _ => ?_
    exact keeps_bind (keeps_lift _) fun _ => keeps_pure _
  | commit caller p =>
    rw [ofCall, commit]
    exact govern_custody _
  | rollback caller p =>
    rw [ofCall, rollback]
    exact govern_custody _
  | grantRole caller account role =>
    rw [ofCall, grantRole]
    exact govern_custody _
  | revokeRole caller account role =>
    rw [ofCall, revokeRole]
    exact govern_custody _
  | setDepositLimits caller limits =>
    rw [ofCall, setDepositLimits]
    exact govern_custody _
  | setPrivate caller privateVault =>
    rw [ofCall, setPrivate]
    exact govern_custody _
  | setDepositorAllowed caller account allowed =>
    rw [ofCall, setDepositorAllowed]
    exact govern_custody _
  | registerAdapter caller adapter =>
    rw [ofCall]
    intro w
    rcases registerAdapter_end caller adapter w with h | h
    · rw [h]
      rfl
    · rw [h]
      rfl
  | previewFees =>
    obtain ⟨body, hpreview, hbody⟩ := preview_eq_guarded hq
    rw [ofCall, hpreview]
    exact guarded_custody hbody
  | persist =>
    rw [ofCall]
    intro w
    rcases persist_end w with h | ⟨store, _, h⟩
    · rw [h]
      rfl
    · rw [h]
      rfl
  | ask q => exact keeps_bind keeps_get fun _ => keeps_pure _

end Host.OverCustody

/-- A call that fails leaves the custody alone. -/
theorem perform_error_custody {books : σ → Custody} (hc : host.OverCustody books) {c : Call A}
    {e : VaultError} (hidle : w.vault.entered = false)
    (h : perform host c w = (.error e, w')) : books w'.host = books w.host := by
  cases hp : c.pays with
  | false => exact (hc.ofCall_custody hp).onError w e w' (perform_eq_error.mp h)
  | true =>
    have hm : c.mutates = true := by
      cases c with
      | deposit caller amounts minShares deadline => rfl
      | withdraw caller shares minAmounts recipient => rfl
      | _ => cases hp
    obtain ⟨w₁, ⟨_, _, hcustody⟩, rfl⟩ := Operation.ofCall_failed (hc.questions _)
      (hc.refusals _) hm hidle (perform_eq_error.mp h)
    exact hcustody

end OverCustody

/-! ### Collaborators in memory -/

namespace InMemory

theorem moves (m : InMemory) (change : Custody → Except CustodyError Custody) :
    MovesBy InMemory.custody change m
      (.answer (m.move change).1 (m.move change).2 : Script InMemory Handle _) := by
  unfold MovesBy move
  cases h : change m.custody with
  | ok c => exact ⟨{ m with custody := c }, rfl, rfl⟩
  | error e => exact ⟨m, rfl, rfl⟩

theorem overCustody : host.OverCustody InMemory.custody where
  holdings _ := rfl
  tvl _ _ m := ⟨_, m, rfl, rfl⟩
  convert _ _ m := ⟨_, m, rfl, rfl⟩
  pull account amounts m := m.moves (·.pull account amounts)
  release account amounts m := m.moves (·.release account amounts)

end InMemory

/-! ### A small vault -/

namespace SmallVault

/-- One asset, which is dust below ten units. -/
def config : VaultConfig := ⟨["usd"], [.saturate 128 10], .default⟩

/-- A tenth a year for the strategy. -/
def schedule : FeeSchedule where
  managementFee := .saturate 128 100000000
  performanceFee := 0
  protocolFee := 0
  feeChargeThrottle := 0
  strategyTreasury := "strategy"
  performanceTreasury := "performance"
  protocolTreasury := "protocol"
  valuationReference := "par"

/-- The surroundings after some years, with this much of the asset in the vault and with Alice. -/
def surroundings (years holdings alice : Nat) : InMemory where
  clock := ⟨.saturate 64 (years * secondsPerYear)⟩
  custody := ⟨1, [.saturate 128 holdings], .ofList [("alice", [.saturate 128 alice])]⟩
  adapters := [.atPar "par" 1 0]

def vault : Vault Handle :=
  .ofParts ⟨0⟩ config
    ⟨.new 0, .new schedule, .withAdmin "admin", .default, .unlimited, false, ∅⟩
    [("par", ⟨"par", 0⟩)]

/-- The vault when it is new, and Alice has a thousand units. -/
def start : World InMemory Handle := ⟨vault, .empty, surroundings 0 0 1000⟩

theorem created : Vault.create ⟨0⟩ config "admin" schedule
    (InMemory.host.reference ⟨"par", 0⟩, ⟨"par", 0⟩) (InMemory.host.now start.host) =
      .ok vault := rfl

theorem reachable (turns : List (Turn InMemory Handle)) :
    Reachable InMemory.host (play InMemory.host start turns) :=
  (Reachable.create created).play turns

/-- Alice has deposited everything, and a year has gone by. -/
def nextYear : World InMemory Handle :=
  play InMemory.host start
    [.call (.deposit "alice" [.saturate 128 1000] 0 0), .outside (surroundings 1 1000 0)]

/-- Alice withdraws a hundred shares. -/
def hundredOut : Call Handle := .withdraw "alice" (.saturate 128 100) [0] "alice"

/-- She does so in a turn. -/
def hundredLess : Turn InMemory Handle := .call hundredOut

end SmallVault

/-! ### Failed operations -/

/-- An operation that fails, at whatever point, changes nothing in a vault but its count of
rejections, which grows by one, and nothing in the store or the custody. -/
theorem failed_operation {σ A : Type} {host : Host σ A} {books : σ → Custody} {w w' : World σ A}
    {c : Call A} {e : VaultError} (hc : host.OverCustody books) (hw : Reachable host w)
    (hm : c.mutates = true) (h : perform host c w = (.error e, w')) :
    w'.vault = { w.vault with
        metrics := { w.vault.metrics with rejected := w.vault.metrics.rejected + 1 } } ∧
      w'.store = w.store ∧ books w'.host = books w.host := by
  obtain ⟨w₁, ⟨hvault, hstore, hcustody⟩, rfl⟩ := Operation.ofCall_failed (hc.questions _)
    (hc.refusals _) hm hw.idle (perform_eq_error.mp h)
  refine ⟨?_, hstore, hcustody⟩
  show w₁.vault.abandon.reject = _
  rw [hvault]
  show { w.vault with
    entered := false
    metrics := { w.vault.metrics with rejected := w.vault.metrics.rejected + 1 } } = _
  rw [← hw.idle]

/-- Bob has nothing to pay with, which is found out when fees are charged and shares are minted. -/
def SmallVault.unfunded : Outcome × World InMemory Handle :=
  perform InMemory.host (.deposit "bob" [.saturate 128 1000] 0 (.largest 64)) nextYear

theorem failed_operation_unfunded :
    SmallVault.unfunded.1 =
        .error (.custody (.insufficientFunds "bob" 0 0 (.saturate 128 1000))) ∧
      SmallVault.unfunded.2.vault = { SmallVault.nextYear.vault with
        metrics := { SmallVault.nextYear.vault.metrics with
          rejected := SmallVault.nextYear.vault.metrics.rejected + 1 } } ∧
      SmallVault.unfunded.2.store = SmallVault.nextYear.store ∧
      SmallVault.unfunded.2.host.custody = SmallVault.nextYear.host.custody := by
  have hfails : SmallVault.unfunded.1 =
      .error (.custody (.insufficientFunds "bob" 0 0 (.saturate 128 1000))) := rfl
  exact ⟨hfails, failed_operation InMemory.overCustody (SmallVault.reachable _) rfl
    (Prod.ext hfails rfl)⟩

end ShareVault
