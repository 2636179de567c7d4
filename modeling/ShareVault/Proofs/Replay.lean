import ShareVault.Proofs.Booking
import ShareVault.Proofs.Governance

/-!
# Replaying the event log

The log of a vault tells everything about it but who holds the shares.  An operation that succeeds
changes the committed state just as its events say, and an operation that fails leaves none; so the
whole log, read from the beginning, gives the supply, the high-water mark, the roles and the deposit
policy of the vault.

* `VaultEvent.issued`, `burned`, `mark?`, `policy?`, `grants?`, `lists?` — what an event says;
* `lastOr`, `read_foldl` — the last thing that is said;
* `AccessTable.after`, `allowlistAfter` — the roles and the listed depositors after an event;
* `VaultState.Follows`, `Commits.follows` — a state that is another one changed as some events say;
* `Vault.Told`, `Turn.told` — a vault that is as its log says, and what keeps it so;
* `EventLog.Numbered`, `Turn.numbered`, `Turn.records_prefix` — records are added at the end, each
  with its place;
* `Replayed`, `log_replayed` — the result.
-/

namespace ShareVault

/-! ### What events say -/

namespace VaultEvent

/-- The shares that an event says were issued, fee shares included. -/
def issued : VaultEvent → Nat
  | .feesCharged management performance _ => management.toNat + performance.toNat
  | .deposited _ shares _ => shares.toNat
  | _ => 0

/-- The shares that an event says were burned. -/
def burned : VaultEvent → Nat
  | .withdrawn _ _ shares _ => shares.toNat
  | _ => 0

/-- The high-water mark that an event reports. -/
def mark? : VaultEvent → Option Amount
  | .feesCharged _ _ mark => some mark
  | _ => none

/-- The deposit limits and the private flag that an event reports. -/
def policy? : VaultEvent → Option (DepositLimits × Bool)
  | .depositLimitsUpdated limit perAddress privateVault => some (⟨limit, perAddress⟩, privateVault)
  | _ => none

/-- What an event says about whether an account holds a role. -/
def grants? (account : Account) (role : Role) : VaultEvent → Option Bool
  | .roleGranted a r => if account = a ∧ role = r then some true else none
  | .roleRevoked a r => if account = a ∧ role = r then some false else none
  | _ => none

/-- What an event says about whether an account is listed as a depositor. -/
def lists? (account : Account) : VaultEvent → Option Bool
  | .depositorAllowlisted a allowed => if account = a then some allowed else none
  | _ => none

def isDeposit : VaultEvent → Bool
  | .deposited .. => true
  | _ => false

def isWithdrawal : VaultEvent → Bool
  | .withdrawn .. => true
  | _ => false

end VaultEvent

/-! ### The last thing that is said -/

/-- The last value of a list, or another one if the list is empty. -/
def lastOr {α : Type} (a : α) (l : List α) : α := l.getLast?.getD a

theorem lastOr_append {α : Type} (a : α) (l l' : List α) :
    lastOr a (l ++ l') = lastOr (lastOr a l) l' := by
  unfold lastOr
  rw [List.getLast?_append]
  cases l'.getLast? with
  | none => rfl
  | some b => rfl

/-- What is read off a state after some steps is the last thing that the steps said about it, if
each step leaves what it says or, saying nothing, what there was. -/
theorem read_foldl {α β γ : Type} {step : α → β → α} (read : α → γ) {says? : β → Option γ}
    (h : ∀ a b, read (step a b) = (says? b).getD (read a)) (steps : List β) (a : α) :
    read (steps.foldl step a) = lastOr (read a) (steps.filterMap says?) := by
  induction steps generalizing a with
  | nil => rfl
  | cons b rest ih =>
    rw [List.foldl_cons, ih, h]
    cases hb : says? b with
    | none => rw [List.filterMap_cons_none hb, Option.getD_none]
    | some c =>
      rw [List.filterMap_cons_some hb, Option.getD_some]
      exact (lastOr_append (read a) [c] _).symm

/-! ### Roles and depositors -/

/-- The role table after an event. -/
def AccessTable.after (t : AccessTable) : VaultEvent → AccessTable
  | .roleGranted account role => t.add account role
  | .roleRevoked account role => t.remove account role
  | _ => t

/-- The listed depositors after an event. -/
def allowlistAfter (listed : SortedSet Account) : VaultEvent → SortedSet Account
  | .depositorAllowlisted account allowed =>
    if allowed then listed.insert account else listed.erase account
  | _ => listed

namespace AccessTable

variable (t : AccessTable) (account a : Account) (role r : Role)

theorem hasRole_add :
    (t.add account role).hasRole a r = (decide (a = account ∧ r = role) || t.hasRole a r) := by
  unfold add hasRole rolesOf
  rw [SortedMap.get?_insert]
  by_cases ha : a = account
  · subst ha
    simp [SortedSet.contains_insert]
  · simp [ha]

/-- An account that loses its only role is gone from the table, and holds no role either way. -/
theorem hasRole_remove :
    (t.remove account role).hasRole a r = (!decide (a = account ∧ r = role) && t.hasRole a r) := by
  unfold remove
  cases hroles : t.roles.get? account with
  | none =>
    by_cases ha : a = account
    · subst ha
      simp [hasRole, rolesOf, hroles]
    · simp [ha]
  | some set =>
    unfold hasRole rolesOf
    by_cases ha : a = account
    · subst ha
      have herase := SortedSet.contains_erase set role r
      by_cases hleft : (set.erase role).isEmpty = true
      · rw [SortedSet.contains_of_isEmpty hleft] at herase
        simpa [hleft, hroles] using herase
      · simpa [hleft, hroles] using herase
    · by_cases hleft : (set.erase role).isEmpty = true
      · simp [hleft, ha, SortedMap.get?_erase]
      · simp [hleft, ha, SortedMap.get?_insert]

/-- An account holds a role exactly if the last event about them says so. -/
theorem hasRole_foldl (events : List VaultEvent) :
    (events.foldl after t).hasRole a r =
      lastOr (t.hasRole a r) (events.filterMap (·.grants? a r)) := by
  apply read_foldl (fun t : AccessTable => t.hasRole a r)
  intro t e
  cases e with
  | roleGranted account role =>
    show (t.add account role).hasRole a r = _
    rw [hasRole_add, VaultEvent.grants?]
    by_cases h : a = account ∧ r = role
    · rw [if_pos h, decide_eq_true h]
      rfl
    · rw [if_neg h, decide_eq_false h]
      rfl
  | roleRevoked account role =>
    show (t.remove account role).hasRole a r = _
    rw [hasRole_remove, VaultEvent.grants?]
    by_cases h : a = account ∧ r = role
    · rw [if_pos h, decide_eq_true h]
      rfl
    · rw [if_neg h, decide_eq_false h]
      rfl
  | _ => rfl

end AccessTable

/-- An account is listed exactly if the last event about it says so. -/
theorem contains_foldl_allowlistAfter (listed : SortedSet Account) (a : Account)
    (events : List VaultEvent) :
    (events.foldl allowlistAfter listed).contains a =
      lastOr (listed.contains a) (events.filterMap (·.lists? a)) := by
  apply read_foldl (fun s : SortedSet Account => s.contains a)
  intro s e
  cases e with
  | depositorAllowlisted account allowed =>
    cases allowed with
    | true =>
      show (s.insert account).contains a = _
      rw [SortedSet.contains_insert, VaultEvent.lists?]
      by_cases h : a = account
      · simp [h]
      · simp [h]
    | false =>
      show (s.erase account).contains a = _
      rw [SortedSet.contains_erase, VaultEvent.lists?]
      by_cases h : a = account
      · simp [h]
      · simp [h]
  | _ => rfl

/-! ### A state that follows another one -/

/-- The second state is the first one changed as the events say. -/
structure VaultState.Follows (s : VaultState) (events : List VaultEvent) (s' : VaultState) :
    Prop where
  supply : s'.ledger.totalSupply.toNat + (events.map (·.burned)).sum =
    s.ledger.totalSupply.toNat + (events.map (·.issued)).sum
  mark : s'.ledger.highWaterMark =
    lastOr s.ledger.highWaterMark (events.filterMap (·.mark?))
  access : s'.governance.access = events.foldl AccessTable.after s.governance.access
  allowlist : s'.governance.allowlist = events.foldl allowlistAfter s.governance.allowlist
  policy : (s'.governance.limits, s'.governance.privateVault) =
    lastOr (s.governance.limits, s.governance.privateVault) (events.filterMap (·.policy?))

/-! ### One call -/

section Charges

variable {schedule : FeeSchedule} {now : Timestamp} {ledger charged : ShareLedger}
  {fees : FeeCharge}

/-- The sum in the event of a charge is exact: the shares are a part of the supply after it. -/
theorem FeeCharge.Books.issued_event (h : fees.Books schedule now ledger charged) :
    fees.event.issued = fees.minted := by
  have hsupply := h.supply
  have hlt := charged.totalSupply.lt
  show (fees.strategyMinted.addSat fees.protocolMinted).toNat + fees.performanceMinted.toNat = _
  rw [Word.toNat_addSat]
  unfold FeeCharge.minted at *
  omega

end Charges

variable {σ A : Type} {host : Host σ A} {w : World σ A} {t : Turn σ A}
  {turns : List (Turn σ A)} {config : VaultConfig} {now : Timestamp} {s : VaultState} {c : Call A}
  {effect : Effect Reply}

/-- What a call commits is what its events say. -/
theorem Commits.follows (hs : s.ledger.Sound) (h : Commits config now s c effect) :
    s.Follows effect.events effect.state := by
  cases h with
  | @deposit caller amounts minShares deadline lower upper value fees charged ledger plan inTime
      allowed sized charges settles =>
    have hbooks := (chargeFees_ok charges).books
    obtain ⟨_, _, _, hmint⟩ := Operation.settleDeposit_ok settles
    have hissued := hbooks.issued_event
    have hcharged := hbooks.supply
    have hminted := ShareLedger.supply_of_mint hmint
    refine ⟨?_, ?_, rfl, rfl, rfl⟩
    · show ledger.totalSupply.toNat + 0 =
        s.ledger.totalSupply.toNat + (fees.event.issued + (plan.shares.toNat + 0))
      omega
    · exact (congrArg Prod.fst (ShareLedger.marks_of_mint hmint)).trans hbooks.mark
  | @withdraw caller shares minAmounts recipient lower holdings value fees charged ledger amounts
      sized charges settles =>
    have hbooks := (chargeFees_ok charges).books
    obtain ⟨_, hburn⟩ := Operation.settleWithdrawal_ok settles
    have hissued := hbooks.issued_event
    have hcharged := hbooks.supply
    have hburned := ShareLedger.supply_of_burn ((chargeFees_ok charges).sound hs) hburn
    refine ⟨?_, ?_, rfl, rfl, rfl⟩
    · show ledger.totalSupply.toNat + (0 + (shares.toNat + 0)) =
        s.ledger.totalSupply.toNat + (fees.event.issued + 0)
      omega
    · exact (congrArg Prod.fst (ShareLedger.marks_of_burn hburn)).trans hbooks.mark
  | transfer moves =>
    refine ⟨?_, congrArg Prod.fst (ShareLedger.marks_of_transfer moves), rfl, rfl, rfl⟩
    exact congrArg Word.toNat (ShareLedger.supply_of_transfer moves)
  | stage stages =>
    obtain ⟨_, _, _, _, rfl⟩ := VaultGovernance.stage_ok stages
    exact ⟨rfl, rfl, rfl, rfl, rfl⟩
  | commit commits =>
    obtain ⟨_, _, _, _, rfl⟩ := VaultGovernance.commit_ok commits
    exact ⟨rfl, rfl, rfl, rfl, rfl⟩
  | rollback drops =>
    obtain ⟨_, rfl⟩ := VaultGovernance.rollback_ok drops
    exact ⟨rfl, rfl, rfl, rfl, rfl⟩
  | grantRole grants =>
    obtain ⟨_, rfl⟩ := VaultGovernance.grantRole_ok grants
    exact ⟨rfl, rfl, rfl, rfl, rfl⟩
  | revokeRole revokes =>
    obtain ⟨_, rfl⟩ := VaultGovernance.revokeRole_ok revokes
    exact ⟨rfl, rfl, rfl, rfl, rfl⟩
  | setDepositLimits sets =>
    obtain ⟨_, rfl⟩ := VaultGovernance.setDepositLimits_ok sets
    exact ⟨rfl, rfl, rfl, rfl, rfl⟩
  | setPrivate sets =>
    obtain ⟨_, rfl⟩ := VaultGovernance.setPrivate_ok sets
    exact ⟨rfl, rfl, rfl, rfl, rfl⟩
  | setDepositorAllowed sets =>
    obtain ⟨_, rfl⟩ := VaultGovernance.setDepositorAllowed_ok sets
    exact ⟨rfl, rfl, rfl, rfl, rfl⟩

/-! ### The log and the counters -/

namespace EventLog

variable {log log' : EventLog} {id : Uuid} {events : List VaultEvent}

/-- Every record has its place in the log for its number, counted from zero. -/
def Numbered (log : EventLog) : Prop :=
  ∀ (k : Nat) (record : EventRecord), log.records[k]? = some record →
    record.sequence = Word.wrap 64 k

theorem numbered_empty : empty.Numbered := by
  intro k record h
  cases h

theorem Numbered.emit (h : log.Numbered) (event : VaultEvent) :
    (log.emit id now event).Numbered := by
  intro k record hk
  unfold EventLog.emit at hk
  rcases Nat.lt_trichotomy k log.records.length with hlt | heq | hgt
  · rw [List.getElem?_append_left hlt] at hk
    exact h k record hk
  · subst heq
    rw [List.getElem?_concat_length] at hk
    cases hk
    rfl
  · rw [List.getElem?_eq_none (by simp; omega)] at hk
    cases hk

theorem emitAll_cons (event : VaultEvent) (rest : List VaultEvent) :
    log.emitAll id now (event :: rest) = (log.emit id now event).emitAll id now rest := rfl

theorem Numbered.emitAll (h : log.Numbered) : (log.emitAll id now events).Numbered := by
  induction events generalizing log with
  | nil => exact h
  | cons event rest ih => exact ih (h.emit event)

theorem records_prefix_emitAll : log.records <+: (log.emitAll id now events).records := by
  induction events generalizing log with
  | nil => exact List.prefix_rfl
  | cons event rest ih => exact (List.prefix_append log.records _).trans ih

@[simp] theorem events_emitAll : (log.emitAll id now events).events = log.events ++ events := by
  induction events generalizing log with
  | nil => simp [EventLog.emitAll]
  | cons event rest ih =>
    rw [emitAll_cons, ih]
    simp [EventLog.events, EventLog.emit]

end EventLog

namespace VaultMetrics

/-- A counter that an event moves by one or not at all counts the events that move it. -/
theorem count_foldl (count : VaultMetrics → Nat) {counts : VaultEvent → Bool}
    (h : ∀ m event, count (observe m event) = count m + if counts event then 1 else 0)
    (m : VaultMetrics) (events : List VaultEvent) :
    count (events.foldl observe m) = count m + events.countP counts := by
  induction events generalizing m with
  | nil => rfl
  | cons event rest ih =>
    rw [List.foldl_cons, ih, h, List.countP_cons]
    omega

theorem deposits_foldl (m : VaultMetrics) (events : List VaultEvent) :
    (events.foldl observe m).deposits = m.deposits + events.countP (·.isDeposit) := by
  apply count_foldl VaultMetrics.deposits
  intro m event
  cases event with
  | _ => rfl

theorem withdrawals_foldl (m : VaultMetrics) (events : List VaultEvent) :
    (events.foldl observe m).withdrawals = m.withdrawals + events.countP (·.isWithdrawal) := by
  apply count_foldl VaultMetrics.withdrawals
  intro m event
  cases event with
  | _ => rfl

end VaultMetrics

/-! ### A vault as its log tells -/

/-- The vault is as its log says, if it was new with this admin when the log began. -/
structure Vault.Told (admin : Account) (v : Vault A) : Prop where
  /-- What was issued and not burned is there. -/
  supply : v.state.ledger.totalSupply.toNat + (v.events.events.map (·.burned)).sum =
    (v.events.events.map (·.issued)).sum
  mark : v.state.ledger.highWaterMark = lastOr 0 (v.events.events.filterMap (·.mark?))
  access : v.state.governance.access = v.events.events.foldl AccessTable.after (.withAdmin admin)
  allowlist : v.state.governance.allowlist = v.events.events.foldl allowlistAfter ∅
  policy : (v.state.governance.limits, v.state.governance.privateVault) =
    lastOr (.unlimited, false) (v.events.events.filterMap (·.policy?))
  deposits : v.metrics.deposits = v.events.events.countP (·.isDeposit)
  withdrawals : v.metrics.withdrawals = v.events.events.countP (·.isWithdrawal)
  gauge : v.metrics.supply.toNat =
    min v.state.ledger.totalSupply.toNat (Word.largest 63).toNat

namespace Vault.Told

variable {admin : Account} {v v' : Vault A} {events : List VaultEvent} {s' : VaultState}

theorem attended (h : v.Told admin) (hv : v.Attended v') : v'.Told admin := by
  obtain ⟨_, _, rfl⟩ := hv
  exact ⟨h.supply, h.mark, h.access, h.allowlist, h.policy, h.deposits, h.withdrawals, h.gauge⟩

theorem commit (h : v.Told admin) (hv : v.begin.Attended v') (hs : v.state.Follows events s') :
    (v'.commit s' now events).Told admin := by
  have hlog : (v'.commit s' now events).events.events = v.events.events ++ events := by
    rw [hv.events_commit, EventLog.events_emitAll]
  obtain ⟨_, _, rfl⟩ := hv
  refine ⟨?_, ?_, ?_, ?_, ?_, ?_, ?_, ?_⟩
  · have hbefore := h.supply
    have hmoved := hs.supply
    rw [hlog]
    simp only [List.map_append, List.sum_append]
    show s'.ledger.totalSupply.toNat + _ = _
    omega
  · rw [hlog, List.filterMap_append, lastOr_append, ← h.mark]
    exact hs.mark
  · rw [hlog, List.foldl_append, ← h.access]
    exact hs.access
  · rw [hlog, List.foldl_append, ← h.allowlist]
    exact hs.allowlist
  · rw [hlog, List.filterMap_append, lastOr_append, ← h.policy]
    exact hs.policy
  · rw [hlog, List.countP_append, ← h.deposits]
    exact VaultMetrics.deposits_foldl _ events
  · rw [hlog, List.countP_append, ← h.withdrawals]
    exact VaultMetrics.withdrawals_foldl _ events
  · exact Word.toNat_saturate _

end Vault.Told

/-- A new vault has nothing to tell. -/
theorem told_create {id : Uuid} {admin : Account} {schedule : FeeSchedule}
    {adapter : Reference × A} {v : Vault A}
    (h : Vault.create id config admin schedule adapter now = .ok v) :
    v.Told admin ∧ v.events = .empty ∧ v.state.ledger.Sound := by
  obtain ⟨governance, hnew, _, _, rfl⟩ := create_ok h
  obtain ⟨_, rfl⟩ := VaultGovernance.new_eq_ok.mp hnew
  refine ⟨⟨rfl, rfl, rfl, rfl, rfl, rfl, rfl, ?_⟩, rfl, ShareLedger.sound_new now⟩
  exact Word.toNat_saturate _

/-! ### One turn -/

theorem Turn.ledger_sound (hkept : t.restores = false) (hs : w.vault.state.ledger.Sound) :
    (t.play host w).vault.state.ledger.Sound := by
  have hdoes := t.does host w
  generalize t.play host w = w' at hdoes
  cases hdoes with
  | commits idle outcome commits meanwhile => exact commits.sound hs
  | leaves fails meanwhile =>
    rw [meanwhile.vault.state_eq]
    exact hs
  | outside => exact hs
  | restores restored => cases hkept
  | refuses => exact hs

theorem Turn.told {admin : Account} (hkept : t.restores = false)
    (hs : w.vault.state.ledger.Sound) (hw : w.vault.Told admin) :
    (t.play host w).vault.Told admin := by
  have hdoes := t.does host w
  generalize t.play host w = w' at hdoes
  cases hdoes with
  | commits idle outcome commits meanwhile =>
    exact hw.commit meanwhile.vault (commits.follows hs)
  | leaves fails meanwhile => exact hw.attended meanwhile.vault
  | outside => exact hw
  | restores restored => cases hkept
  | refuses => exact hw

/-- A turn adds the events of its call at the end of the log, and none if the call fails. -/
theorem Turn.log (host : Host σ A) (w : World σ A) (hkept : t.restores = false) :
    (t.play host w).vault.events = w.vault.events ∨
      ∃ c reply events, t = .call c ∧ (perform host c w).1 = .ok reply ∧
        (t.play host w).vault.events =
          w.vault.events.emitAll w.vault.id (host.now w.host) events := by
  have hdoes := t.does host w
  generalize t.play host w = w' at hdoes
  cases hdoes with
  | commits idle outcome commits meanwhile =>
    exact .inr ⟨_, _, _, rfl, outcome, meanwhile.vault.events_commit _ _ _⟩
  | leaves fails meanwhile =>
    obtain ⟨_, _, hvault⟩ := meanwhile.vault
    rw [hvault]
    exact .inl rfl
  | outside => exact .inl rfl
  | restores restored => cases hkept
  | refuses => exact .inl rfl

theorem Turn.numbered (t : Turn σ A) (hw : w.vault.events.Numbered) :
    (t.play host w).vault.events.Numbered := by
  cases hkept : t.restores with
  | false =>
    rcases t.log host w hkept with hsame | ⟨_, _, events, _, _, hlog⟩
    · rw [hsame]
      exact hw
    · rw [hlog]
      exact hw.emitAll
  | true =>
    have hdoes := t.does host w
    generalize t.play host w = w' at hdoes
    cases hdoes with
    | restores restored =>
      obtain ⟨_, _, rfl⟩ := restore_ok restored
      exact EventLog.numbered_empty
    | refuses => exact hw
    | _ => cases hkept

theorem Turn.records_prefix (host : Host σ A) (w : World σ A) (hkept : t.restores = false) :
    w.vault.events.records <+: (t.play host w).vault.events.records := by
  rcases t.log host w hkept with hsame | ⟨_, _, events, _, _, hlog⟩
  · exact hsame ▸ List.prefix_rfl
  · rw [hlog]
    exact EventLog.records_prefix_emitAll

/-! ### Whole runs -/

theorem told_play {admin : Account} (hkept : ∀ t ∈ turns, t.restores = false)
    (hs : w.vault.state.ledger.Sound) (hw : w.vault.Told admin) (hn : w.vault.events.Numbered) :
    (play host w turns).vault.Told admin ∧ (play host w turns).vault.events.Numbered := by
  induction turns generalizing w with
  | nil => exact ⟨hw, hn⟩
  | cons t rest ih =>
    rw [List.forall_mem_cons] at hkept
    exact ih hkept.2 (Turn.ledger_sound hkept.1 hs) (Turn.told hkept.1 hs hw) (t.numbered hn)

theorem records_prefix_play (host : Host σ A) (w : World σ A)
    (hkept : ∀ t ∈ turns, t.restores = false) :
    w.vault.events.records <+: (play host w turns).vault.events.records := by
  induction turns generalizing w with
  | nil => exact List.prefix_rfl
  | cons t rest ih =>
    rw [List.forall_mem_cons] at hkept
    exact (t.records_prefix host w hkept.1).trans (ih (t.play host w) hkept.2)

/-- What holds of the log at every moment of a run of a vault that was new with this admin. -/
structure Replayed (host : Host σ A) (admin : Account) (start : World σ A)
    (turns : List (Turn σ A)) : Prop where
  /-- The vault is as its log tells. -/
  told : ∀ before after, turns = before ++ after → (play host start before).vault.Told admin
  /-- An account holds a role if the last event about the two says so, and if there is none, if it
  is the admin in that role. -/
  holds : ∀ before after, turns = before ++ after → ∀ account role,
    (play host start before).vault.state.governance.access.hasRole account role =
      lastOr (decide (account = admin ∧ role = .admin))
        ((play host start before).vault.events.events.filterMap (·.grants? account role))
  /-- An account is listed as a depositor if the last event about it says so. -/
  lists : ∀ before after, turns = before ++ after → ∀ account,
    (play host start before).vault.state.governance.allowlist.contains account =
      lastOr false ((play host start before).vault.events.events.filterMap (·.lists? account))
  /-- The record at a place has its number for a sequence. -/
  sequence : ∀ before after, turns = before ++ after → ∀ (k : Nat) (record : EventRecord),
    (play host start before).vault.events.records[k]? = some record →
      record.sequence = Word.wrap 64 k ∧
        (k ≤ (Word.largest 64).toNat → record.sequence.toNat = k)
  /-- Records stay as they are. -/
  stays : ∀ before between after, turns = before ++ between ++ after →
    (play host start before).vault.events.records <+:
      (play host start (before ++ between)).vault.events.records
  /-- A call that fails leaves no record. -/
  silent : ∀ w c e, (w, .call c) ∈ history host start turns → (perform host c w).1 = .error e →
    ((Turn.call c).play host w).vault.events = w.vault.events

/-- The log of a new vault replays the vault: at every moment of a run without a restore the supply,
the high-water mark, the roles, the deposit policy and the counters are what the log says.  Records
are numbered by their places, and are never changed. -/
theorem log_replayed {id : Uuid} {admin : Account} {schedule : FeeSchedule} {adapter : A}
    {store : VaultStore} {surroundings : σ} {v : Vault A}
    (created : Vault.create id config admin schedule (host.reference adapter, adapter)
      (host.now surroundings) = .ok v)
    (hkept : ∀ t ∈ turns, t.restores = false) :
    Replayed host admin ⟨v, store, surroundings⟩ turns := by
  obtain ⟨htold, hempty, hsound⟩ := told_create created
  have hnumbered : v.events.Numbered := by
    rw [hempty]
    exact EventLog.numbered_empty
  have hplay : ∀ before after, turns = before ++ after →
      (play host ⟨v, store, surroundings⟩ before).vault.Told admin ∧
        (play host ⟨v, store, surroundings⟩ before).vault.events.Numbered := by
    intro before after hturns
    have hbefore : ∀ t ∈ before, t.restores = false := fun t ht => hkept t (by simp [hturns, ht])
    exact told_play hbefore hsound htold hnumbered
  refine ⟨fun before after h => (hplay before after h).1, ?_, ?_, ?_, ?_, ?_⟩
  · intro before after h account role
    have hfirst : (AccessTable.withAdmin admin).hasRole account role =
        decide (account = admin ∧ role = .admin) := by
      unfold AccessTable.withAdmin
      rw [AccessTable.hasRole_add]
      exact Bool.or_false _
    rw [(hplay before after h).1.access, AccessTable.hasRole_foldl, hfirst]
  · intro before after h account
    rw [(hplay before after h).1.allowlist, contains_foldl_allowlistAfter]
    rfl
  · intro before after h k record hrecord
    have hsequence := (hplay before after h).2 k record hrecord
    refine ⟨hsequence, ?_⟩
    intro hk
    rw [hsequence, Word.toNat_wrap]
    exact Nat.mod_eq_of_lt (Nat.lt_of_le_of_lt hk (Word.largest 64).lt)
  · intro before between after h
    rw [play_append]
    apply records_prefix_play
    intro t ht
    exact hkept t (by simp [h, ht])
  · intro w c e hmem herror
    rcases (Turn.call c).log host w rfl with hsame | ⟨c', reply, _, hcall, hok, _⟩
    · exact hsame
    · cases hcall
      rw [hok] at herror
      cases herror

namespace SmallVault

/-- Bob becomes a strategist and sets the limits.  Alice is listed, deposits everything, and
withdraws half of her shares after a year; she cannot withdraw as much again.  Then Bob is no
strategist any more. -/
def eventful : List (Turn InMemory Handle) :=
  [.call (.grantRole "admin" "bob" .strategist),
    .call (.setDepositLimits "bob" ⟨.saturate 128 5000, .saturate 128 2000⟩),
    .call (.setDepositorAllowed "admin" "alice" true),
    .call (.deposit "alice" [.saturate 128 1000] 0 0),
    .outside (surroundings 1 1000 0),
    .call (.withdraw "alice" (.saturate 128 500) [0] "alice"),
    .call (.withdraw "alice" (.saturate 128 501) [0] "alice"),
    .call (.revokeRole "admin" "bob" .strategist)]

/-- What these turns leave in the log. -/
def eventfulLog : List VaultEvent :=
  [.roleGranted "bob" .strategist,
    .depositLimitsUpdated (.saturate 128 5000) (.saturate 128 2000) false,
    .depositorAllowlisted "alice" true,
    .feesCharged 0 0 0, .deposited "alice" (.saturate 128 1000) [.saturate 128 1000],
    .feesCharged (.saturate 128 100) 0 0,
    .withdrawn "alice" "alice" (.saturate 128 500) [.saturate 128 454],
    .roleRevoked "bob" .strategist]

end SmallVault

open SmallVault in
theorem log_replayed_eventful :
    (play InMemory.host start eventful).vault.events.events = eventfulLog ∧
      (play InMemory.host start eventful).vault.state.ledger.totalSupply.toNat + 500 = 1100 ∧
      (play InMemory.host start eventful).vault.state.governance.access = .withAdmin "admin" ∧
      (play InMemory.host start eventful).vault.state.governance.allowlist.contains "alice" =
        true ∧
      (play InMemory.host start eventful).vault.metrics.deposits = 1 := by
  have hreplayed : Replayed InMemory.host "admin" start eventful :=
    log_replayed created (by decide)
  have hlog : (play InMemory.host start eventful).vault.events.events = eventfulLog := by
    decide +kernel
  have htold := hreplayed.told eventful [] rfl
  have hlisted := hreplayed.lists eventful [] rfl "alice"
  have hsupply := htold.supply
  have haccess := htold.access
  have hdeposits := htold.deposits
  rw [hlog] at hsupply haccess hdeposits hlisted
  exact ⟨hlog, hsupply, haccess, hlisted, hdeposits⟩

end ShareVault
