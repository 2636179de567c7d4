import ShareVault.Proofs.Governance
import ShareVault.Proofs.Replay

/-!
# There is always an admin

Only admins change the role table, and they may take the role from themselves and from each other in
any order.  A table that has an admin nevertheless keeps one: the check before a revocation counts
the admins, so when it lets one go there is another.

* `RoleCall`, `AccessTable.handle`, `AccessTable.afterCalls` — grants and revocations, and what
  becomes of a table;
* `AccessTable.told` — the calls that succeed, as they would be told of;
* `adminCount_eq`, `exists_other_admin` — what the count says about the accounts;
* `AccessTable.Governed`, `Governed.handle` — the invariant, and what keeps it;
* `always_an_admin` — the result.
-/

namespace ShareVault

/-- A call that changes roles. -/
inductive RoleCall where
  | grant (caller account : Account) (role : Role)
  | revoke (caller account : Account) (role : Role)
deriving DecidableEq

/-- What is told of a call that succeeds. -/
def RoleCall.event : RoleCall → VaultEvent
  | .grant _ account role => .roleGranted account role
  | .revoke _ account role => .roleRevoked account role

namespace AccessTable

/-- The table that a call makes of a table, if it succeeds. -/
def change (t : AccessTable) : RoleCall → Except AccessError AccessTable
  | .grant caller account role => t.grant caller account role
  | .revoke caller account role => t.revoke caller account role

/-- What a table answers to a call, and what becomes of it. -/
def handle (t : AccessTable) (call : RoleCall) : Except AccessError Unit × AccessTable :=
  Attempt.carry t (t.change call)

/-- What becomes of a table after some calls. -/
def afterCalls (t : AccessTable) (calls : List RoleCall) : AccessTable :=
  calls.foldl (fun t call => (t.handle call).2) t

/-- What is told of the calls that succeed, in order. -/
def told (t : AccessTable) : List RoleCall → List VaultEvent
  | [] => []
  | call :: rest =>
    match (t.handle call).1 with
    | .ok () => call.event :: (t.handle call).2.told rest
    | .error _ => (t.handle call).2.told rest

variable {t t' : AccessTable} {call : RoleCall} {caller account a : Account} {role r : Role}

/-! ### Changes that succeed -/

theorem grant_eq_ok : t.grant caller account role = .ok t' ↔
    t.hasRole caller .admin = true ∧ t' = t.add account role := by
  unfold grant
  simp only [Attempt.bind_eq_ok, Attempt.pure_eq_ok, require_eq_ok, List.mem_singleton,
    exists_eq_left]
  exact ⟨fun ⟨_, hadmin, h⟩ => ⟨hadmin, h.symm⟩, fun ⟨hadmin, h⟩ => ⟨(), hadmin, h.symm⟩⟩

/-- A revocation that succeeds does not take the role of the only admin. -/
theorem revoke_eq_ok : t.revoke caller account role = .ok t' ↔
    t.hasRole caller .admin = true ∧
      ¬ (role = .admin ∧ t.hasRole account .admin = true ∧ t.adminCount = 1) ∧
      t' = t.remove account role := by
  unfold revoke
  simp only [Attempt.bind_eq_ok, require_eq_ok, List.mem_singleton, exists_eq_left]
  by_cases hlast : role = .admin ∧ t.hasRole account .admin = true ∧ t.adminCount = 1
  · rw [if_pos hlast]
    constructor
    · rintro ⟨_, _, h⟩
      cases h
    · exact fun h => absurd hlast h.2.1
  · rw [if_neg hlast]
    constructor
    · rintro ⟨_, hadmin, h⟩
      exact ⟨hadmin, hlast, (Attempt.pure_eq_ok.mp h).symm⟩
    · rintro ⟨hadmin, _, rfl⟩
      exact ⟨(), hadmin, rfl⟩

/-- A call that succeeds does to the table what is told of it. -/
theorem change_ok (h : t.change call = .ok t') : t' = t.after call.event := by
  cases call with
  | grant caller account role => exact (grant_eq_ok.mp h).2
  | revoke caller account role => exact (revoke_eq_ok.mp h).2.2

/-- A table is what is told of it. -/
theorem afterCalls_eq (t : AccessTable) (calls : List RoleCall) :
    t.afterCalls calls = (t.told calls).foldl after t := by
  induction calls generalizing t with
  | nil => rfl
  | cons call rest ih =>
    show (t.handle call).2.afterCalls rest = _
    rw [ih, told]
    cases hend : (t.handle call).1 with
    | ok u =>
      have hchange : t.change call = .ok (t.handle call).2 := Attempt.carry_eq_ok.mp hend
      rw [change_ok hchange]
      rfl
    | error e =>
      have hkept : (t.handle call).2 = t := Attempt.carry_failed hend
      rw [hkept]

/-! ### Counting admins -/

/-- An admin is an account that stands in the table with that role. -/
theorem adminCount_eq (t : AccessTable) :
    t.adminCount = t.roles.keys.countP fun a => t.hasRole a .admin := by
  unfold adminCount SortedMap.values SortedMap.keys
  rw [List.countP_map, List.countP_map]
  refine List.countP_congr fun entry hentry => ?_
  have hset : t.roles.get? entry.1 = some entry.2 := SortedMap.mem_toList.mp hentry
  show _ ↔ t.hasRole entry.1 .admin = true
  unfold hasRole rolesOf
  rw [hset]
  rfl

theorem mem_keys_of_hasRole (h : t.hasRole a r = true) : a ∈ t.roles.keys := by
  rw [SortedMap.mem_keys]
  unfold hasRole rolesOf at h
  cases hset : t.roles.get? a with
  | some set => rfl
  | none =>
    rw [hset] at h
    cases h

/-- An admin is the only one if there is no other account that is. -/
theorem adminCount_eq_one (ha : t.hasRole a .admin = true) :
    t.adminCount = 1 ↔ ∀ b, t.hasRole b .admin = true → b = a := by
  have hdistinct : t.roles.keys.Nodup :=
    t.roles.pairwise_keys.imp SortedMap.ne_of_compare_lt
  rw [adminCount_eq]
  constructor
  · intro hcount b hb
    rw [List.countP_eq_length_filter, List.length_eq_one_iff] at hcount
    obtain ⟨only, honly⟩ := hcount
    have heq (c : Account) (hc : t.hasRole c .admin = true) : c = only := by
      have hmem : c ∈ t.roles.keys.filter fun a => t.hasRole a .admin :=
        List.mem_filter.mpr ⟨mem_keys_of_hasRole hc, hc⟩
      rw [honly] at hmem
      exact List.mem_singleton.mp hmem
    rw [heq b hb, heq a ha]
  · intro honly
    have hsame : ∀ b ∈ t.roles.keys, t.hasRole b .admin = true ↔ (b == a) = true := by
      intro b _
      rw [beq_iff_eq]
      exact ⟨honly b, fun h => h ▸ ha⟩
    rw [List.countP_congr hsame]
    exact (List.Nodup.count hdistinct).trans (if_pos (mem_keys_of_hasRole ha))

/-- When there is not just one admin, every admin has another beside it. -/
theorem exists_other_admin (ha : t.hasRole a .admin = true) :
    t.adminCount ≠ 1 ↔ ∃ b, b ≠ a ∧ t.hasRole b .admin = true := by
  rw [Ne, adminCount_eq_one ha]
  simp only [Classical.not_forall]
  exact ⟨fun ⟨b, hb, hne⟩ => ⟨b, hne, hb⟩, fun ⟨b, hne, hb⟩ => ⟨b, hb, hne⟩⟩

/-! ### Calls that succeed -/

/-- An admin makes the call, and it does not take that role from the only one there is. -/
def Allows (t : AccessTable) : RoleCall → Prop
  | .grant caller _ _ => t.hasRole caller .admin = true
  | .revoke caller account role => t.hasRole caller .admin = true ∧
      (role = .admin → t.hasRole account .admin = true →
        ∃ other, other ≠ account ∧ t.hasRole other .admin = true)

theorem handle_ok_iff_allows : (t.handle call).1 = .ok () ↔ t.Allows call := by
  have hchange : (t.handle call).1 = .ok () ↔ ∃ t', t.change call = .ok t' := by
    unfold handle
    rw [Attempt.carry_eq_ok]
    refine ⟨fun h => ⟨_, h⟩, ?_⟩
    rintro ⟨t', h⟩
    rw [h]
    rfl
  rw [hchange]
  cases call with
  | grant caller account role =>
    exact ⟨fun ⟨_, h⟩ => (grant_eq_ok.mp h).1, fun h => ⟨_, grant_eq_ok.mpr ⟨h, rfl⟩⟩⟩
  | revoke caller account role =>
    constructor
    · rintro ⟨t', h⟩
      obtain ⟨hadmin, hothers, _⟩ := revoke_eq_ok.mp h
      refine ⟨hadmin, fun hrole hheld => (exists_other_admin hheld).mp fun hcount => ?_⟩
      exact hothers ⟨hrole, hheld, hcount⟩
    · rintro ⟨hadmin, hothers⟩
      refine ⟨_, revoke_eq_ok.mpr ⟨hadmin, ?_, rfl⟩⟩
      rintro ⟨hrole, hheld, hcount⟩
      exact (exists_other_admin hheld).mpr (hothers hrole hheld) hcount

/-! ### Accounts without a role -/

/-- Every account that stands in the table has a role. -/
def Pruned (t : AccessTable) : Prop :=
  ∀ a set, t.roles.get? a = some set → set.isEmpty = false

theorem Pruned.add (h : t.Pruned) (account : Account) (role : Role) :
    (t.add account role).Pruned := by
  intro a set hset
  unfold AccessTable.add at hset
  rw [SortedMap.get?_insert] at hset
  split at hset
  next =>
    cases hset
    have hrole : ((t.rolesOf account).insert role).contains role = true := by
      simp [SortedSet.contains_insert]
    cases hempty : ((t.rolesOf account).insert role).isEmpty with
    | false => rfl
    | true =>
      rw [SortedSet.contains_of_isEmpty hempty] at hrole
      cases hrole
  next => exact h a set hset

/-- An account goes with its last role. -/
theorem Pruned.remove (h : t.Pruned) (account : Account) (role : Role) :
    (t.remove account role).Pruned := by
  intro a set hset
  unfold AccessTable.remove at hset
  split at hset
  next => exact h a set hset
  next held _ =>
    dsimp only at hset
    by_cases hleft : (held.erase role).isEmpty = true
    · rw [if_pos hleft, SortedMap.get?_erase] at hset
      split at hset
      next => cases hset
      next => exact h a set hset
    · rw [if_neg hleft, SortedMap.get?_insert] at hset
      split at hset
      next =>
        cases hset
        exact Bool.eq_false_iff.mpr hleft
      next => exact h a set hset

/-! ### The invariant -/

/-- Some account is an admin, and no account stands in the table without a role. -/
structure Governed (t : AccessTable) : Prop where
  admin : ∃ a, t.hasRole a .admin = true
  pruned : t.Pruned

/-- A grant takes no role from anybody. -/
theorem Governed.add (h : t.Governed) (account : Account) (role : Role) :
    (t.add account role).Governed := by
  refine ⟨?_, h.pruned.add account role⟩
  obtain ⟨a, ha⟩ := h.admin
  refine ⟨a, ?_⟩
  rw [hasRole_add, ha, Bool.or_true]

/-- An admin stays, if there is another beside the account that loses that role. -/
theorem Governed.remove (h : t.Governed)
    (hothers : role = .admin → t.hasRole account .admin = true →
      ∃ other, other ≠ account ∧ t.hasRole other .admin = true) :
    (t.remove account role).Governed := by
  refine ⟨?_, h.pruned.remove account role⟩
  have hstays : ∃ a, t.hasRole a .admin = true ∧ ¬ (a = account ∧ Role.admin = role) := by
    obtain ⟨a, ha⟩ := h.admin
    by_cases hgoes : a = account ∧ Role.admin = role
    · obtain ⟨rfl, rfl⟩ := hgoes
      obtain ⟨other, hne, hother⟩ := hothers rfl ha
      exact ⟨other, hother, fun hsame => hne hsame.1⟩
    · exact ⟨a, ha, hgoes⟩
  obtain ⟨a, ha, hkept⟩ := hstays
  refine ⟨a, ?_⟩
  rw [hasRole_remove, ha, decide_eq_false hkept]
  rfl

/-- Every call keeps a table governed, whether it succeeds or not. -/
theorem Governed.handle (h : t.Governed) (call : RoleCall) : (t.handle call).2.Governed := by
  refine Attempt.carry_keeps h fun t' hchange => ?_
  have hok : (t.handle call).1 = .ok () := by
    unfold AccessTable.handle
    rw [hchange]
    rfl
  have hallowed := handle_ok_iff_allows.mp hok
  rw [change_ok hchange]
  cases call with
  | grant caller account role => exact h.add account role
  | revoke caller account role => exact h.remove hallowed.2

theorem Governed.afterCalls (h : t.Governed) (calls : List RoleCall) :
    (t.afterCalls calls).Governed := by
  induction calls generalizing t with
  | nil => exact h
  | cons call rest ih => exact ih (h.handle call)

theorem hasRole_withAdmin (admin a : Account) (r : Role) :
    (withAdmin admin).hasRole a r = decide (a = admin ∧ r = .admin) := by
  unfold withAdmin
  rw [hasRole_add]
  exact Bool.or_false _

theorem governed_withAdmin (admin : Account) : (withAdmin admin).Governed where
  admin := ⟨admin, by simp [hasRole_withAdmin]⟩
  pruned := by
    have hempty : empty.Pruned := by
      rintro a set ⟨⟩
    exact hempty.add admin .admin

end AccessTable

/-! ### The result -/

open AccessTable in
/-- After any calls on a table that began with one admin there is an admin, no account stands in the
table without a role, and an account holds a role exactly if the last call about the two that
succeeded granted it, or if there is none, if it is the first admin in that role.  A call succeeds
exactly if the table allows it, and a call that fails leaves the table as it is. -/
theorem always_an_admin (admin : Account) (calls : List RoleCall) :
    let t := (withAdmin admin).afterCalls calls
    (∃ a, t.hasRole a .admin = true) ∧
      (∀ a set, t.roles.get? a = some set → set.isEmpty = false) ∧
      (∀ a r, t.hasRole a r = lastOr (decide (a = admin ∧ r = .admin))
        (((withAdmin admin).told calls).filterMap (·.grants? a r))) ∧
      ∀ call, ((t.handle call).1 = .ok () ↔ t.Allows call) ∧
        ((t.handle call).1 = .ok () ∨ (t.handle call).2 = t) := by
  intro t
  have hgoverned : t.Governed := (governed_withAdmin admin).afterCalls calls
  refine ⟨hgoverned.admin, hgoverned.pruned, fun a r => ?_, fun call => ?_⟩
  · rw [← hasRole_withAdmin, ← hasRole_foldl, ← afterCalls_eq]
  · refine ⟨handle_ok_iff_allows, ?_⟩
    cases hend : (t.handle call).1 with
    | ok u => exact .inl rfl
    | error e => exact .inr (Attempt.carry_failed hend)

/-- The second admin takes the role from the first and from itself, but the last one in vain. -/
example : (AccessTable.withAdmin "ann").told
    [.grant "ann" "bob" .admin, .revoke "bob" "ann" .admin, .grant "ann" "ann" .admin,
      .revoke "bob" "bob" .admin] =
    [.roleGranted "bob" .admin, .roleRevoked "ann" .admin] := by
  decide +kernel

end ShareVault
