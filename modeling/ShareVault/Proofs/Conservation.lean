import ShareVault.Ledger
import ShareVault.Proofs.Outcome

/-!
# Conservation of shares

The supply of a ledger is kept beside the balances, and is changed apart from them.  The two agree
all the same, and no account is kept with nothing.

* `balanceSum_setBalance` — what one new balance does to the sum;
* `mint_ok`, `burn_ok`, `transfer_ok` — what the changes come to;
* `balanceOf_le_supply` — no account of a consistent ledger holds more than the supply;
* `supply_of_mint`, `balanceOf_of_mint` and the like — what is left of a ledger afterwards;
* `consistent_of_mint` and the like — the changes keep a ledger consistent;
* `ShareLedger.Sound` — the balances add up to the supply, and none of them is zero;
* `Sound.mint`, `Sound.burn`, `Sound.transfer` — the changes keep a ledger sound.
-/

namespace ShareVault

/-! ### Sums over entries -/

/-- The exact sum of the values of some entries. -/
def entriesSum (entries : List (Account × Amount)) : Nat :=
  (entries.map (·.2)).foldr (fun balance sum => balance.toNat + sum) 0

/-- The value under a key, zero if there is none. -/
def entryAmount (k : Account) (entries : List (Account × Amount)) : Nat :=
  ((SortedMap.lookupEntry k entries).getD 0).toNat

theorem entriesSum_cons (e : Account × Amount) (entries : List (Account × Amount)) :
    entriesSum (e :: entries) = e.2.toNat + entriesSum entries := rfl

theorem entryAmount_cons (k : Account) (e : Account × Amount)
    (entries : List (Account × Amount)) :
    entryAmount k (e :: entries) = if k = e.1 then e.2.toNat else entryAmount k entries := by
  show ((if compare k e.1 = .eq then some e.2 else _ : Option Amount).getD 0).toNat = _
  by_cases h : k = e.1
  · rw [if_pos h, if_pos (SortedMap.compare_eq_iff.mpr h)]
    rfl
  · rw [if_neg h, if_neg fun hc => h (SortedMap.compare_eq_iff.mp hc)]
    rfl

/-- A key below all others has no value. -/
theorem entryAmount_of_lt {k : Account} {entries : List (Account × Amount)}
    (h : ∀ e ∈ entries, compare k e.1 = .lt) : entryAmount k entries = 0 := by
  unfold entryAmount
  rw [SortedMap.lookupEntry_eq_none_of_lt h]
  rfl

/-- An entry put in changes the sum by its value, less the value that it replaces. -/
theorem entriesSum_insertEntry (k : Account) (v : Amount) {entries : List (Account × Amount)}
    (hsorted : entries.Pairwise fun a b => compare a.1 b.1 = .lt) :
    entriesSum (SortedMap.insertEntry k v entries) + entryAmount k entries =
      entriesSum entries + v.toNat := by
  induction entries with
  | nil => simp [SortedMap.insertEntry, entriesSum, entryAmount, SortedMap.lookupEntry]
  | cons head rest ih =>
    obtain ⟨k', v'⟩ := head
    obtain ⟨hhead, hrest⟩ := List.pairwise_cons.mp hsorted
    unfold SortedMap.insertEntry
    split
    next hlt =>
      have hnone : entryAmount k ((k', v') :: rest) = 0 := by
        refine entryAmount_of_lt fun e he => ?_
        rcases List.mem_cons.mp he with rfl | he
        · exact hlt
        · exact SortedMap.compare_lt_trans hlt (hhead e he)
      rw [hnone, entriesSum_cons]
      show v.toNat + entriesSum ((k', v') :: rest) + 0 = _
      omega
    next heq =>
      rw [entryAmount_cons, if_pos (SortedMap.compare_eq_iff.mp heq), entriesSum_cons,
        entriesSum_cons]
      show v.toNat + entriesSum rest + v'.toNat = v'.toNat + entriesSum rest + v.toNat
      omega
    next hgt =>
      have hne : k ≠ k' := fun h =>
        SortedMap.ne_of_compare_lt (SortedMap.compare_gt_iff.mp hgt) h.symm
      have := ih hrest
      rw [entryAmount_cons, if_neg hne, entriesSum_cons, entriesSum_cons]
      omega

/-- Entries taken out change the sum by the value of their key. -/
theorem entriesSum_eraseEntry (k : Account) {entries : List (Account × Amount)}
    (hsorted : entries.Pairwise fun a b => compare a.1 b.1 = .lt) :
    entriesSum (SortedMap.eraseEntry k entries) + entryAmount k entries = entriesSum entries := by
  induction entries with
  | nil => rfl
  | cons head rest ih =>
    obtain ⟨hhead, hrest⟩ := List.pairwise_cons.mp hsorted
    have := ih hrest
    rw [entryAmount_cons, entriesSum_cons]
    by_cases h : k = head.1
    · -- the keys ascend, so the head is the only entry of its key
      have hnone : entryAmount k rest = 0 := entryAmount_of_lt (h ▸ hhead)
      have hkeeps : SortedMap.eraseEntry k (head :: rest) = SortedMap.eraseEntry k rest := by
        unfold SortedMap.eraseEntry
        rw [List.filter_cons_of_neg]
        simpa using SortedMap.compare_eq_iff.mpr h
      rw [if_pos h, hkeeps]
      omega
    · have hkeeps : SortedMap.eraseEntry k (head :: rest) =
          head :: SortedMap.eraseEntry k rest := by
        unfold SortedMap.eraseEntry
        rw [List.filter_cons_of_pos]
        simpa using fun hc => h (SortedMap.compare_eq_iff.mp hc)
      rw [if_neg h, hkeeps, entriesSum_cons]
      omega

namespace ShareLedger

variable {l l' : ShareLedger} {account owner receiver : Account} {amount : Amount}

/-! ### One balance -/

theorem balanceSum_eq (l : ShareLedger) : l.balanceSum = entriesSum l.balances.entries := rfl

theorem balanceOf_eq (l : ShareLedger) (account : Account) :
    (l.balanceOf account).toNat = entryAmount account l.balances.entries := rfl

/-- A new balance changes the sum of the balances by the difference to the old one. -/
theorem balanceSum_setBalance (l : ShareLedger) (account : Account) (balance : Amount) :
    (l.setBalance account balance).balanceSum + (l.balanceOf account).toNat =
      l.balanceSum + balance.toNat := by
  rw [balanceSum_eq, balanceSum_eq, balanceOf_eq]
  by_cases h : balance = 0
  · have hentries : (l.setBalance account balance).balances.entries =
        SortedMap.eraseEntry account l.balances.entries := by
      unfold setBalance
      rw [if_pos h]
      rfl
    rw [hentries, entriesSum_eraseEntry account l.balances.sorted, h]
    rfl
  · have hentries : (l.setBalance account balance).balances.entries =
        SortedMap.insertEntry account balance l.balances.entries := by
      unfold setBalance
      rw [if_neg h]
      rfl
    rw [hentries, entriesSum_insertEntry account balance l.balances.sorted]

theorem get?_setBalance (l : ShareLedger) (account : Account) (balance : Amount) (a : Account) :
    (l.setBalance account balance).balances.get? a =
      if a = account then (if balance = 0 then none else some balance)
      else l.balances.get? a := by
  unfold setBalance
  by_cases h : balance = 0
  · rw [if_pos h, if_pos h]
    exact l.balances.get?_erase account a
  · rw [if_neg h, if_neg h]
    exact l.balances.get?_insert account a balance

theorem balanceOf_setBalance (l : ShareLedger) (account : Account) (balance : Amount)
    (a : Account) :
    (l.setBalance account balance).balanceOf a =
      if a = account then balance else l.balanceOf a := by
  unfold balanceOf
  rw [get?_setBalance]
  by_cases ha : a = account
  · by_cases h : balance = 0
    · simp [ha, h]
    · simp [ha, h]
  · rw [if_neg ha, if_neg ha]

theorem balanceOf_withSupply (l : ShareLedger) (supply : Amount) (a : Account) :
    ({ l with totalSupply := supply } : ShareLedger).balanceOf a = l.balanceOf a := by
  unfold balanceOf
  rfl

theorem balanceSum_withSupply (l : ShareLedger) (supply : Amount) :
    ({ l with totalSupply := supply } : ShareLedger).balanceSum = l.balanceSum := by
  unfold balanceSum
  rfl

/-! ### What the changes come to -/

theorem mint_zero (l : ShareLedger) (receiver : Account) : l.mint receiver 0 = .ok l :=
  if_pos rfl

/-- A mint of nothing changes nothing; any other adds to the supply and to one balance. -/
theorem mint_ok (h : l.mint receiver amount = .ok l') :
    amount = 0 ∧ l' = l ∨
      amount ≠ 0 ∧ ∃ supply balance, supply.toNat = l.totalSupply.toNat + amount.toNat ∧
        balance.toNat = (l.balanceOf receiver).toNat + amount.toNat ∧
        l' = { l.setBalance receiver balance with totalSupply := supply } := by
  unfold mint at h
  split at h
  next hzero =>
    cases h
    exact .inl ⟨hzero, rfl⟩
  next hpos =>
    split at h
    next supply balance hsupply hbalance =>
      cases h
      rw [Word.add?_eq_some] at hsupply hbalance
      -- the new balance is not zero, so it is put in
      have hne : balance ≠ 0 := by
        rintro rfl
        refine hpos (Word.ext ?_)
        have hzero : (0 : Amount).toNat = 0 := rfl
        omega
      refine .inr ⟨hpos, supply, balance, hsupply, hbalance, ?_⟩
      unfold setBalance
      rw [if_neg hne]
    next => cases h

/-- A burn takes from the supply and from one balance, which has enough. -/
theorem burn_ok (h : l.burn owner amount = .ok l') :
    ∃ balance, balance.toNat + amount.toNat = (l.balanceOf owner).toNat ∧
      l' = { l.setBalance owner balance with totalSupply := l.totalSupply.subWrap amount } := by
  unfold burn at h
  simp only at h
  split at h
  next hle =>
    cases h
    refine ⟨(l.balanceOf owner).sub amount hle, ?_, rfl⟩
    have := Word.le_def.mp hle
    rw [Word.toNat_sub]
    omega
  next => cases h

/-- A transfer to oneself or of nothing changes nothing; any other takes from one balance, which
has enough, and adds to another. -/
theorem transfer_ok (h : l.transfer owner receiver amount = .ok l') :
    amount ≤ l.balanceOf owner ∧
      ((owner = receiver ∨ amount = 0) ∧ l' = l ∨
        owner ≠ receiver ∧ ∃ debited credited : Amount,
          debited.toNat + amount.toNat = (l.balanceOf owner).toNat ∧
          credited.toNat = (l.balanceOf receiver).toNat + amount.toNat ∧
          l' = (l.setBalance owner debited).setBalance receiver credited) := by
  unfold transfer at h
  simp only at h
  split at h
  next hle =>
    refine ⟨hle, ?_⟩
    split at h
    next hsame =>
      cases h
      exact .inl ⟨hsame, rfl⟩
    next hdiffer =>
      split at h
      next credited hcredited =>
        cases h
        refine .inr ⟨fun hsame => hdiffer (.inl hsame), (l.balanceOf owner).sub amount hle,
          credited, ?_, Word.add?_eq_some.mp hcredited, rfl⟩
        have := Word.le_def.mp hle
        rw [Word.toNat_sub]
        omega
      next => cases h
  next => cases h

/-! ### Consistent ledgers -/

/-- The check that a ledger makes of itself. -/
theorem isConsistent_iff : l.isConsistent = true ↔ l.balanceSum = l.totalSupply.toNat := by
  unfold isConsistent
  exact decide_eq_true_iff

/-- No account of a consistent ledger holds more than the supply. -/
theorem balanceOf_le_supply (hl : l.isConsistent = true) (account : Account) :
    (l.balanceOf account).toNat ≤ l.totalSupply.toNat := by
  have hsum := balanceSum_setBalance l account 0
  rw [Word.toNat_zero, Nat.add_zero, isConsistent_iff.mp hl] at hsum
  omega

/-! ### The marks, the supply and the balances afterwards -/

theorem lastFeeCharge_of_mint (h : l.mint receiver amount = .ok l') :
    l'.lastFeeCharge = l.lastFeeCharge := by
  obtain ⟨_, rfl⟩ | ⟨_, supply, balance, _, _, rfl⟩ := mint_ok h
  · rfl
  · rfl

/-- The high-water mark and the fee time. -/
def marks (l : ShareLedger) : Amount × Timestamp := (l.highWaterMark, l.lastFeeCharge)

/-- Balances and supply have no say in the marks. -/
theorem marks_setBalance (l : ShareLedger) (account : Account) (supply balance : Amount) :
    ({ l.setBalance account balance with totalSupply := supply } : ShareLedger).marks =
      l.marks := by
  unfold marks setBalance
  rfl

theorem marks_of_mint (h : l.mint receiver amount = .ok l') : l'.marks = l.marks := by
  obtain ⟨_, rfl⟩ | ⟨_, supply, balance, _, _, rfl⟩ := mint_ok h
  · rfl
  · exact marks_setBalance l receiver supply balance

theorem marks_of_burn (h : l.burn owner amount = .ok l') : l'.marks = l.marks := by
  obtain ⟨balance, _, rfl⟩ := burn_ok h
  exact marks_setBalance l owner _ balance

theorem marks_of_transfer (h : l.transfer owner receiver amount = .ok l') :
    l'.marks = l.marks := by
  obtain ⟨_, ⟨_, rfl⟩ | ⟨_, debited, credited, _, _, rfl⟩⟩ := transfer_ok h
  · rfl
  · unfold marks setBalance
    rfl

theorem supply_of_mint (h : l.mint receiver amount = .ok l') :
    l'.totalSupply.toNat = l.totalSupply.toNat + amount.toNat := by
  obtain ⟨rfl, rfl⟩ | ⟨_, supply, balance, hsupply, _, rfl⟩ := mint_ok h
  · rw [Word.toNat_zero, Nat.add_zero]
  · exact hsupply

theorem balanceOf_of_mint (h : l.mint receiver amount = .ok l') (a : Account) :
    (l'.balanceOf a).toNat = (l.balanceOf a).toNat + if a = receiver then amount.toNat else 0 := by
  obtain ⟨rfl, rfl⟩ | ⟨_, supply, balance, _, hbalance, rfl⟩ := mint_ok h
  · simp
  · rw [balanceOf_withSupply, balanceOf_setBalance]
    by_cases ha : a = receiver
    · rw [if_pos ha, if_pos ha, hbalance, ha]
    · rw [if_neg ha, if_neg ha]
      exact (Nat.add_zero _).symm

theorem supply_of_burn_of_consistent (hl : l.isConsistent = true)
    (h : l.burn owner amount = .ok l') :
    l'.totalSupply.toNat + amount.toNat = l.totalSupply.toNat := by
  obtain ⟨balance, hbalance, rfl⟩ := burn_ok h
  have hle := balanceOf_le_supply hl owner
  have hamount : amount ≤ l.totalSupply := Word.le_def.mpr (by omega)
  show (l.totalSupply.subWrap amount).toNat + _ = _
  rw [Word.toNat_subWrap hamount]
  omega

theorem balanceOf_of_burn (h : l.burn owner amount = .ok l') (a : Account) :
    (l'.balanceOf a).toNat + (if a = owner then amount.toNat else 0) =
      (l.balanceOf a).toNat := by
  obtain ⟨balance, hbalance, rfl⟩ := burn_ok h
  rw [balanceOf_withSupply, balanceOf_setBalance]
  by_cases ha : a = owner
  · rw [if_pos ha, if_pos ha, hbalance, ha]
  · rw [if_neg ha, if_neg ha]
    exact Nat.add_zero _

theorem supply_of_transfer (h : l.transfer owner receiver amount = .ok l') :
    l'.totalSupply = l.totalSupply := by
  obtain ⟨_, ⟨_, rfl⟩ | ⟨_, debited, credited, _, _, rfl⟩⟩ := transfer_ok h
  · rfl
  · rfl

/-- A transfer to oneself gives back what it takes. -/
theorem balanceOf_of_transfer (h : l.transfer owner receiver amount = .ok l') (a : Account) :
    (l'.balanceOf a).toNat + (if a = owner then amount.toNat else 0) =
      (l.balanceOf a).toNat + (if a = receiver then amount.toNat else 0) := by
  obtain ⟨_, ⟨rfl | rfl, rfl⟩ | ⟨hne, debited, credited, hdebited, hcredited, rfl⟩⟩ :=
    transfer_ok h
  · rfl
  · simp
  · rw [balanceOf_setBalance, balanceOf_setBalance]
    by_cases hto : a = receiver
    · rw [if_pos hto, if_pos hto, if_neg (hto ▸ hne.symm), hcredited, hto, Nat.add_zero]
    · rw [if_neg hto, if_neg hto]
      by_cases hown : a = owner
      · rw [if_pos hown, if_pos hown, hdebited, hown, Nat.add_zero]
      · rw [if_neg hown, if_neg hown]

/-- Only the receiver of a transfer holds more afterwards. -/
theorem balanceOf_of_transfer_le (h : l.transfer owner receiver amount = .ok l') {a : Account}
    (ha : a ≠ receiver ∨ a = owner) : (l'.balanceOf a).toNat ≤ (l.balanceOf a).toNat := by
  have hbalance := balanceOf_of_transfer h a
  rcases ha with ha | ha
  · rw [if_neg ha] at hbalance
    omega
  · rw [if_pos ha] at hbalance
    split at hbalance <;> omega

/-- Only the owner holds less after a transfer. -/
theorem balanceOf_of_transfer_ge (h : l.transfer owner receiver amount = .ok l') {a : Account}
    (ha : a ≠ owner) : (l.balanceOf a).toNat ≤ (l'.balanceOf a).toNat := by
  have hbalance := balanceOf_of_transfer h a
  rw [if_neg ha] at hbalance
  omega

/-! ### Other accounts -/

theorem get?_of_mint (h : l.mint receiver amount = .ok l') {a : Account} (ha : a ≠ receiver) :
    l'.balances.get? a = l.balances.get? a := by
  obtain ⟨_, rfl⟩ | ⟨_, supply, balance, _, _, rfl⟩ := mint_ok h
  · rfl
  · exact (get?_setBalance l receiver balance a).trans (if_neg ha)

theorem get?_of_burn (h : l.burn owner amount = .ok l') {a : Account} (ha : a ≠ owner) :
    l'.balances.get? a = l.balances.get? a := by
  obtain ⟨balance, _, rfl⟩ := burn_ok h
  exact (get?_setBalance l owner balance a).trans (if_neg ha)

theorem get?_of_transfer (h : l.transfer owner receiver amount = .ok l') {a : Account}
    (hown : a ≠ owner) (hto : a ≠ receiver) : l'.balances.get? a = l.balances.get? a := by
  obtain ⟨_, ⟨_, rfl⟩ | ⟨_, debited, credited, _, _, rfl⟩⟩ := transfer_ok h
  · rfl
  · rw [get?_setBalance, if_neg hto, get?_setBalance, if_neg hown]

/-! ### The sum of the balances afterwards -/

theorem balanceSum_of_mint (h : l.mint receiver amount = .ok l') :
    l'.balanceSum = l.balanceSum + amount.toNat := by
  obtain ⟨rfl, rfl⟩ | ⟨_, supply, balance, _, hbalance, rfl⟩ := mint_ok h
  · rfl
  · have hsum := balanceSum_setBalance l receiver balance
    rw [balanceSum_withSupply]
    omega

theorem balanceSum_of_burn (h : l.burn owner amount = .ok l') :
    l'.balanceSum + amount.toNat = l.balanceSum := by
  obtain ⟨balance, hbalance, rfl⟩ := burn_ok h
  have hsum := balanceSum_setBalance l owner balance
  rw [balanceSum_withSupply]
  omega

theorem balanceSum_of_transfer (h : l.transfer owner receiver amount = .ok l') :
    l'.balanceSum = l.balanceSum := by
  obtain ⟨_, ⟨_, rfl⟩ | ⟨hne, debited, credited, hdebited, hcredited, rfl⟩⟩ := transfer_ok h
  · rfl
  · have hdebit := balanceSum_setBalance l owner debited
    have hcredit := balanceSum_setBalance (l.setBalance owner debited) receiver credited
    rw [balanceOf_setBalance, if_neg hne.symm] at hcredit
    omega

/-! ### The changes keep a ledger consistent -/

theorem consistent_of_mint (hl : l.isConsistent = true) (h : l.mint receiver amount = .ok l') :
    l'.isConsistent = true := by
  rw [isConsistent_iff] at hl ⊢
  rw [balanceSum_of_mint h, supply_of_mint h, hl]

theorem consistent_of_burn (hl : l.isConsistent = true) (h : l.burn owner amount = .ok l') :
    l'.isConsistent = true := by
  have hsum := balanceSum_of_burn h
  have hsupply := supply_of_burn_of_consistent hl h
  rw [isConsistent_iff] at hl ⊢
  omega

theorem consistent_of_transfer (hl : l.isConsistent = true)
    (h : l.transfer owner receiver amount = .ok l') : l'.isConsistent = true := by
  rw [isConsistent_iff] at hl ⊢
  rw [balanceSum_of_transfer h, supply_of_transfer h, hl]

/-! ### Sound ledgers -/

/-- The balances add up to the supply, and every account that is kept has shares. -/
structure Sound (l : ShareLedger) : Prop where
  sum : l.balanceSum = l.totalSupply.toNat
  positive : ∀ account, l.balances.get? account ≠ some 0

theorem sound_new (createdAt : Timestamp) : (new createdAt).Sound where
  sum := rfl
  positive account := by
    show (∅ : SortedMap Account Amount).get? account ≠ some 0
    rw [SortedMap.get?_empty]
    exact nofun

/-- A new balance of zero takes the account out. -/
theorem positive_setBalance (hl : ∀ account, l.balances.get? account ≠ some 0)
    (account : Account) (balance : Amount) (a : Account) :
    (l.setBalance account balance).balances.get? a ≠ some 0 := by
  rw [get?_setBalance]
  by_cases ha : a = account
  · rw [if_pos ha]
    by_cases h : balance = 0
    · rw [if_pos h]
      exact nofun
    · rw [if_neg h]
      exact fun hzero => h (Option.some.inj hzero)
  · rw [if_neg ha]
    exact hl a

namespace Sound

/-- A sound ledger has passed its own check. -/
theorem isConsistent (hl : l.Sound) : l.isConsistent = true := isConsistent_iff.mpr hl.sum

theorem balanceOf_le (hl : l.Sound) (account : Account) :
    (l.balanceOf account).toNat ≤ l.totalSupply.toNat :=
  balanceOf_le_supply hl.isConsistent account

theorem mint (hl : l.Sound) (h : l.mint receiver amount = .ok l') : l'.Sound where
  sum := isConsistent_iff.mp (consistent_of_mint hl.isConsistent h)
  positive := by
    obtain ⟨_, rfl⟩ | ⟨_, supply, balance, _, _, rfl⟩ := mint_ok h
    · exact hl.positive
    · exact positive_setBalance hl.positive receiver balance

theorem burn (hl : l.Sound) (h : l.burn owner amount = .ok l') : l'.Sound where
  sum := isConsistent_iff.mp (consistent_of_burn hl.isConsistent h)
  positive := by
    obtain ⟨balance, _, rfl⟩ := burn_ok h
    exact positive_setBalance hl.positive owner balance

theorem transfer (hl : l.Sound) (h : l.transfer owner receiver amount = .ok l') : l'.Sound where
  sum := isConsistent_iff.mp (consistent_of_transfer hl.isConsistent h)
  positive := by
    obtain ⟨_, ⟨_, rfl⟩ | ⟨_, debited, credited, _, _, rfl⟩⟩ := transfer_ok h
    · exact hl.positive
    · exact positive_setBalance (positive_setBalance hl.positive owner debited) receiver credited

theorem raiseMark (hl : l.Sound) (price : Amount) : (l.raiseMark price).Sound :=
  ⟨hl.sum, hl.positive⟩

theorem recordCharge (hl : l.Sound) (time : Timestamp) : (l.recordCharge time).Sound :=
  ⟨hl.sum, hl.positive⟩

end Sound

theorem supply_of_burn (hl : l.Sound) (h : l.burn owner amount = .ok l') :
    l'.totalSupply.toNat + amount.toNat = l.totalSupply.toNat :=
  supply_of_burn_of_consistent hl.isConsistent h

end ShareLedger

end ShareVault
