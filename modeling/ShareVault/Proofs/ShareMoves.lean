import ShareVault.Proofs.Conservation
import ShareVault.Proofs.Overflow

/-!
# Moves of shares

A ledger checks its supply and each balance for overflow, but takes from its supply unchecked.  On a
consistent ledger this comes to what the exact sums say.  No account holds more than the supply, and
no two accounts do together, so a new balance has room whenever the new supply has, a transfer always
has room, and a burn takes no more from the supply than there is.

* `ShareMove`, `ShareLedger.handle`, `ShareLedger.afterMoves` — mints, burns and transfers, and what
  becomes of a ledger;
* `balanceOf_add_le_supply` — two accounts of a consistent ledger;
* `mint_eq_error`, `burn_eq_error`, `transfer_eq_error` — exactly when each of them is refused;
* `ShareMove.Refused`, `ShareMove.Does` — why a move is refused, and what it does if it is not;
* `consistent_afterMoves` — moves in any order keep a ledger consistent;
* `share_moves_exact` — the result.
-/

namespace ShareVault

/-- A change of the balances of a ledger. -/
inductive ShareMove where
  | mint (receiver : Account) (amount : Amount)
  | burn (owner : Account) (amount : Amount)
  | transfer (owner receiver : Account) (amount : Amount)
deriving DecidableEq

namespace ShareMove

/-- The accounts that a move names. -/
def accounts : ShareMove → List Account
  | mint receiver _ => [receiver]
  | burn owner _ => [owner]
  | transfer owner receiver _ => [owner, receiver]

/-- What a move takes from an account. -/
def taken (a : Account) : ShareMove → Nat
  | mint _ _ => 0
  | burn owner amount | transfer owner _ amount => if a = owner then amount.toNat else 0

/-- What it gives to an account. -/
def given (a : Account) : ShareMove → Nat
  | mint receiver amount | transfer _ receiver amount => if a = receiver then amount.toNat else 0
  | burn _ _ => 0

/-- What it adds to the supply. -/
def created : ShareMove → Nat
  | mint _ amount => amount.toNat
  | burn _ _ | transfer _ _ _ => 0

/-- What it takes from the supply. -/
def destroyed : ShareMove → Nat
  | burn _ amount => amount.toNat
  | mint _ _ | transfer _ _ _ => 0

/-- Why a move is refused. -/
inductive Refused (l : ShareLedger) : ShareMove → LedgerError → Prop
  | mint {receiver amount} (exceeds : Word.size 128 ≤ l.totalSupply.toNat + amount.toNat) :
      Refused l (.mint receiver amount) .overflow
  | burn {owner amount} (short : l.balanceOf owner < amount) :
      Refused l (.burn owner amount)
        (.insufficientBalance owner (l.balanceOf owner) amount)
  | transfer {owner receiver amount} (short : l.balanceOf owner < amount) :
      Refused l (.transfer owner receiver amount)
        (.insufficientBalance owner (l.balanceOf owner) amount)

/-- What a move does to a ledger.  A transfer to oneself gives back what it takes. -/
structure Does (m : ShareMove) (l l' : ShareLedger) : Prop where
  supply : l'.totalSupply.toNat + m.destroyed = l.totalSupply.toNat + m.created
  balance : ∀ a, (l'.balanceOf a).toNat + m.taken a = (l.balanceOf a).toNat + m.given a
  others : ∀ a, a ∉ m.accounts → l'.balances.get? a = l.balances.get? a
  mark : l'.highWaterMark = l.highWaterMark
  time : l'.lastFeeCharge = l.lastFeeCharge

end ShareMove

namespace ShareLedger

variable {l l' : ShareLedger} {owner receiver : Account} {amount : Amount} {m : ShareMove}
  {e : LedgerError}

/-- The ledger that a move makes of a ledger, if it succeeds. -/
def change (l : ShareLedger) : ShareMove → Except LedgerError ShareLedger
  | .mint receiver amount => l.mint receiver amount
  | .burn owner amount => l.burn owner amount
  | .transfer owner receiver amount => l.transfer owner receiver amount

/-- What a ledger answers to a move, and what becomes of it. -/
def handle (l : ShareLedger) (m : ShareMove) : Except LedgerError Unit × ShareLedger :=
  Attempt.carry l (l.change m)

/-- What becomes of a ledger after some moves. -/
def afterMoves (l : ShareLedger) (moves : List ShareMove) : ShareLedger :=
  moves.foldl (fun l m => (l.handle m).2) l

/-! ### Room in a consistent ledger -/

/-- Two accounts of a consistent ledger hold no more than the supply together. -/
theorem balanceOf_add_le_supply (hl : l.isConsistent = true) (hne : owner ≠ receiver) :
    (l.balanceOf owner).toNat + (l.balanceOf receiver).toNat ≤ l.totalSupply.toNat := by
  -- one balance is taken out after the other, and what is left is a sum, too
  have hfirst := balanceSum_setBalance l owner 0
  have hsecond := balanceSum_setBalance (l.setBalance owner 0) receiver 0
  rw [balanceOf_setBalance, if_neg hne.symm] at hsecond
  rw [Word.toNat_zero] at hfirst hsecond
  have hsum := isConsistent_iff.mp hl
  omega

/-- So what one of them gives to the other has room there. -/
theorem exists_credited (hl : l.isConsistent = true) (hne : owner ≠ receiver)
    (hle : amount ≤ l.balanceOf owner) :
    ∃ credited, (l.balanceOf receiver).add? amount = some credited := by
  have hpair := balanceOf_add_le_supply hl hne
  have hsupply := l.totalSupply.lt
  rw [Word.le_def] at hle
  exact ⟨⟨(l.balanceOf receiver).toNat + amount.toNat, by omega⟩, Word.add?_eq_some.mpr rfl⟩

/-! ### Refusals -/

/-- A mint is refused only for want of room in the supply. -/
theorem mint_eq_error (hl : l.isConsistent = true) : l.mint receiver amount = .error e ↔
    Word.size 128 ≤ l.totalSupply.toNat + amount.toNat ∧ e = .overflow := by
  have hbalance := balanceOf_le_supply hl receiver
  constructor
  · intro h
    obtain rfl : e = .overflow := mint_failsOnly l receiver amount e h
    refine ⟨Nat.le_of_not_lt fun hsupply => ?_, rfl⟩
    -- both sums fit, since the supply is the larger one
    have hbalance : (l.balanceOf receiver).toNat + amount.toNat < Word.size 128 := by omega
    have hsupply' : l.totalSupply.add? amount = some ⟨_, hsupply⟩ := Word.add?_eq_some.mpr rfl
    have hbalance' : (l.balanceOf receiver).add? amount = some ⟨_, hbalance⟩ :=
      Word.add?_eq_some.mpr rfl
    unfold mint at h
    rw [hsupply', hbalance'] at h
    split at h <;> cases h
  · rintro ⟨hexceeds, rfl⟩
    have hsupply := l.totalSupply.lt
    have hpos : amount ≠ 0 := by
      rintro rfl
      rw [Word.toNat_zero] at hexceeds
      omega
    have hnone : l.totalSupply.add? amount = none := Word.add?_eq_none.mpr hexceeds
    unfold mint
    rw [if_neg hpos, hnone]

theorem burn_eq_error : l.burn owner amount = .error e ↔
    l.balanceOf owner < amount ∧ e = .insufficientBalance owner (l.balanceOf owner) amount := by
  rw [Word.lt_def]
  unfold burn
  by_cases hle : amount ≤ l.balanceOf owner
  · have hnot : ¬ (l.balanceOf owner).toNat < amount.toNat := Nat.not_lt.mpr hle
    simp [hle, hnot]
  · have hlt : (l.balanceOf owner).toNat < amount.toNat := Nat.lt_of_not_le hle
    simp [hle, hlt, eq_comm]

/-- A transfer on a consistent ledger always has room. -/
theorem transfer_eq_error (hl : l.isConsistent = true) :
    l.transfer owner receiver amount = .error e ↔
      l.balanceOf owner < amount ∧ e = .insufficientBalance owner (l.balanceOf owner) amount := by
  rw [Word.lt_def]
  unfold transfer
  by_cases hle : amount ≤ l.balanceOf owner
  · have hnot : ¬ (l.balanceOf owner).toNat < amount.toNat := Nat.not_lt.mpr hle
    by_cases hsame : owner = receiver ∨ amount = 0
    · simp [hle, hnot, hsame]
    · have hne : owner ≠ receiver := fun heq => hsame (.inl heq)
      obtain ⟨credited, hcredited⟩ := exists_credited hl hne hle
      simp [hle, hnot, hsame, hcredited]
  · have hlt : (l.balanceOf owner).toNat < amount.toNat := Nat.lt_of_not_le hle
    simp [hle, hlt, eq_comm]

/-- A move is refused for the reasons there are, and for no other. -/
theorem handle_refused (hl : l.isConsistent = true) :
    (l.handle m).1 = .error e ↔ m.Refused l e := by
  unfold handle
  rw [Attempt.carry_eq_error]
  cases m with
  | mint receiver amount =>
    rw [change, mint_eq_error hl]
    constructor
    · rintro ⟨hexceeds, rfl⟩
      exact .mint hexceeds
    · rintro ⟨⟩
      exact ⟨‹_›, rfl⟩
  | burn owner amount =>
    rw [change, burn_eq_error]
    constructor
    · rintro ⟨hshort, rfl⟩
      exact .burn hshort
    · rintro ⟨⟩
      exact ⟨‹_›, rfl⟩
  | transfer owner receiver amount =>
    rw [change, transfer_eq_error hl]
    constructor
    · rintro ⟨hshort, rfl⟩
      exact .transfer hshort
    · rintro ⟨⟩
      exact ⟨‹_›, rfl⟩

/-! ### Moves that succeed -/

/-- A move that succeeds takes and gives exactly its amount. -/
theorem change_does (hl : l.isConsistent = true) (h : l.change m = .ok l') : m.Does l l' := by
  cases m with
  | mint receiver amount =>
    have hmarks := marks_of_mint h
    refine ⟨supply_of_mint h, balanceOf_of_mint h, fun a hother => ?_,
      congrArg Prod.fst hmarks, congrArg Prod.snd hmarks⟩
    simp only [ShareMove.accounts, List.mem_singleton] at hother
    exact get?_of_mint h hother
  | burn owner amount =>
    have hmarks := marks_of_burn h
    refine ⟨supply_of_burn_of_consistent hl h, balanceOf_of_burn h, fun a hother => ?_,
      congrArg Prod.fst hmarks, congrArg Prod.snd hmarks⟩
    simp only [ShareMove.accounts, List.mem_singleton] at hother
    exact get?_of_burn h hother
  | transfer owner receiver amount =>
    have hmarks := marks_of_transfer h
    refine ⟨congrArg Word.toNat (supply_of_transfer h), balanceOf_of_transfer h,
      fun a hother => ?_, congrArg Prod.fst hmarks, congrArg Prod.snd hmarks⟩
    simp only [ShareMove.accounts, List.mem_cons, List.not_mem_nil, or_false, not_or] at hother
    exact get?_of_transfer h hother.1 hother.2

theorem consistent_change (hl : l.isConsistent = true) (h : l.change m = .ok l') :
    l'.isConsistent = true := by
  cases m with
  | mint receiver amount => exact consistent_of_mint hl h
  | burn owner amount => exact consistent_of_burn hl h
  | transfer owner receiver amount => exact consistent_of_transfer hl h

/-- A move keeps a ledger consistent, whether it succeeds or not. -/
theorem consistent_handle (hl : l.isConsistent = true) (m : ShareMove) :
    (l.handle m).2.isConsistent = true :=
  Attempt.carry_keeps (P := fun l => l.isConsistent = true) hl fun _ h => consistent_change hl h

/-- So do moves one after another, in any order.  By induction on the moves. -/
theorem consistent_afterMoves (hl : l.isConsistent = true) (moves : List ShareMove) :
    (l.afterMoves moves).isConsistent = true := by
  induction moves generalizing l with
  | nil => exact hl
  | cons m rest ih => exact ih (consistent_handle hl m)

end ShareLedger

/-! ### The result -/

open ShareLedger in
/-- On a consistent ledger a mint is refused exactly if the supply would overflow, and a burn or a
transfer exactly if the owner holds less than the amount; a refusal leaves the ledger as it is.  A
move that is not refused changes the balances of the accounts that it names and the supply by exactly
its amount, and nothing else; the ledger stays consistent. -/
theorem share_moves_exact {l : ShareLedger} (hl : l.isConsistent = true) (m : ShareMove) :
    (∀ e, (l.handle m).1 = .error e ↔ m.Refused l e) ∧
      ((∃ e, (l.handle m).1 = .error e) → (l.handle m).2 = l) ∧
      ((l.handle m).1 = .ok () → m.Does l (l.handle m).2) ∧
      (l.handle m).2.isConsistent = true := by
  refine ⟨fun e => handle_refused hl, ?_, ?_, consistent_handle hl m⟩
  · rintro ⟨e, hfails⟩
    exact Attempt.carry_failed hfails
  · intro hok
    exact change_does hl (Attempt.carry_eq_ok.mp hok)

/-- As many shares as there can be, all but one of them Alice's.  Carol is kept with nothing. -/
def fullLedger : ShareLedger where
  totalSupply := .largest 128
  balances := .ofList [("alice", .saturate 128 (Word.size 128 - 2)), ("bob", .saturate 128 1),
    ("carol", 0)]
  highWaterMark := priceScale
  lastFeeCharge := .saturate 64 86400

/-- Alice's shares have room beside Bob's, and are not missing from the supply on their way.  Carol
gets none, since there can be no more, and has none to burn. -/
theorem share_moves_exact_full :
    fullLedger.isConsistent = true ∧
      (let m := ShareMove.transfer "alice" "bob" (.saturate 128 (Word.size 128 - 2));
        (fullLedger.handle m).1 = .ok () ∧ m.Does fullLedger (fullLedger.handle m).2) ∧
      (let m := ShareMove.mint "carol" (.saturate 128 1);
        (fullLedger.handle m).1 = .error .overflow ∧ (fullLedger.handle m).2 = fullLedger) ∧
      (let m := ShareMove.burn "carol" (.saturate 128 1);
        (fullLedger.handle m).1 = .error (.insufficientBalance "carol" 0 (.saturate 128 1)) ∧
          (fullLedger.handle m).2 = fullLedger) := by
  have hfull : fullLedger.isConsistent = true := by decide +kernel
  refine ⟨hfull, ?_, ?_, ?_⟩
  · obtain ⟨_, _, hdoes, _⟩ := share_moves_exact hfull
      (.transfer "alice" "bob" (.saturate 128 (Word.size 128 - 2)))
    exact ⟨rfl, hdoes rfl⟩
  · obtain ⟨hrefused, hkept, _⟩ := share_moves_exact hfull (.mint "carol" (.saturate 128 1))
    have hfails := (hrefused .overflow).mpr (.mint (by decide))
    exact ⟨hfails, hkept ⟨_, hfails⟩⟩
  · obtain ⟨hrefused, hkept, _⟩ := share_moves_exact hfull (.burn "carol" (.saturate 128 1))
    have hfails := (hrefused _).mpr (.burn (by decide +kernel))
    exact ⟨hfails, hkept ⟨_, hfails⟩⟩

end ShareVault
