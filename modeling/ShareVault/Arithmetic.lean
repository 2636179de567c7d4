import ShareVault.Word

/-!
# Checked arithmetic on amounts

Prices and shares are products divided by a third quantity.  The product of two amounts may need
twice the digits of an amount, so it is formed as a natural number, and only the floored quotient
has to fit.

* `mulDiv a b d` — `⌊a · b / d⌋`;
* `checkedAdd a b` — the sum;
* `mulDiv_eq_ok`, `mulDiv_eq_overflow`, `mulDiv_eq_divisionByZero` — exactly when each outcome
  arises;
* `exists_mulDiv` — a quotient up to an amount is there;
* `part_le`, `floor_add_bounds` — floors of parts, and of sums.
-/

namespace ShareVault

/-- Why a computation on amounts has no result. -/
inductive MathError where
  /-- The result has too many digits for an amount. -/
  | overflow
  /-- The denominator is zero. -/
  | divisionByZero
deriving DecidableEq, Repr

def MathError.message : MathError → String
  | .overflow => "arithmetic overflow"
  | .divisionByZero => "division by zero"

/-- An amount of this many units, or an overflow. -/
def checked (n : Nat) : Except MathError Amount :=
  match Word.ofNat? 128 n with
  | some a => .ok a
  | none => .error .overflow

theorem checked_eq_ok {n : Nat} {a : Amount} : checked n = .ok a ↔ a.toNat = n := by
  unfold checked
  rw [← Word.ofNat?_eq_some]
  split <;> simp_all

theorem checked_eq_overflow {n : Nat} : checked n = .error .overflow ↔ Word.size 128 ≤ n := by
  unfold checked
  rw [← Word.ofNat?_eq_none]
  split <;> simp_all

/-- A number that fits is an amount. -/
theorem checked_of_lt {n : Nat} (h : n < Word.size 128) : checked n = .ok ⟨n, h⟩ :=
  checked_eq_ok.mpr rfl

theorem checked_of_le {n : Nat} {bound : Amount} (h : n ≤ bound.toNat) :
    ∃ a, checked n = .ok a :=
  ⟨_, checked_of_lt (Nat.lt_of_le_of_lt h bound.lt)⟩

theorem checked_error {n : Nat} {e : MathError} (h : checked n = .error e) : e = .overflow := by
  unfold checked at h
  split at h <;> cases h
  rfl

def checkedAdd (a b : Amount) : Except MathError Amount :=
  checked (a.toNat + b.toNat)

/-- `⌊a · b / d⌋`, with the product carried in full. -/
def mulDiv (a b d : Amount) : Except MathError Amount :=
  if d = 0 then .error .divisionByZero
  else checked (a.toNat * b.toNat / d.toNat)

theorem mulDiv_eq_ok {a b d q : Amount} :
    mulDiv a b d = .ok q ↔ d ≠ 0 ∧ q.toNat = a.toNat * b.toNat / d.toNat := by
  unfold mulDiv
  split
  · simp_all
  · simp_all [checked_eq_ok]

theorem mulDiv_eq_divisionByZero {a b d : Amount} :
    mulDiv a b d = .error .divisionByZero ↔ d = 0 := by
  unfold mulDiv
  split
  · simp_all
  · rename_i hd
    constructor
    · intro h
      cases checked_error h
    · exact fun h => absurd h hd

theorem mulDiv_eq_overflow {a b d : Amount} :
    mulDiv a b d = .error .overflow ↔ d ≠ 0 ∧ Word.size 128 ≤ a.toNat * b.toNat / d.toNat := by
  unfold mulDiv
  split
  · simp_all
  · simp_all [checked_eq_overflow]

/-- A quotient that is no more than some amount is an amount. -/
theorem exists_mulDiv {a b d bound : Amount} (hd : d ≠ 0)
    (h : a.toNat * b.toNat / d.toNat ≤ bound.toNat) :
    ∃ q, mulDiv a b d = .ok q ∧ q.toNat ≤ bound.toNat :=
  ⟨⟨_, Nat.lt_of_le_of_lt h bound.lt⟩, mulDiv_eq_ok.mpr ⟨hd, rfl⟩, h⟩

/-! ### Floors -/

/-- A part of something, up to all of it, is no more than it. -/
theorem part_le {n d : Nat} (h : n ≤ d) (m : Nat) : m * n / d ≤ m := by
  refine Nat.div_le_of_le_mul ?_
  rw [Nat.mul_comm d m]
  exact Nat.mul_le_mul_left m h

/-- The floors of two quotients come to no more than the floor of both, and to less by one at
most. -/
theorem floor_add_bounds {d : Nat} (hd : 0 < d) (m n : Nat) :
    m / d + n / d ≤ (m + n) / d ∧ (m + n) / d ≤ m / d + n / d + 1 := by
  rw [Nat.add_div hd]
  split <;> omega

end ShareVault
