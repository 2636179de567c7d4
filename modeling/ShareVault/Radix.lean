import ShareVault.Word

/-!
# Digits in a base

A natural number written with a fixed number of digits, the lowest first.  Bytes of an integer are
its digits in base 256, hexadecimal text its digits in base 16.

* `Radix.digits b k n` — the `k` lowest digits of `n`;
* `Radix.value b ds` — the number with these digits;
* `value_digits`, `digits_value` — each undoes the other on what fits;
* `Radix.hexDigit`, `Radix.hexValue?` — one hexadecimal digit as a character, and back.
-/

namespace ShareVault.Radix

/-- The `k` lowest digits of `n` in base `b`, the lowest first. -/
def digits (b : Nat) : Nat → Nat → List Nat
  | 0, _ => []
  | k + 1, n => n % b :: digits b k (n / b)

/-- The number whose digits in base `b` these are, the lowest first. -/
def value (b : Nat) : List Nat → Nat
  | [] => 0
  | d :: ds => d + b * value b ds

@[simp] theorem length_digits (b k n : Nat) : (digits b k n).length = k := by
  induction k generalizing n with
  | zero => rfl
  | succ k ih => simp [digits, ih]

theorem digits_lt {b : Nat} (hb : 0 < b) (k n : Nat) : ∀ d ∈ digits b k n, d < b := by
  induction k generalizing n with
  | zero => simp [digits]
  | succ k ih =>
    intro d hd
    rcases List.mem_cons.1 hd with rfl | hd
    · exact Nat.mod_lt _ hb
    · exact ih _ d hd

/-- The lowest `k` digits of a number are those of its remainder modulo `b ^ k`. -/
theorem value_digits (b k n : Nat) : value b (digits b k n) = n % b ^ k := by
  induction k generalizing n with
  | zero => simp [digits, value, Nat.mod_one]
  | succ k ih =>
    rw [digits, value, ih, Nat.pow_succ, Nat.mul_comm (b ^ k) b, Nat.mod_mul]

/-- Digits below the base are the digits of their value. -/
theorem digits_value {b : Nat} {ds : List Nat} (h : ∀ d ∈ ds, d < b) :
    digits b ds.length (value b ds) = ds := by
  induction ds with
  | nil => rfl
  | cons d ds ih =>
    have hd := h d List.mem_cons_self
    have hb : 0 < b := by omega
    rw [List.length_cons, digits, value, Nat.add_mul_mod_self_left, Nat.mod_eq_of_lt hd,
      Nat.add_mul_div_left _ _ hb, Nat.div_eq_of_lt hd, Nat.zero_add,
      ih fun e he => h e (List.mem_cons_of_mem _ he)]

/-! ### Hexadecimal digits -/

/-- The lower-case hexadecimal digit of a number below sixteen. -/
def hexDigit (n : Nat) : Char :=
  if n < 10 then Char.ofNat ('0'.toNat + n) else Char.ofNat ('a'.toNat + (n - 10))

/-- The value of a hexadecimal digit of either case. -/
def hexValue? (c : Char) : Option Nat :=
  if '0' ≤ c ∧ c ≤ '9' then some (c.toNat - '0'.toNat)
  else if 'a' ≤ c ∧ c ≤ 'f' then some (c.toNat - 'a'.toNat + 10)
  else if 'A' ≤ c ∧ c ≤ 'F' then some (c.toNat - 'A'.toNat + 10)
  else none

theorem hexValue?_hexDigit : ∀ n < 16, hexValue? (hexDigit n) = some n := by
  decide

end ShareVault.Radix
