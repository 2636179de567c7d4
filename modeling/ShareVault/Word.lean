/-!
# Words

A `Word w` is a natural number below `Word.size w`: what a register of `w` binary digits can hold.
Amounts of tokens and shares have 128 digits, points in time and spans of seconds have 64.

No operation here loses digits silently.  Each says in its name what happens at the edge, which is
`Word.size`, the least number that does not fit:

* `Word.ofNat?`, `Word.add?` — nothing, when the number does not fit;
* `Word.saturate`, `Word.addSat` — the largest word stands in for what does not fit;
* `Word.wrap`, `Word.addWrap` — the number is taken modulo `Word.size w`;
* `Word.sub` — asks for a proof that nothing is taken from nothing;
* `Word.monus` — stops at zero.

Beside each stands the lemma that says what it does to `toNat`.
-/

namespace ShareVault

-- One reading of powers and of sums of numbers in the whole library, whatever else is imported.
attribute [scoped instance (2000)] instPowNat Zero.ofOfNat0

/-- How many words of `w` binary digits there are: the least number that does not fit. -/
def Word.size (w : Nat) : Nat := 2 ^ w

/-- A natural number of at most `w` binary digits. -/
structure Word (w : Nat) where
  toNat : Nat
  lt : toNat < Word.size w
deriving DecidableEq

/-- A quantity of a token or of shares, in its smallest unit; also a rate or a price. -/
abbrev Amount := Word 128

/-- Seconds, counted from a fixed origin or between two moments. -/
abbrev Timestamp := Word 64

namespace Word

variable {w : Nat}

theorem size_pos (w : Nat) : 0 < size w := Nat.two_pow_pos w

/-- There are as many words of `8 * k` binary digits as there are sequences of `k` bytes. -/
theorem size_eq_pow (k : Nat) : size (8 * k) = 256 ^ k := Nat.pow_mul 2 8 k

@[ext] theorem ext {a b : Word w} (h : a.toNat = b.toNat) : a = b := by
  cases a; cases b; cases h; rfl

theorem toNat_inj {a b : Word w} : a.toNat = b.toNat ↔ a = b :=
  ⟨ext, congrArg toNat⟩

/-! ### Order -/

instance : LE (Word w) := ⟨fun a b => a.toNat ≤ b.toNat⟩
instance : LT (Word w) := ⟨fun a b => a.toNat < b.toNat⟩

theorem le_def {a b : Word w} : a ≤ b ↔ a.toNat ≤ b.toNat := Iff.rfl
theorem lt_def {a b : Word w} : a < b ↔ a.toNat < b.toNat := Iff.rfl

instance (a b : Word w) : Decidable (a ≤ b) := inferInstanceAs (Decidable (a.toNat ≤ b.toNat))
instance (a b : Word w) : Decidable (a < b) := inferInstanceAs (Decidable (a.toNat < b.toNat))

instance : Min (Word w) := minOfLe
instance : Max (Word w) := maxOfLe

@[simp] theorem toNat_min (a b : Word w) : (min a b).toNat = min a.toNat b.toNat := by
  show (if a ≤ b then a else b).toNat = _
  split <;> simp_all only [le_def] <;> omega

@[simp] theorem toNat_max (a b : Word w) : (max a b).toNat = max a.toNat b.toNat := by
  show (if a ≤ b then b else a).toNat = _
  split <;> simp_all only [le_def] <;> omega

/-! ### Constants -/

instance : OfNat (Word w) 0 := ⟨⟨0, size_pos w⟩⟩
instance : Inhabited (Word w) := ⟨0⟩

@[simp] theorem toNat_zero : (0 : Word w).toNat = 0 := rfl

/-- The largest word. -/
def largest (w : Nat) : Word w := ⟨size w - 1, Nat.sub_lt (size_pos w) Nat.one_pos⟩

/-! ### From numbers -/

/-- The number as a word, if it fits. -/
def ofNat? (w n : Nat) : Option (Word w) :=
  if h : n < size w then some ⟨n, h⟩ else none

theorem ofNat?_eq_some {n : Nat} {a : Word w} : ofNat? w n = some a ↔ a.toNat = n := by
  unfold ofNat?
  constructor
  · intro h
    split at h <;> cases h
    rfl
  · rintro rfl
    simp [a.lt]

theorem ofNat?_eq_none {n : Nat} : ofNat? w n = none ↔ size w ≤ n := by
  simp [ofNat?]

@[simp] theorem ofNat?_toNat (a : Word w) : ofNat? w a.toNat = some a :=
  ofNat?_eq_some.2 rfl

/-- The number as a word, or the largest word when it does not fit. -/
def saturate (w n : Nat) : Word w :=
  if h : n < size w then ⟨n, h⟩ else largest w

@[simp] theorem toNat_saturate (n : Nat) : (saturate w n).toNat = min n (size w - 1) := by
  unfold saturate
  have := size_pos w
  split
  · simp only; omega
  · simp only [largest]; omega

/-- The number modulo `size w`. -/
def wrap (w n : Nat) : Word w := ⟨n % size w, Nat.mod_lt _ (size_pos w)⟩

@[simp] theorem toNat_wrap (n : Nat) : (wrap w n).toNat = n % size w := rfl

/-! ### Sums and differences -/

/-- The sum, if it fits. -/
def add? (a b : Word w) : Option (Word w) := ofNat? w (a.toNat + b.toNat)

theorem add?_eq_some {a b c : Word w} : a.add? b = some c ↔ c.toNat = a.toNat + b.toNat :=
  ofNat?_eq_some

theorem add?_eq_none {a b : Word w} : a.add? b = none ↔ size w ≤ a.toNat + b.toNat :=
  ofNat?_eq_none

/-- The sum, or the largest word when it does not fit. -/
def addSat (a b : Word w) : Word w := saturate w (a.toNat + b.toNat)

@[simp] theorem toNat_addSat (a b : Word w) :
    (a.addSat b).toNat = min (a.toNat + b.toNat) (size w - 1) :=
  toNat_saturate _

/-- The product with a number, or the largest word when it does not fit. -/
def mulSat (a : Word w) (n : Nat) : Word w := saturate w (a.toNat * n)

@[simp] theorem toNat_mulSat (a : Word w) (n : Nat) :
    (a.mulSat n).toNat = min (a.toNat * n) (size w - 1) :=
  toNat_saturate _

/-- The sum modulo `size w`. -/
def addWrap (a b : Word w) : Word w := wrap w (a.toNat + b.toNat)

@[simp] theorem toNat_addWrap (a b : Word w) :
    (a.addWrap b).toNat = (a.toNat + b.toNat) % size w := rfl

theorem addWrap_zero (a : Word w) : a.addWrap 0 = a := by
  apply Word.ext
  rw [toNat_addWrap]
  exact Nat.mod_eq_of_lt a.lt

theorem zero_addWrap (a : Word w) : (0 : Word w).addWrap a = a := by
  apply Word.ext
  rw [toNat_addWrap, toNat_zero, Nat.zero_add]
  exact Nat.mod_eq_of_lt a.lt

theorem addWrap_assoc (a b c : Word w) : (a.addWrap b).addWrap c = a.addWrap (b.addWrap c) := by
  apply Word.ext
  simp only [toNat_addWrap, Nat.mod_add_mod, Nat.add_mod_mod, Nat.add_assoc]

/-- The difference of a word and one that is no larger. -/
def sub (a b : Word w) (_ : b ≤ a) : Word w :=
  ⟨a.toNat - b.toNat, Nat.lt_of_le_of_lt (Nat.sub_le _ _) a.lt⟩

@[simp] theorem toNat_sub (a b : Word w) (h : b ≤ a) : (a.sub b h).toNat = a.toNat - b.toNat := rfl

/-- The difference, or zero when the second word is the larger one. -/
def monus (a b : Word w) : Word w :=
  ⟨a.toNat - b.toNat, Nat.lt_of_le_of_lt (Nat.sub_le _ _) a.lt⟩

@[simp] theorem toNat_monus (a b : Word w) : (a.monus b).toNat = a.toNat - b.toNat := rfl

/-- The difference modulo `size w`. -/
def subWrap (a b : Word w) : Word w := wrap w (a.toNat + size w - b.toNat)

theorem toNat_subWrap {a b : Word w} (h : b ≤ a) : (a.subWrap b).toNat = a.toNat - b.toNat := by
  have hlt := a.lt
  have hle := le_def.1 h
  show (a.toNat + size w - b.toNat) % size w = _
  rw [show a.toNat + size w - b.toNat = a.toNat - b.toNat + size w by omega, Nat.add_mod_right]
  exact Nat.mod_eq_of_lt (by omega)

/-! ### Text -/

/-- A word is written in decimal digits. -/
instance : ToString (Word w) := ⟨fun a => toString a.toNat⟩

end Word

end ShareVault
