import ShareVault.Bytes

/-!
# Texts in the order of their bytes

Texts are compared character by character.  This is the order of their bytes: of two characters the
one with the smaller number has the smaller bytes, wherever the two stand, since the first byte tells
how many follow, and each that follows holds six more bits of the number.

* `textBytes` — the bytes of a text;
* `Ascends`, `Ascends.tail` — codes of one length, with one more byte for six more bits;
* `utf8EncodeChar_lt` — the bytes of two characters;
* `textBytes_lt_iff` — the bytes of two texts.
-/

namespace ShareVault

/-- The bytes of a text. -/
def textBytes (s : String) : Bytes := s.toByteArray.data.toList

theorem textBytes_eq (s : String) : textBytes s = s.toList.flatMap String.utf8EncodeChar := by
  unfold textBytes
  rw [← String.utf8Encode_toList]
  unfold List.utf8Encode
  rw [List.toList_data_toByteArray]

/-! ### Characters -/

/-- Below a bound a larger number has a larger code, whatever follows the two. -/
def Ascends (code : Nat → Bytes) (bound : Nat) : Prop :=
  ∀ m n, m < n → n < bound → ∀ x y, code m ++ x < code n ++ y

theorem ofNat_lt_ofNat {m n : Nat} (h : m < n) (hn : n < 256) : UInt8.ofNat m < UInt8.ofNat n := by
  have hm : m < 256 := Nat.lt_trans h hn
  rw [UInt8.lt_iff_toNat_lt, UInt8.toNat_ofNat_of_lt' hn, UInt8.toNat_ofNat_of_lt' hm]
  exact h

theorem cons_lt_cons_of_lt {m n : Nat} (h : m < n) (hn : n < 256) (x y : Bytes) :
    UInt8.ofNat m :: x < UInt8.ofNat n :: y :=
  List.cons_lt_cons_iff.mpr (.inl (ofNat_lt_ofNat h hn))

/-- A first byte that has room for the number. -/
theorem ascends_lead (room offset : Nat) (h : room + offset ≤ 256) :
    Ascends (fun n => [UInt8.ofNat (n % room + offset)]) room := by
  intro m n hlt hn x y
  have hm : m % room = m := Nat.mod_eq_of_lt (by omega)
  have hn' : n % room = n := Nat.mod_eq_of_lt hn
  show UInt8.ofNat (m % room + offset) :: x < UInt8.ofNat (n % room + offset) :: y
  rw [hm, hn']
  exact cons_lt_cons_of_lt (by omega) (by omega) x y

/-- One more byte for the lowest six bits.  If the numbers differ in the others, the bytes before it
decide; else these are the same. -/
theorem Ascends.tail {code : Nat → Bytes} {bound : Nat} (h : Ascends code bound) :
    Ascends (fun n => code (n / 64) ++ [UInt8.ofNat (n % 64 + 128)]) (64 * bound) := by
  intro m n hlt hn x y
  simp only [List.append_assoc]
  rcases (by omega : m / 64 < n / 64 ∨ m / 64 = n / 64) with hhigh | hhigh
  · exact h _ _ hhigh (by omega) _ _
  · rw [hhigh]
    exact List.append_left_lt (cons_lt_cons_of_lt (by omega) (by omega) x y)

theorem ascends_two : Ascends
    (fun n => [UInt8.ofNat (n / 64 % 32 + 192), UInt8.ofNat (n % 64 + 128)]) 0x800 :=
  (ascends_lead 32 192 (by decide)).tail

theorem ascends_three : Ascends
    (fun n => [UInt8.ofNat (n / 4096 % 16 + 224), UInt8.ofNat (n / 64 % 64 + 128),
      UInt8.ofNat (n % 64 + 128)]) 0x10000 := by
  have h := (ascends_lead 16 224 (by decide)).tail.tail
  simp only [Nat.div_div_eq_div_mul] at h
  exact h

theorem ascends_four : Ascends
    (fun n => [UInt8.ofNat (n / 262144 % 8 + 240), UInt8.ofNat (n / 4096 % 64 + 128),
      UInt8.ofNat (n / 64 % 64 + 128), UInt8.ofNat (n % 64 + 128)]) 0x200000 := by
  have h := (ascends_lead 8 240 (by decide)).tail.tail.tail
  simp only [Nat.div_div_eq_div_mul] at h
  exact h

/-- A character with a smaller number has smaller bytes.  Where the two have not as many, their
first bytes decide. -/
theorem utf8EncodeChar_lt {c d : Char} (h : c < d) (x y : Bytes) :
    String.utf8EncodeChar c ++ x < String.utf8EncodeChar d ++ y := by
  have hlt : c.val.toNat < d.val.toNat := h
  have hmax : d.val.toNat < 0x110000 := by
    have hvalid : d.val.toNat < 0xd800 ∨ 0xdfff < d.val.toNat ∧ d.val.toNat < 0x110000 := d.valid
    omega
  unfold String.utf8EncodeChar
  generalize c.val.toNat = m at hlt
  generalize d.val.toNat = n at hlt hmax
  dsimp only
  by_cases hn1 : n ≤ 0x7f
  · rw [if_pos hn1, if_pos (by omega : m ≤ 0x7f)]
    exact cons_lt_cons_of_lt hlt (by omega) x y
  rw [if_neg hn1]
  by_cases hn2 : n ≤ 0x7ff
  · rw [if_pos hn2]
    split
    next => exact cons_lt_cons_of_lt (by omega) (by omega) _ _
    next =>
      rw [if_pos (by omega : m ≤ 0x7ff)]
      exact ascends_two m n hlt (by omega) x y
  rw [if_neg hn2]
  by_cases hn3 : n ≤ 0xffff
  · rw [if_pos hn3]
    split
    next => exact cons_lt_cons_of_lt (by omega) (by omega) _ _
    split
    next => exact cons_lt_cons_of_lt (by omega) (by omega) _ _
    next =>
      rw [if_pos (by omega : m ≤ 0xffff)]
      exact ascends_three m n hlt (by omega) x y
  rw [if_neg hn3]
  split
  next => exact cons_lt_cons_of_lt (by omega) (by omega) _ _
  split
  next => exact cons_lt_cons_of_lt (by omega) (by omega) _ _
  split
  next => exact cons_lt_cons_of_lt (by omega) (by omega) _ _
  next => exact ascends_four m n hlt (by omega) x y

/-! ### Texts -/

theorem flatMap_utf8EncodeChar_lt {cs ds : List Char} (h : cs < ds) :
    cs.flatMap String.utf8EncodeChar < ds.flatMap String.utf8EncodeChar := by
  induction cs generalizing ds with
  | nil =>
    cases ds with
    | nil => exact (List.lt_irrefl _ h).elim
    | cons d ds =>
      rw [List.flatMap_cons]
      cases hbytes : String.utf8EncodeChar d with
      | nil => exact (String.utf8EncodeChar_ne_nil hbytes).elim
      | cons b bs => exact List.nil_lt_cons b _
  | cons c cs ih =>
    cases ds with
    | nil => exact (List.not_lt_nil _ h).elim
    | cons d ds =>
      rw [List.flatMap_cons, List.flatMap_cons]
      rcases List.cons_lt_cons_iff.mp h with hlt | ⟨rfl, hlt⟩
      · exact utf8EncodeChar_lt hlt _ _
      · exact List.append_left_lt (ih hlt)

/-- One text comes before another exactly if its bytes do. -/
theorem textBytes_lt_iff {a b : String} : textBytes a < textBytes b ↔ a < b := by
  have hmono {a b : String} (h : a < b) : textBytes a < textBytes b := by
    rw [textBytes_eq, textBytes_eq]
    exact flatMap_utf8EncodeChar_lt (show a.toList < b.toList from h)
  constructor
  · intro h
    rcases Std.lt_trichotomy a b with hlt | rfl | hgt
    · exact hlt
    · exact (List.lt_irrefl _ h).elim
    · exact (List.lt_asymm h (hmono hgt)).elim
  · exact hmono

end ShareVault
