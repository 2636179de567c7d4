import Mathlib.Data.List.Chain
import ShareVault.Proofs.JsonGrammar

/-!
# Reading tokens

Every text of a token is read as the token, and what follows it is left, with one proviso: what
follows a number must not go on with the number.  So all tokens of a text are found one by one if
those next to each other are apart.

* `stringUnits_inside`, `ofUnits_of_literal` — every text of a string literal is read as the literal;
* `EndsNumber`, `number?_parts` — a number is read to its end and no further;
* `token?_of_writes` — one token;
* `Token.Apart`, `lex_of_laid` — all of them.
-/

namespace ShareVault.Json

/-! ### String literals -/

section Literals

variable {c e : Char} {rest : List Char}

theorem stringUnits_shortEscape {u : Nat} (h : (shortEscape? e).map Char.toNat = some u) :
    stringUnits ('\\' :: e :: rest) = (stringUnits rest).map fun p => (u :: p.1, p.2) := by
  obtain ⟨c, hc, rfl⟩ := Option.map_eq_some_iff.mp h
  have hne : e ≠ 'u' := by
    rintro rfl
    cases hc
  simp [stringUnits, hc, hne]

theorem stringUnits_hexEscape {x y z w : Char} {u : Nat} (h : hexUnit? x y z w = some u) :
    stringUnits ('\\' :: 'u' :: x :: y :: z :: w :: rest) =
      (stringUnits rest).map fun p => (u :: p.1, p.2) := by
  simp [stringUnits, h]

theorem stringUnits_printable (hquote : c ≠ '"') (hbackslash : c ≠ '\\') (h : ¬ c.toNat < 0x20) :
    stringUnits (c :: rest) = (stringUnits rest).map fun p => (c.toNat :: p.1, p.2) := by
  rw [stringUnits]
  · rw [if_neg h]
  · exact hquote
  · intro x y z w tail hhead
    exact (hbackslash hhead).elim
  · intro x tail hhead
    exact (hbackslash hhead).elim

end Literals

theorem shortEscape?_of_mem {e c : Char} (h : (e, c) ∈ shortEscapes) : shortEscape? e = some c := by
  have hall : ∀ p ∈ shortEscapes, shortEscape? p.1 = some p.2 := by decide
  exact hall (e, c) h

theorem IsHexDigit.value {d : Nat} {c : Char} (h : IsHexDigit d c) : Radix.hexValue? c = some d := by
  have hupper : ∀ n < 16, Radix.hexValue? (Radix.hexDigit n).toUpper = some n := by decide
  obtain ⟨hd, rfl | rfl⟩ := h
  · exact Radix.hexValue?_hexDigit d hd
  · exact hupper d hd

/-- The inside of a string literal is read up to the closing quote. -/
theorem stringUnits_inside {cs : List Char} {us : List Nat} (h : Inside cs us) (rest : List Char) :
    stringUnits (cs ++ '"' :: rest) = some (us, rest) := by
  induction h with
  | nil => simp [stringUnits]
  | plain hquote hbackslash hcontrol _ ih =>
    rw [List.cons_append, stringUnits_printable hquote hbackslash hcontrol, ih]
    rfl
  | short escape _ ih =>
    have hunit := congrArg (Option.map Char.toNat) (shortEscape?_of_mem escape)
    rw [List.cons_append, List.cons_append, stringUnits_shortEscape hunit, ih]
    rfl
  | @hex x y z w a b c d _ _ hx hy hz hw _ ih =>
    have hunit : hexUnit? x y z w = some (((a * 16 + b) * 16 + c) * 16 + d) := by
      rw [hexUnit?, hx.value, hy.value, hz.value, hw.value]
      rfl
    simp only [List.cons_append]
    rw [stringUnits_hexEscape hunit, ih]
    rfl

/-- Four hexadecimal digits go up to the end of the first plane. -/
theorem Inside.units_lt {cs : List Char} {us : List Nat} (h : Inside cs us) :
    ∀ u ∈ us, u < 0x110000 := by
  have hcode : ∀ c : Char, c.toNat < 0x110000 := fun c => by
    have hvalid : c.toNat < 0xd800 ∨ 0xdfff < c.toNat ∧ c.toNat < 0x110000 := c.valid
    omega
  induction h with
  | nil =>
    rintro u ⟨⟩
  | plain _ _ _ _ ih => exact List.forall_mem_cons.mpr ⟨hcode _, ih⟩
  | short _ _ ih => exact List.forall_mem_cons.mpr ⟨hcode _, ih⟩
  | hex hx hy hz hw _ ih =>
    refine List.forall_mem_cons.mpr ⟨?_, ih⟩
    have ha := hx.1
    have hb := hy.1
    have hc := hz.1
    have hd := hw.1
    omega

theorem ofUnits_single {u : Nat} (us : List Nat) (hhigh : isHighSurrogate u = false)
    (hlow : isLowSurrogate u = false) : ofUnits (u :: us) = (ofUnits us).map (Char.ofNat u :: ·) := by
  rw [ofUnits.eq_def]
  simp [hhigh, hlow]

theorem ofUnits_pair {u v : Nat} (us : List Nat) (hhigh : isHighSurrogate u = true)
    (hlow : isLowSurrogate v = true) :
    ofUnits (u :: v :: us) =
      (ofUnits us).map (Char.ofNat (0x10000 + (u - 0xd800) * 0x400 + (v - 0xdc00)) :: ·) := by
  rw [ofUnits.eq_def]
  simp [hhigh, hlow]

theorem ofUnits_of_hasUnits {cs : List Char} {us : List Nat} (h : HasUnits cs us) :
    ofUnits us = some cs := by
  induction h with
  | nil => rfl
  | @single c _ us _ ih =>
    obtain ⟨hhigh, hlow⟩ := not_isSurrogate c
    rw [ofUnits_single us hhigh hlow, ih, Char.ofNat_toNat]
    rfl
  | @pair c _ us beyond _ ih =>
    have hvalid : c.toNat < 0xd800 ∨ 0xdfff < c.toNat ∧ c.toNat < 0x110000 := c.valid
    have hcode : 0x10000 + (0xd800 + (c.toNat - 0x10000) / 0x400 - 0xd800) * 0x400 +
        (0xdc00 + (c.toNat - 0x10000) % 0x400 - 0xdc00) = c.toNat := by
      omega
    rw [ofUnits_pair us, ih, hcode, Char.ofNat_toNat]
    · rfl
    · simp only [isHighSurrogate, Bool.and_eq_true, decide_eq_true_eq]
      omega
    · simp only [isLowSurrogate, Bool.and_eq_true, decide_eq_true_eq]
      omega

theorem toNat_ofNat_of_valid {n : Nat} (h : n.isValidChar) : (Char.ofNat n).toNat = n := by
  rw [Char.ofNat, dif_pos h]
  rfl

/-- What is joined from code units has these code units. -/
theorem hasUnits_of_ofUnits {us : List Nat} (hus : ∀ u ∈ us, u < 0x110000) {cs : List Char}
    (h : ofUnits us = some cs) : HasUnits cs us := by
  fun_induction ofUnits us generalizing cs with
  | case1 =>
    cases h
    exact .nil
  | case2 u hhigh v rest hlow ih =>
    obtain ⟨tail, htail, rfl⟩ := Option.map_eq_some_iff.mp h
    have htail := ih (fun u hu => hus u (by simp [hu])) htail
    simp only [isHighSurrogate, isLowSurrogate, Bool.and_eq_true, decide_eq_true_eq] at hhigh hlow
    have hcode : (Char.ofNat (0x10000 + (u - 0xd800) * 0x400 + (v - 0xdc00))).toNat =
        0x10000 + (u - 0xd800) * 0x400 + (v - 0xdc00) :=
      toNat_ofNat_of_valid (.inr ⟨by omega, by omega⟩)
    have hpair := HasUnits.pair (c := Char.ofNat (0x10000 + (u - 0xd800) * 0x400 + (v - 0xdc00)))
      (by omega) htail
    have hu : 0xd800 + ((0x10000 + (u - 0xd800) * 0x400 + (v - 0xdc00)) - 0x10000) / 0x400 = u := by
      omega
    have hv : 0xdc00 + ((0x10000 + (u - 0xd800) * 0x400 + (v - 0xdc00)) - 0x10000) % 0x400 = v := by
      omega
    rw [hcode, hu, hv] at hpair
    exact hpair
  | case3 => cases h
  | case4 => cases h
  | case5 => cases h
  | case6 u rest hhigh hlow ih =>
    obtain ⟨tail, htail, rfl⟩ := Option.map_eq_some_iff.mp h
    have htail := ih (fun u hu => hus u (List.mem_cons_of_mem _ hu)) htail
    have hbound := hus u List.mem_cons_self
    simp only [isHighSurrogate, isLowSurrogate, Bool.and_eq_true, decide_eq_true_eq] at hhigh hlow
    have hcode : (Char.ofNat u).toNat = u := toNat_ofNat_of_valid (by
      show u < 0xd800 ∨ 0xdfff < u ∧ u < 0x110000
      omega)
    have hsingle := HasUnits.single (c := Char.ofNat u) htail
    rw [hcode] at hsingle
    exact hsingle

/-- The code units of a literal are joined to its text, if it has one. -/
theorem ofUnits_of_literal {s : Literal} {us : List Nat} (h : s.HasUnits us)
    (hus : ∀ u ∈ us, u < 0x110000) : (ofUnits us).map String.ofList = s := by
  cases s with
  | some s =>
    rw [ofUnits_of_hasUnits h, Option.map_some, String.ofList_toList]
  | none =>
    cases hread : ofUnits us with
    | none => rfl
    | some cs => exact (h cs (hasUnits_of_ofUnits hus hread)).elim

/-! ### Numbers -/

theorem digitChar_ne_zero : ∀ n < 10, 0 < n → n.digitChar ≠ '0' := by
  decide

/-- A number is written as digits, and as one at least. -/
theorem toDigits_cons (n : Nat) : ∃ d ds, Nat.toDigits 10 n = d :: ds ∧ d.isDigit = true := by
  obtain ⟨d, ds, hdigits⟩ := List.exists_cons_of_ne_nil (Nat.toDigits_ne_nil (b := 10) (n := n))
  have hd : d ∈ Nat.toDigits 10 n := by simp [hdigits]
  exact ⟨d, ds, hdigits, Nat.isDigit_of_mem_toDigits (by omega) (by omega) hd⟩

/-- A positive number is written without a leading zero. -/
theorem toDigits_head {n : Nat} (h : 0 < n) :
    ∃ d ds, Nat.toDigits 10 n = d :: ds ∧ d ≠ '0' := by
  induction n using Nat.strongRecOn with
  | _ n ih =>
    rw [Nat.toDigits_eq_if (by omega)]
    split
    next hsmall => exact ⟨_, [], rfl, digitChar_ne_zero n hsmall h⟩
    next hlarge =>
      obtain ⟨d, ds, hdigits, hne⟩ := ih (n / 10) (by omega) (by omega)
      rw [hdigits]
      exact ⟨d, _, rfl, hne⟩

/-- A text that does not go on with a number before it. -/
def EndsNumber : List Char → Prop
  | [] => True
  | c :: _ => c.isDigit = false ∧ c ≠ '.' ∧ c ≠ 'e' ∧ c ≠ 'E'

/-- A text that does not start with a digit. -/
def NoDigit (cs : List Char) : Prop := ∀ c ∈ cs.head?, c.isDigit = false

theorem EndsNumber.noDigit {cs : List Char} (h : EndsNumber cs) : NoDigit cs := by
  cases cs with
  | nil =>
    rintro c ⟨⟩
  | cons c tail =>
    rintro c ⟨⟩
    exact h.1

theorem digitRun?_append {ds rest : List Char} (hdigits : ∀ c ∈ ds, c.isDigit = true) (hne : ds ≠ [])
    (hrest : NoDigit rest) : digitRun? (ds ++ rest) = some ds := by
  have hstop : rest.takeWhile Char.isDigit = [] := by
    cases rest with
    | nil => rfl
    | cons c tail => simp [hrest c rfl]
  unfold digitRun?
  rw [List.takeWhile_append_of_pos hdigits, hstop, List.append_nil]
  cases ds with
  | nil => exact (hne rfl).elim
  | cons d tail => rfl

/-- The digits of a number are a whole part, as they have no leading zero. -/
theorem wholePart?_toDigits (n : Nat) {rest : List Char} (hrest : NoDigit rest) :
    wholePart? (Nat.toDigits 10 n ++ rest) = some (Nat.toDigits 10 n) := by
  have hdigits : ∀ c ∈ Nat.toDigits 10 n, c.isDigit = true := fun c hc =>
    Nat.isDigit_of_mem_toDigits (by omega) (by omega) hc
  have hrun := digitRun?_append hdigits Nat.toDigits_ne_nil hrest
  unfold wholePart?
  rw [hrun]
  split
  next c tail hzero =>
    cases n with
    | zero => cases hzero
    | succ n =>
      obtain ⟨d, ds, hhead, hne⟩ := toDigits_head (Nat.succ_pos n)
      rw [hhead] at hzero
      cases hzero
      exact (hne rfl).elim
  next => rfl

/-- No point, no fraction. -/
theorem fraction?_of_ne {cs : List Char} (h : ∀ c ∈ cs.head?, c ≠ '.') : fraction? cs = some [] := by
  cases cs with
  | nil => rfl
  | cons c tail =>
    unfold fraction?
    split
    next hpoint =>
      cases hpoint
      exact (h _ rfl rfl).elim
    next => rfl

theorem exponent?_of_endsNumber {cs : List Char} (h : EndsNumber cs) : exponent? cs = some [] := by
  match cs, h with
  | [], _ => rfl
  | [e], h => simp [exponent?, h.2.2]
  | e :: sign :: tail, h => simp [exponent?, h.2.2]

theorem EndsNumber.noPoint {cs : List Char} (h : EndsNumber cs) : ∀ c ∈ cs.head?, c ≠ '.' := by
  cases cs with
  | nil =>
    rintro c ⟨⟩
  | cons c tail =>
    rintro c ⟨⟩
    exact h.2.1

section Numbers

variable {fraction exponent rest : List Char}

theorem Exponent.noDigit (h : Exponent exponent) (hrest : EndsNumber rest) :
    NoDigit (exponent ++ rest) := by
  cases h with
  | none => exact hrest.noDigit
  | unsigned mark _ =>
    rintro c ⟨⟩
    rcases mark with rfl | rfl <;> rfl
  | signed mark _ _ =>
    rintro c ⟨⟩
    rcases mark with rfl | rfl <;> rfl

theorem Exponent.noPoint (h : Exponent exponent) (hrest : EndsNumber rest) :
    ∀ c ∈ (exponent ++ rest).head?, c ≠ '.' := by
  cases h with
  | none => exact hrest.noPoint
  | unsigned mark _ =>
    rintro c ⟨⟩
    rcases mark with rfl | rfl <;> decide
  | signed mark _ _ =>
    rintro c ⟨⟩
    rcases mark with rfl | rfl <;> decide

theorem exponent?_append (h : Exponent exponent) (hrest : EndsNumber rest) :
    exponent? (exponent ++ rest) = some exponent := by
  cases h with
  | none => exact exponent?_of_endsNumber hrest
  | @unsigned e ds mark digits =>
    have hrun := digitRun?_append digits.2 digits.1 hrest.noDigit
    obtain ⟨d, tail, rfl⟩ := List.exists_cons_of_ne_nil digits.1
    have hd : d.isDigit = true := digits.2 d List.mem_cons_self
    have hunsigned : ¬ (d = '+' ∨ d = '-') := by
      rintro (rfl | rfl) <;> cases hd
    rw [List.cons_append] at hrun
    rw [List.cons_append, List.cons_append, exponent?, if_pos mark, if_neg hunsigned, hrun]
    rfl
  | @signed e sign ds mark hsign digits =>
    have hrun := digitRun?_append digits.2 digits.1 hrest.noDigit
    rw [List.cons_append, List.cons_append, exponent?, if_pos mark, if_pos hsign, hrun]
    rfl

theorem fraction?_append (h : Fraction fraction) (hdigit : NoDigit rest)
    (hpoint : ∀ c ∈ rest.head?, c ≠ '.') : fraction? (fraction ++ rest) = some fraction := by
  cases h with
  | none => exact fraction?_of_ne hpoint
  | some digits =>
    show (digitRun? (_ ++ rest)).map ('.' :: ·) = _
    rw [digitRun?_append digits.2 digits.1 hdigit]
    rfl

theorem Fraction.noDigit (h : Fraction fraction) (hrest : NoDigit rest) :
    NoDigit (fraction ++ rest) := by
  cases h with
  | none => exact hrest
  | some _ =>
    rintro c ⟨⟩
    rfl

/-- A number is read to its end. -/
theorem number?_parts (n : Nat) (hfraction : Fraction fraction) (hexponent : Exponent exponent)
    (hrest : EndsNumber rest) :
    number? (Nat.toDigits 10 n ++ (fraction ++ exponent) ++ rest) =
      some (Nat.toDigits 10 n, fraction ++ exponent) := by
  have hdigit := hexponent.noDigit hrest
  have hwhole := wholePart?_toDigits n (hfraction.noDigit hdigit)
  have hpoint := fraction?_append hfraction hdigit (hexponent.noPoint hrest)
  have hmark := exponent?_append hexponent hrest
  rw [List.append_assoc, List.append_assoc]
  unfold number?
  simp [hwhole, hpoint, hmark]

end Numbers

/-! ### One token -/

theorem isBlank_of_isDigit {c : Char} (h : c.isDigit = true) : isBlank c = false := by
  have hcode : 48 ≤ c.toNat := by
    simp only [Char.isDigit, Bool.and_eq_true, decide_eq_true_eq] at h
    exact h.1
  simp only [isBlank, Bool.or_eq_false_iff, decide_eq_false_iff_not]
  refine ⟨⟨⟨?_, ?_⟩, ?_⟩, ?_⟩
  · rintro rfl
    exact absurd hcode (by decide)
  all_goals omega

/-- Whether a text does not go on with a token that is written before it. -/
def Token.EndsBefore : Token → List Char → Prop
  | .nat _, rest => EndsNumber rest
  | .numeral _, rest => EndsNumber rest
  | _, _ => True

/-- A text that starts with a digit starts with a number. -/
theorem token?_of_isDigit {d : Char} {cs : List Char} (hd : d.isDigit = true) :
    token? (d :: cs) = (number? (d :: cs)).map fun p =>
      (if p.2 = [] then .nat (Nat.ofDigitChars 10 p.1 0) else .numeral (p.1 ++ p.2),
        (d :: cs).drop (p.1.length + p.2.length)) := by
  unfold token?
  split
  case h_12 => rfl
  all_goals
    rename_i hhead
    cases hhead
    cases hd

theorem drop_parts (whole more rest : List Char) :
    (whole ++ more ++ rest).drop (whole.length + more.length) = rest := by
  rw [← List.length_append, List.drop_left]

/-- A number without a sign is read whole. -/
theorem token?_unsigned (n : Nat) {fraction exponent rest : List Char}
    (hfraction : Fraction fraction) (hexponent : Exponent exponent) (hrest : EndsNumber rest) :
    token? (Nat.toDigits 10 n ++ (fraction ++ exponent) ++ rest) =
      some (if fraction ++ exponent = [] then .nat n
        else .numeral (Nat.toDigits 10 n ++ (fraction ++ exponent)), rest) := by
  have hnumber := number?_parts n hfraction hexponent hrest
  have hdrop := drop_parts (Nat.toDigits 10 n) (fraction ++ exponent) rest
  have hvalue : Nat.ofDigitChars 10 (Nat.toDigits 10 n) 0 = n :=
    Nat.ofDigitChars_toDigits (by omega) (by omega)
  obtain ⟨d, ds, hdigits, hd⟩ := toDigits_cons n
  rw [hdigits] at hnumber hdrop hvalue ⊢
  simp only [List.cons_append] at hnumber hdrop ⊢
  rw [token?_of_isDigit hd, hnumber, Option.map_some, hdrop, hvalue, List.cons_append]

/-- A text of a token is read as the token. -/
theorem token?_of_writes {t : Token} {cs rest : List Char} (h : t.Writes cs)
    (hrest : t.EndsBefore rest) : token? (cs ++ rest) = some (t, rest) := by
  cases t with
  | str s =>
    obtain ⟨writing, units⟩ := h
    have hread := stringUnits_inside writing rest
    rw [List.append_assoc]
    show (stringUnits (_ ++ '"' :: rest)).map _ = _
    rw [hread, Option.map_some, ofUnits_of_literal units writing.units_lt]
  | nat n =>
    cases h
    have hread := token?_unsigned n .none .none hrest
    rw [List.append_nil, List.append_nil] at hread
    exact hread
  | numeral text =>
    obtain ⟨rfl, hnumeral⟩ := h
    cases hnumeral with
    | positive n hfraction hexponent more =>
      rw [token?_unsigned n hfraction hexponent hrest, if_neg more]
    | @negative fraction exponent n hfraction hexponent =>
      have hnumber := number?_parts n hfraction hexponent hrest
      have hdrop := drop_parts (Nat.toDigits 10 n) (fraction ++ exponent) rest
      show (number? (Nat.toDigits 10 n ++ (fraction ++ exponent) ++ rest)).map _ = _
      rw [hnumber]
      exact congrArg (fun left => some (_, left)) hdrop
  | bool b =>
    cases h
    cases b <;> rfl
  | _ =>
    cases h
    rfl

/-- No text of a token starts with a blank. -/
theorem Token.Writes.head {t : Token} {cs : List Char} (h : t.Writes cs) :
    ∃ c tail, cs = c :: tail ∧ isBlank c = false := by
  have hnumber : ∀ n more, ∃ c tail, Nat.toDigits 10 n ++ more = c :: tail ∧ isBlank c = false := by
    intro n more
    obtain ⟨d, ds, hdigits, hd⟩ := toDigits_cons n
    rw [hdigits]
    exact ⟨d, ds ++ more, rfl, isBlank_of_isDigit hd⟩
  cases t with
  | str s =>
    cases h with
    | mk => exact ⟨_, _, rfl, rfl⟩
  | nat n =>
    cases h
    rw [← List.append_nil (Token.print (.nat n))]
    exact hnumber n []
  | numeral text =>
    obtain ⟨rfl, hnumeral⟩ := h
    cases hnumeral with
    | positive n => exact hnumber n _
    | negative n => exact ⟨_, _, rfl, rfl⟩
  | bool b =>
    cases h
    cases b <;> exact ⟨_, _, rfl, rfl⟩
  | _ =>
    cases h
    exact ⟨_, _, rfl, rfl⟩

theorem isBlank_iff {c : Char} : isBlank c = true ↔ c ∈ [' ', '\t', '\n', '\r'] := by
  have hcode : ∀ d : Char, c.toNat = d.toNat ↔ c = d := fun d => Char.toNat_inj
  have htab := hcode '\t'
  have hline := hcode '\n'
  have hreturn := hcode '\r'
  simp only [isBlank, Bool.or_eq_true, decide_eq_true_eq, List.mem_cons, List.not_mem_nil, or_false,
    ← htab, ← hline, ← hreturn, or_assoc]
  rfl

/-- Blanks are passed over. -/
theorem lex_blanks {bs : List Char} (h : Blanks bs) (cs : List Char) : lex (bs ++ cs) = lex cs := by
  induction bs with
  | nil => rfl
  | cons b bs ih =>
    have hb := isBlank_iff.mpr (h b List.mem_cons_self)
    rw [List.cons_append, lex, if_pos hb]
    exact ih fun c hc => h c (List.mem_cons_of_mem _ hc)

/-- A token at the head of a text is taken off it. -/
theorem lex_of_token? {c : Char} {cs rest : List Char} {t : Token} (hblank : isBlank c = false)
    (htoken : token? (c :: cs) = some (t, rest)) : lex (c :: cs) = (lex rest).map (t :: ·) := by
  rw [lex, if_neg (by simp [hblank])]
  split
  next t' rest' hread =>
    rw [htoken] at hread
    cases hread
    rfl
  next hread =>
    rw [htoken] at hread
    cases hread

/-! ### All tokens -/

/-- The tokens that a value may be followed by. -/
def Token.EndsPart (t : Token) : Prop := t = .comma ∨ t = .closeBracket ∨ t = .closeBrace

/-- After a number the part that it is ends. -/
def Token.Apart : Token → Token → Prop
  | .nat _, u => u.EndsPart
  | .numeral _, u => u.EndsPart
  | _, _ => True

theorem Token.apart_of_endsPart {u : Token} (h : u.EndsPart) (t : Token) : t.Apart u := by
  cases t <;> first | exact h | trivial

theorem endsNumber_blanks {bs cs : List Char} (h : Blanks bs) (hcs : EndsNumber cs) :
    EndsNumber (bs ++ cs) := by
  cases bs with
  | nil => exact hcs
  | cons b bs =>
    show b.isDigit = false ∧ b ≠ '.' ∧ b ≠ 'e' ∧ b ≠ 'E'
    have hblank := h b List.mem_cons_self
    simp only [List.mem_cons, List.not_mem_nil, or_false] at hblank
    rcases hblank with rfl | rfl | rfl | rfl <;> decide

/-- What is laid out behind a token does not go on with it. -/
theorem Laid.endsBefore {t : Token} {ts : List Token} {cs : List Char} (h : Laid ts cs)
    (hapart : (t :: ts).IsChain Token.Apart) : t.EndsBefore cs := by
  have hends : (∀ u ∈ ts.head?, u.EndsPart) → EndsNumber cs := by
    intro hhead
    cases h with
    | nil blanks =>
      rw [← List.append_nil cs]
      exact endsNumber_blanks blanks trivial
    | @cons u ts bs cs rest blanks head _ =>
      refine endsNumber_blanks blanks ?_
      rcases hhead u rfl with rfl | rfl | rfl <;> cases head <;>
        exact ⟨rfl, by decide, by decide, by decide⟩
  have hneighbour := (List.isChain_cons.mp hapart).1
  cases t with
  | nat n => exact hends hneighbour
  | numeral text => exact hends hneighbour
  | _ => trivial

/-- The tokens of a text are found one by one. -/
theorem lex_of_laid {ts : List Token} {cs : List Char} (h : Laid ts cs)
    (hapart : ts.IsChain Token.Apart) : lex cs = some ts := by
  induction h with
  | @nil cs blanks =>
    rw [← List.append_nil cs, lex_blanks blanks, lex]
  | @cons t ts bs cs rest blanks head tail ih =>
    have htoken := token?_of_writes head (tail.endsBefore hapart)
    obtain ⟨c, cs, rfl, hblank⟩ := head.head
    rw [List.cons_append] at htoken
    rw [lex_blanks blanks, List.cons_append, lex_of_token? hblank htoken,
      ih (List.isChain_cons.mp hapart).2]
    rfl

end ShareVault.Json
