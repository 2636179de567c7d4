import ShareVault.Json.Text

/-!
# The texts of a tree

A tree has many texts: blanks may stand between any two tokens, a string may be written with escapes
or without, and a number may have a sign, a fraction and an exponent.  The grammar is stated without
the reader; the compact text is one that it allows.

* `Inside`, `HasUnits`, `Quotes` — the texts of a string literal;
* `Numeral` — the numbers that are more than a run of digits;
* `Token.Writes`, `Laid`, `WrittenAs` — the texts of a token, of tokens in order and of a tree;
* `Token.writes_print`, `Plain.writtenAs_print` — what is printed is among them.
-/

namespace ShareVault.Json

/-! ### String literals -/

/-- The letters of the short escapes, and the characters they stand for. -/
def shortEscapes : List (Char × Char) :=
  [('"', '"'), ('\\', '\\'), ('/', '/'), ('b', Char.ofNat 0x08), ('f', Char.ofNat 0x0c),
    ('n', '\n'), ('r', '\r'), ('t', '\t')]

/-- A hexadecimal digit of either case. -/
def IsHexDigit (d : Nat) (c : Char) : Prop :=
  d < 16 ∧ (c = Radix.hexDigit d ∨ c = (Radix.hexDigit d).toUpper)

/-- What may stand between the quotes of a string literal, and the code units it stands for. -/
inductive Inside : List Char → List Nat → Prop where
  | nil : Inside [] []
  | plain {c : Char} {cs : List Char} {us : List Nat} (hquote : c ≠ '"') (hbackslash : c ≠ '\\')
      (hcontrol : ¬ c.toNat < 0x20) (tail : Inside cs us) : Inside (c :: cs) (c.toNat :: us)
  | short {e c : Char} {cs : List Char} {us : List Nat} (escape : (e, c) ∈ shortEscapes)
      (tail : Inside cs us) : Inside ('\\' :: e :: cs) (c.toNat :: us)
  | hex {x y z w : Char} {a b c d : Nat} {cs : List Char} {us : List Nat} (hx : IsHexDigit a x)
      (hy : IsHexDigit b y) (hz : IsHexDigit c z) (hw : IsHexDigit d w) (tail : Inside cs us) :
      Inside ('\\' :: 'u' :: x :: y :: z :: w :: cs) ((((a * 16 + b) * 16 + c) * 16 + d) :: us)

/-- Characters and code units that stand for them: the number of the character, or for one beyond
the first plane also the two halves of its pair. -/
inductive HasUnits : List Char → List Nat → Prop where
  | nil : HasUnits [] []
  | single {c : Char} {cs : List Char} {us : List Nat} (tail : HasUnits cs us) :
      HasUnits (c :: cs) (c.toNat :: us)
  | pair {c : Char} {cs : List Char} {us : List Nat} (beyond : 0x10000 ≤ c.toNat)
      (tail : HasUnits cs us) :
      HasUnits (c :: cs) ((0xd800 + (c.toNat - 0x10000) / 0x400) ::
        (0xdc00 + (c.toNat - 0x10000) % 0x400) :: us)

/-- The text of a literal has these code units; without a text, no text has them. -/
def Literal.HasUnits : Literal → List Nat → Prop
  | some s, us => Json.HasUnits s.toList us
  | none, us => ∀ cs, ¬ Json.HasUnits cs us

/-- The literal between its quotes. -/
inductive Quotes (s : Literal) : List Char → Prop where
  | mk {inside : List Char} {us : List Nat} (writing : Inside inside us) (units : s.HasUnits us) :
      Quotes s ('"' :: inside ++ ['"'])

/-! ### Numbers -/

def Digits (cs : List Char) : Prop := cs ≠ [] ∧ ∀ c ∈ cs, c.isDigit = true

inductive Fraction : List Char → Prop where
  | none : Fraction []
  | some {ds : List Char} (digits : Digits ds) : Fraction ('.' :: ds)

inductive Exponent : List Char → Prop where
  | none : Exponent []
  | unsigned {e : Char} {ds : List Char} (mark : e = 'e' ∨ e = 'E') (digits : Digits ds) :
      Exponent (e :: ds)
  | signed {e sign : Char} {ds : List Char} (mark : e = 'e' ∨ e = 'E')
      (hsign : sign = '+' ∨ sign = '-') (digits : Digits ds) : Exponent (e :: sign :: ds)

/-- A number with a sign, a fraction or an exponent. -/
inductive Numeral : List Char → Prop where
  | positive {fraction exponent : List Char} (n : Nat) (hfraction : Fraction fraction)
      (hexponent : Exponent exponent) (more : fraction ++ exponent ≠ []) :
      Numeral (Nat.toDigits 10 n ++ (fraction ++ exponent))
  | negative {fraction exponent : List Char} (n : Nat) (hfraction : Fraction fraction)
      (hexponent : Exponent exponent) :
      Numeral ('-' :: Nat.toDigits 10 n ++ (fraction ++ exponent))

/-! ### Tokens and trees -/

/-- Spaces, tabs and line ends. -/
def Blanks (cs : List Char) : Prop := ∀ c ∈ cs, c ∈ [' ', '\t', '\n', '\r']

instance : DecidablePred Blanks :=
  List.decidableBAll fun c => c ∈ [' ', '\t', '\n', '\r']

/-- The texts of a token: of a string literal there are many, of any other token one. -/
def Token.Writes : Token → List Char → Prop
  | .str s, cs => Quotes s cs
  | .numeral text, cs => cs = text ∧ Numeral text
  | t, cs => cs = t.print

/-- Tokens in their order, with blanks before, between and after them. -/
inductive Laid : List Token → List Char → Prop where
  | nil {cs : List Char} (blanks : Blanks cs) : Laid [] cs
  | cons {t : Token} {ts : List Token} {bs cs rest : List Char} (blanks : Blanks bs)
      (head : t.Writes cs) (tail : Laid ts rest) : Laid (t :: ts) (bs ++ (cs ++ rest))

/-- One of the texts of a tree. -/
def WrittenAs (v : Json) (text : String) : Prop := Laid v.tokens text.toList

/-! ### What is printed -/

/-- Half of a surrogate pair is no character. -/
theorem not_isSurrogate (c : Char) :
    isHighSurrogate c.toNat = false ∧ isLowSurrogate c.toNat = false := by
  have hvalid : c.toNat < 0xd800 ∨ 0xdfff < c.toNat ∧ c.toNat < 0x110000 := c.valid
  simp only [isHighSurrogate, isLowSurrogate, Bool.and_eq_false_iff, decide_eq_false_iff_not]
  omega

theorem Inside.escapeChar {cs : List Char} {us : List Nat} (h : Inside cs us) (c : Char) :
    Inside (escapeChar c ++ cs) (c.toNat :: us) := by
  have hcode : ∀ {n : Nat}, c.toNat = n → c = Char.ofNat n := fun hn => by
    rw [← hn, Char.ofNat_toNat]
  unfold Json.escapeChar
  split
  next hquote =>
    rw [hquote]
    exact .short (by decide) h
  split
  next hbackslash =>
    rw [hbackslash]
    exact .short (by decide) h
  -- the five control characters that have a letter of their own
  iterate 5
    split
    next hn =>
      rw [hcode hn]
      exact .short (by decide) h
  split
  next hcontrol =>
    have hzero : IsHexDigit 0 '0' := ⟨by decide, .inl rfl⟩
    have hupper : IsHexDigit (c.toNat / 16) _ := ⟨by omega, .inl rfl⟩
    have hlower : IsHexDigit (c.toNat % 16) _ := ⟨by omega, .inl rfl⟩
    have hescape := Inside.hex hzero hzero hupper hlower h
    have hunit : ((0 * 16 + 0) * 16 + c.toNat / 16) * 16 + c.toNat % 16 = c.toNat := by omega
    rw [hunit] at hescape
    exact hescape
  next hquote hbackslash _ _ _ _ _ hcontrol => exact .plain hquote hbackslash hcontrol h

theorem inside_escape (cs : List Char) : Inside (cs.flatMap escapeChar) (cs.map Char.toNat) := by
  induction cs with
  | nil => exact .nil
  | cons c cs ih => exact ih.escapeChar c

theorem hasUnits_toNat (cs : List Char) : HasUnits cs (cs.map Char.toNat) := by
  induction cs with
  | nil => exact .nil
  | cons c cs ih => exact .single ih

/-- Half of a pair is no text. -/
theorem not_hasUnits_half (cs : List Char) : ¬ HasUnits cs [0xd800] := by
  intro h
  generalize hus : [0xd800] = us at h
  cases h with
  | nil => cases hus
  | @single c =>
    have hsurrogate := (not_isSurrogate c).1
    rw [← (List.cons.inj hus).1] at hsurrogate
    cases hsurrogate
  | pair => cases (List.cons.inj hus).2

theorem quotes_printLiteral (s : Literal) : Quotes s (printLiteral s) := by
  cases s with
  | some s => exact .mk (inside_escape s.toList) (hasUnits_toNat s.toList)
  | none =>
    have hzero : IsHexDigit 0 '0' := ⟨by decide, .inl rfl⟩
    have hdigit : IsHexDigit 13 'd' := ⟨by decide, .inl rfl⟩
    have height : IsHexDigit 8 '8' := ⟨by decide, .inl rfl⟩
    exact .mk (.hex hdigit height hzero hzero .nil) not_hasUnits_half

/-- Every token but a number with a sign, a fraction or an exponent. -/
def Token.Plain : Token → Prop
  | .numeral _ => False
  | _ => True

theorem blanks_nil : Blanks [] := by
  rintro c ⟨⟩

/-- A token that stands at once. -/
theorem Laid.next {t : Token} {ts : List Token} {cs rest : List Char} (head : t.Writes cs)
    (tail : Laid ts rest) : Laid (t :: ts) (cs ++ rest) :=
  .cons blanks_nil head tail

theorem Token.writes_print {t : Token} (ht : t.Plain) : t.Writes t.print := by
  cases t with
  | str s => exact quotes_printLiteral s
  | numeral text => exact ht.elim
  | _ => rfl

theorem laid_print {ts : List Token} (h : ∀ t ∈ ts, t.Plain) :
    Laid ts (ts.flatMap Token.print) := by
  induction ts with
  | nil => exact .nil blanks_nil
  | cons t ts ih =>
    obtain ⟨ht, hts⟩ := List.forall_mem_cons.mp h
    exact .next (Token.writes_print ht) (ih hts)

/-- A tree without numbers that have a sign, a fraction or an exponent. -/
inductive Plain : Json → Prop where
  | null : Plain .null
  | bool (b : Bool) : Plain (.bool b)
  | nat (n : Nat) : Plain (.nat n)
  | str (s : Literal) : Plain (.str s)
  | arr {items : List Json} (h : ∀ v ∈ items, Plain v) : Plain (.arr items)
  | obj {members : List (Literal × Json)} (h : ∀ m ∈ members, Plain m.2) : Plain (.obj members)

section Containers

variable {items : List Json} {members : List (Literal × Json)}

theorem plain_itemTokens (h : ∀ v ∈ items, ∀ t ∈ v.tokens, t.Plain) :
    ∀ t ∈ itemTokens items, t.Plain := by
  induction items with
  | nil => exact List.forall_mem_singleton.mpr trivial
  | cons v tail ih =>
    have hv := h v List.mem_cons_self
    have htail := ih fun w hw => h w (List.mem_cons_of_mem _ hw)
    cases tail with
    | nil => exact List.forall_mem_append.mpr ⟨hv, htail⟩
    | cons w tail =>
      exact List.forall_mem_append.mpr ⟨hv, List.forall_mem_cons.mpr ⟨trivial, htail⟩⟩

theorem plain_memberTokens (h : ∀ m ∈ members, ∀ t ∈ m.2.tokens, t.Plain) :
    ∀ t ∈ memberTokens members, t.Plain := by
  induction members with
  | nil => exact List.forall_mem_singleton.mpr trivial
  | cons m tail ih =>
    obtain ⟨k, v⟩ := m
    have hv := h (k, v) List.mem_cons_self
    have htail := ih fun m hm => h m (List.mem_cons_of_mem _ hm)
    have hkey : ∀ ts : List Token, (∀ t ∈ ts, t.Plain) → ∀ t ∈ .str k :: .colon :: ts, t.Plain :=
      fun ts hts => List.forall_mem_cons.mpr ⟨trivial, List.forall_mem_cons.mpr ⟨trivial, hts⟩⟩
    cases tail with
    | nil => exact hkey _ (List.forall_mem_append.mpr ⟨hv, htail⟩)
    | cons m tail =>
      exact hkey _ (List.forall_mem_append.mpr ⟨hv, List.forall_mem_cons.mpr ⟨trivial, htail⟩⟩)

end Containers

theorem Plain.tokens {v : Json} (h : v.Plain) : ∀ t ∈ v.tokens, t.Plain := by
  induction h with
  | arr _ ih => exact List.forall_mem_cons.mpr ⟨trivial, plain_itemTokens ih⟩
  | obj _ ih => exact List.forall_mem_cons.mpr ⟨trivial, plain_memberTokens ih⟩
  | _ => exact List.forall_mem_singleton.mpr trivial

/-- The compact text of a tree is one of its texts. -/
theorem Plain.writtenAs_print {v : Json} (h : v.Plain) : v.WrittenAs v.print := by
  unfold WrittenAs print
  rw [String.toList_ofList]
  exact laid_print h.tokens

end ShareVault.Json
