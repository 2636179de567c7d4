import ShareVault.Json.Basic
import ShareVault.Radix

/-!
# JSON tokens

The words of a JSON text: punctuation, the three names, numbers and string literals, with spaces,
tabs and line ends allowed between any two.

* `Json.Token.print` — the one way a token is written: no spaces, and of the escapes the shortest;
* `Json.lex` — the tokens of a text, or `none` where a character starts no token;
* `Json.stringUnits`, `Json.ofUnits` — the inside of a string literal, first as code units, then
  as text with the surrogate pairs joined.
-/

namespace ShareVault.Json

/-- A word of a JSON text. -/
inductive Token where
  | openBracket | closeBracket | openBrace | closeBrace | colon | comma
  | null
  | bool (b : Bool)
  | nat (n : Nat)
  | numeral (text : List Char)
  | str (s : Literal)
deriving DecidableEq

/-! ### Writing -/

/-- A character inside a string literal: quotes, backslashes and control characters are escaped,
everything else stands for itself. -/
def escapeChar (c : Char) : List Char :=
  if c = '"' then ['\\', '"']
  else if c = '\\' then ['\\', '\\']
  else if c.toNat = 0x08 then ['\\', 'b']
  else if c.toNat = 0x09 then ['\\', 't']
  else if c.toNat = 0x0a then ['\\', 'n']
  else if c.toNat = 0x0c then ['\\', 'f']
  else if c.toNat = 0x0d then ['\\', 'r']
  else if c.toNat < 0x20 then
    ['\\', 'u', '0', '0', Radix.hexDigit (c.toNat / 16), Radix.hexDigit (c.toNat % 16)]
  else [c]

/-- A string literal; without a text, an escape that is half of a pair stands in for it. -/
def printLiteral : Literal → List Char
  | some s => '"' :: s.toList.flatMap escapeChar ++ ['"']
  | none => ['"', '\\', 'u', 'd', '8', '0', '0', '"']

def Token.print : Token → List Char
  | .openBracket => ['[']
  | .closeBracket => [']']
  | .openBrace => ['\x7b']
  | .closeBrace => ['\x7d']
  | .colon => [':']
  | .comma => [',']
  | .null => ['n', 'u', 'l', 'l']
  | .bool true => ['t', 'r', 'u', 'e']
  | .bool false => ['f', 'a', 'l', 's', 'e']
  | .nat n => Nat.toDigits 10 n
  | .numeral text => text
  | .str s => printLiteral s

/-! ### The inside of a string literal -/

/-- The character that a one-letter escape stands for. -/
def shortEscape? : Char → Option Char
  | '"' => some '"'
  | '\\' => some '\\'
  | '/' => some '/'
  | 'b' => some (Char.ofNat 0x08)
  | 'f' => some (Char.ofNat 0x0c)
  | 'n' => some (Char.ofNat 0x0a)
  | 'r' => some (Char.ofNat 0x0d)
  | 't' => some (Char.ofNat 0x09)
  | _ => none

/-- The code unit of four hexadecimal digits. -/
def hexUnit? (a b c d : Char) : Option Nat := do
  let a ← Radix.hexValue? a
  let b ← Radix.hexValue? b
  let c ← Radix.hexValue? c
  let d ← Radix.hexValue? d
  return ((a * 16 + b) * 16 + c) * 16 + d

/-- The code units of a string up to its closing quote, and the characters after the quote.
A control character that is not escaped is refused. -/
def stringUnits : List Char → Option (List Nat × List Char)
  | [] => none
  | '"' :: rest => some ([], rest)
  | '\\' :: 'u' :: a :: b :: c :: d :: rest =>
    match hexUnit? a b c d with
    | some u => (stringUnits rest).map fun p => (u :: p.1, p.2)
    | none => none
  | '\\' :: e :: rest =>
    match shortEscape? e with
    | some c => (stringUnits rest).map fun p => (c.toNat :: p.1, p.2)
    | none => none
  | c :: rest =>
    if c.toNat < 0x20 then none
    else (stringUnits rest).map fun p => (c.toNat :: p.1, p.2)

/-- Whether a code unit is the first half of a pair. -/
def isHighSurrogate (u : Nat) : Bool := 0xd800 ≤ u && u < 0xdc00

/-- Whether a code unit is the second half of a pair. -/
def isLowSurrogate (u : Nat) : Bool := 0xdc00 ≤ u && u < 0xe000

/-- The characters of a run of code units, each pair joined; `none` if a half stands alone. -/
def ofUnits : List Nat → Option (List Char)
  | [] => some []
  | u :: rest =>
    if isHighSurrogate u then
      match rest with
      | v :: rest' =>
        if isLowSurrogate v then
          (ofUnits rest').map
            (Char.ofNat (0x10000 + (u - 0xd800) * 0x400 + (v - 0xdc00)) :: ·)
        else none
      | [] => none
    else if isLowSurrogate u then none
    else (ofUnits rest).map (Char.ofNat u :: ·)

theorem length_of_stringUnits {cs : List Char} {p : List Nat × List Char}
    (h : stringUnits cs = some p) : p.2.length < cs.length := by
  fun_induction stringUnits cs generalizing p with
  | case1 => cases h
  | case2 rest => cases h; simp
  | case3 a b c d rest u hu ih =>
    obtain ⟨q, hq, rfl⟩ := Option.map_eq_some_iff.1 h
    have := ih hq
    simp only [List.length_cons] at this ⊢
    omega
  | case4 => cases h
  | case5 e rest _ c hc ih =>
    obtain ⟨q, hq, rfl⟩ := Option.map_eq_some_iff.1 h
    have := ih hq
    simp only [List.length_cons] at this ⊢
    omega
  | case6 => cases h
  | case7 => cases h
  | case8 c rest _ _ _ _ ih =>
    obtain ⟨q, hq, rfl⟩ := Option.map_eq_some_iff.1 h
    have := ih hq
    simp only [List.length_cons] at this ⊢
    omega

/-! ### Numbers -/

/-- The leading digits of a text, at least one of them. -/
def digitRun? (cs : List Char) : Option (List Char) :=
  match cs.takeWhile Char.isDigit with
  | [] => none
  | ds => some ds

/-- A fraction at the head of a text, empty without one.  A point needs digits. -/
def fraction? : List Char → Option (List Char)
  | '.' :: rest => (digitRun? rest).map ('.' :: ·)
  | _ => some []

/-- An exponent at the head of a text, empty without one.  A mark needs digits. -/
def exponent? : List Char → Option (List Char)
  | e :: sign :: rest =>
    if e = 'e' ∨ e = 'E' then
      if sign = '+' ∨ sign = '-' then (digitRun? rest).map fun ds => e :: sign :: ds
      else (digitRun? (sign :: rest)).map (e :: ·)
    else some []
  | [e] => if e = 'e' ∨ e = 'E' then none else some []
  | [] => some []

/-- The digits before the point: zero alone, or digits that start with another. -/
def wholePart? (cs : List Char) : Option (List Char) :=
  match digitRun? cs with
  | some ('0' :: _ :: _) => none
  | other => other

/-- The unsigned number at the head of a text, as its whole part and the rest of its writing. -/
def number? (cs : List Char) : Option (List Char × List Char) := do
  let whole ← wholePart? cs
  let afterWhole := cs.drop whole.length
  let fraction ← fraction? afterWhole
  let exponent ← exponent? (afterWhole.drop fraction.length)
  return (whole, fraction ++ exponent)

/-! ### Reading -/

/-- Whether a character may stand between tokens. -/
def isBlank (c : Char) : Bool :=
  c = ' ' || c.toNat = 0x09 || c.toNat = 0x0a || c.toNat = 0x0d

/-- The token at the head of a text that starts with no blank, and what follows it. -/
def token? : List Char → Option (Token × List Char)
  | '[' :: rest => some (.openBracket, rest)
  | ']' :: rest => some (.closeBracket, rest)
  | '\x7b' :: rest => some (.openBrace, rest)
  | '\x7d' :: rest => some (.closeBrace, rest)
  | ':' :: rest => some (.colon, rest)
  | ',' :: rest => some (.comma, rest)
  | 'n' :: 'u' :: 'l' :: 'l' :: rest => some (.null, rest)
  | 't' :: 'r' :: 'u' :: 'e' :: rest => some (.bool true, rest)
  | 'f' :: 'a' :: 'l' :: 's' :: 'e' :: rest => some (.bool false, rest)
  | '"' :: rest =>
    (stringUnits rest).map fun p => (.str ((ofUnits p.1).map String.ofList), p.2)
  | '-' :: rest =>
    (number? rest).map fun p =>
      (.numeral ('-' :: p.1 ++ p.2), rest.drop (p.1.length + p.2.length))
  | cs =>
    (number? cs).map fun p =>
      (if p.2 = [] then .nat (Nat.ofDigitChars 10 p.1 0) else .numeral (p.1 ++ p.2),
        cs.drop (p.1.length + p.2.length))

theorem digitRun?_ne_nil {cs ds : List Char} (h : digitRun? cs = some ds) : 0 < ds.length := by
  unfold digitRun? at h
  split at h
  · cases h
  · next hne =>
    cases h
    exact List.length_pos_iff.2 hne

theorem number?_length_pos {cs : List Char} {p : List Char × List Char}
    (h : number? cs = some p) : 0 < p.1.length := by
  simp only [number?, Option.bind_eq_bind, Option.bind_eq_some_iff] at h
  obtain ⟨whole, hw, fraction, _, exponent, _, heq⟩ := h
  cases heq
  unfold wholePart? at hw
  split at hw
  · cases hw
  · exact digitRun?_ne_nil hw

theorem token?_length {cs : List Char} {p : Token × List Char} (h : token? cs = some p) :
    p.2.length < cs.length := by
  unfold token? at h
  split at h
  case h_10 rest =>
    obtain ⟨q, hq, rfl⟩ := Option.map_eq_some_iff.1 h
    have := length_of_stringUnits hq
    simp only [List.length_cons]
    omega
  case h_11 rest =>
    obtain ⟨q, hq, rfl⟩ := Option.map_eq_some_iff.1 h
    simp only [List.length_cons, List.length_drop]
    omega
  case h_12 =>
    obtain ⟨q, hq, rfl⟩ := Option.map_eq_some_iff.1 h
    have := number?_length_pos hq
    cases cs with
    | nil => simp [number?, wholePart?, digitRun?] at hq
    | cons c cs => simp only [List.length_cons, List.length_drop]; omega
  all_goals
    cases h
    simp only [List.length_cons]
    omega

def lex : List Char → Option (List Token)
  | [] => some []
  | c :: rest =>
    if isBlank c then lex rest
    else
      match _h : token? (c :: rest) with
      | some (t, rest') => (lex rest').map (t :: ·)
      | none => none
termination_by cs => cs.length
decreasing_by
  · simp
  · exact token?_length _h

end ShareVault.Json
