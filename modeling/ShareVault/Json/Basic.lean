/-!
# JSON values

The tree of a JSON text.  Two details are finer than in a plain tree, because reading a typed
value depends on them.

* A natural number is kept apart from every other number: only a plain run of digits counts as
  an integer, so a sign, a fraction or an exponent makes a `Json.numeral`, kept as written.
* A string may hold an escaped half of a surrogate pair without its other half.  That is a valid
  JSON string, but no text; it is `none`, and only a reader that ignores it accepts it.

Members of an object keep their order and their repetitions.
-/

namespace ShareVault

/-- A string literal: its text, or `none` when it has an unpaired surrogate. -/
abbrev Json.Literal := Option String

inductive Json where
  | null
  | bool (b : Bool)
  | nat (n : Nat)
  /-- A number with a sign, a fraction or an exponent, as it is written. -/
  | numeral (text : List Char)
  | str (s : Json.Literal)
  | arr (items : List Json)
  | obj (members : List (Json.Literal × Json))
deriving Inhabited

namespace Json

def text (s : String) : Json := .str (some s)

/-- An object with these named members. -/
def object (members : List (String × Json)) : Json :=
  .obj (members.map fun m => (some m.1, m.2))

end Json

end ShareVault
