/-!
# Log formats

The two shapes in which a host may have its log written, chosen by a word in its settings.
-/

namespace ShareVault

inductive LogFormat where
  | pretty
  /-- For machines, one JSON object a line. -/
  | json
deriving DecidableEq, Repr

/-- The format that a word asks for, in any case; an unknown word asks for `pretty`.  No character
beyond ASCII has a letter of `json` as its lower-case form, so ASCII lower case decides. -/
def LogFormat.ofText (word : String) : LogFormat :=
  if word.toList.map Char.toLower = "json".toList then .json else .pretty

def LogFormat.name : LogFormat → String
  | .pretty => "Pretty"
  | .json => "Json"

end ShareVault
