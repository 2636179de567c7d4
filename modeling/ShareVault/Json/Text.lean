import ShareVault.Json.Token

/-!
# JSON text

Between tokens and trees.  A tree is written as its tokens in order, without spaces.  A text is
read one token at a time; the containers that are still open wait on a stack, so the depth of a
text costs memory but no nested calls.

* `Json.tokens`, `Json.print` — the compact text of a tree;
* `Json.Reader`, `Json.Reader.step` — what has been read so far, and one more token;
* `Json.parse?` — the tree of a text, or `none` when it is not the text of one value.
-/

namespace ShareVault.Json

/-! ### Writing -/

mutual

def tokens : Json → List Token
  | .null => [.null]
  | .bool b => [.bool b]
  | .nat n => [.nat n]
  | .numeral text => [.numeral text]
  | .str s => [.str s]
  | .arr items => .openBracket :: itemTokens items
  | .obj members => .openBrace :: memberTokens members

/-- The tokens of the items of an array, up to its closing bracket. -/
def itemTokens : List Json → List Token
  | [] => [.closeBracket]
  | [v] => tokens v ++ [.closeBracket]
  | v :: w :: rest => tokens v ++ .comma :: itemTokens (w :: rest)

/-- The tokens of the members of an object, up to its closing brace. -/
def memberTokens : List (Literal × Json) → List Token
  | [] => [.closeBrace]
  | [(k, v)] => .str k :: .colon :: tokens v ++ [.closeBrace]
  | (k, v) :: m :: rest => .str k :: .colon :: tokens v ++ .comma :: memberTokens (m :: rest)

end

/-- The compact text of a value. -/
def print (v : Json) : String :=
  String.ofList (v.tokens.flatMap Token.print)

/-! ### Reading -/

/-- A container that is still open, with what it holds so far, the last first. -/
inductive Frame where
  | items (done : List Json)
  /-- An object between two members. -/
  | members (done : List (Literal × Json))
  /-- An object in the middle of the member of this key. -/
  | member (done : List (Literal × Json)) (key : Literal)

/-- What may come next. -/
inductive Expects where
  | value
  /-- A value, or the end of an array that is still empty. -/
  | firstItem
  | key
  /-- A key, or the end of an object that is still empty. -/
  | firstKey
  | colon
  /-- A comma or the end of the innermost container, whose last part is this value. -/
  | more (last : Json)

/-- How far a text has been read. -/
structure Reader where
  expects : Expects
  /-- The open containers, the innermost first. -/
  stack : List Frame

def Reader.start : Reader := ⟨.value, []⟩

/-- Reads a token where a value has to start. -/
def Reader.begin? (stack : List Frame) : Token → Option Reader
  | .null => some ⟨.more .null, stack⟩
  | .bool b => some ⟨.more (.bool b), stack⟩
  | .nat n => some ⟨.more (.nat n), stack⟩
  | .numeral text => some ⟨.more (.numeral text), stack⟩
  | .str s => some ⟨.more (.str s), stack⟩
  | .openBracket => some ⟨.firstItem, .items [] :: stack⟩
  | .openBrace => some ⟨.firstKey, .members [] :: stack⟩
  | _ => none

def Reader.step (r : Reader) (t : Token) : Option Reader :=
  match r.expects, r.stack, t with
  | .value, stack, t => Reader.begin? stack t
  | .firstItem, .items [] :: stack, .closeBracket => some ⟨.more (.arr []), stack⟩
  | .firstItem, stack, t => Reader.begin? stack t
  | .firstKey, .members [] :: stack, .closeBrace => some ⟨.more (.obj []), stack⟩
  | .firstKey, .members done :: stack, .str k => some ⟨.colon, .member done k :: stack⟩
  | .key, .members done :: stack, .str k => some ⟨.colon, .member done k :: stack⟩
  | .colon, stack, .colon => some ⟨.value, stack⟩
  | .more v, .items done :: stack, .comma => some ⟨.value, .items (v :: done) :: stack⟩
  | .more v, .items done :: stack, .closeBracket =>
    some ⟨.more (.arr (v :: done).reverse), stack⟩
  | .more v, .member done k :: stack, .comma =>
    some ⟨.key, .members ((k, v) :: done) :: stack⟩
  | .more v, .member done k :: stack, .closeBrace =>
    some ⟨.more (.obj ((k, v) :: done).reverse), stack⟩
  | _, _, _ => none

def Reader.run (r : Reader) : List Token → Option Reader
  | [] => some r
  | t :: ts =>
    match r.step t with
    | some r' => r'.run ts
    | none => none

/-- The value that has been read, if it is complete. -/
def Reader.result? : Reader → Option Json
  | ⟨.more v, []⟩ => some v
  | _ => none

/-- The value of a run of tokens. -/
def ofTokens? (ts : List Token) : Option Json :=
  (Reader.start.run ts).bind Reader.result?

def parse? (s : String) : Option Json :=
  (lex s.toList).bind ofTokens?

end ShareVault.Json
