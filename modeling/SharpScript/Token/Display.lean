import SharpScript.Text.Quoted
import SharpScript.Token.Basic

/-! # Showing tokens

## Main Definitions

* `Token.label`: the name of a token's kind, which for a keyword is the word itself;
* `Tokenized.rows`: each token with its position, and the end of the text as a last row;
* `TokenRow.shown`: a row as a text.
-/

namespace SharpScript

/-- The name of a token's kind. -/
def Token.label (t : Token) : String :=
  match t.kind with
  | .identifier _ => "IDENT"
  | .keyword => t.text
  | .number => "NUMBER"
  | .string => "STRING"
  | .character => "CHAR"
  | .operator => "OP"

/-- A token as it is listed: its label, its text, where it starts, and the offset behind it. -/
structure TokenRow where
  label : String
  text : String
  place : Place
  stop : Nat
deriving DecidableEq, Inhabited, Repr

/-- The row of a token. -/
def Token.row (t : Token) : TokenRow := ⟨t.label, t.text, t.place, t.stop⟩

/-- The row of the end of a text. -/
def TokenRow.finish (p : Place) : TokenRow := ⟨"EOF", "", p, p.offset⟩

/-- A row as a text, with its text in quotes. -/
def TokenRow.shown (r : TokenRow) : String :=
  "Token(" ++ r.label ++ ", " ++ Text.quoted r.text ++ ", " ++ toString r.place.line ++ ", " ++
    toString r.place.col ++ ")"

/-- The rows of all tokens, and that of the end. -/
def Tokenized.rows (t : Tokenized) : List TokenRow :=
  t.tokens.map Token.row ++ [TokenRow.finish t.stop]

end SharpScript
