import SharpScript.Token.Place

/-! # Tokens

A token is a piece of C# source text with its kind, together with the trivia that stands
before it.  A source text is therefore the lexemes of its tokens in order, each behind
its gap, and a last gap.

## Main Definitions

* `Kind`, `Token`: a token and what it is;
* `Token.reads`: the test that a grammar rule makes on a token;
* `Token.spelling`: the source text from a first token through a last one;
* `Tokenized`: all that a source text consists of.

## Design Notes

An identifier may be written with a leading `@`, which is no part of its text. Tests on the
text of a token cannot tell `@class` from `class`; tests on its kind can.
-/

namespace SharpScript

/-- What a token is.  An identifier is `escaped` when it is written with a leading `@`. -/
inductive Kind
  | identifier (escaped : Bool)
  | keyword
  | number
  | string
  | character
  | operator
deriving DecidableEq, Inhabited, Repr

namespace Kind

/-- Number, string and character literals. -/
def isLiteral : Kind → Bool
  | number | string | character => true
  | _ => false

/-- Identifiers, escaped or not. -/
def isIdentifier : Kind → Bool
  | identifier _ => true
  | _ => false

/-- Identifiers and keywords. -/
def isWord : Kind → Bool
  | identifier _ | keyword => true
  | _ => false

end Kind

/-- A token: its kind, its text, the trivia before it, and where it starts. -/
structure Token where
  kind : Kind
  text : String
  gap : String
  place : Place
deriving DecidableEq, Inhabited, Repr

namespace Token

/-- The characters that the token occupies in the source. -/
def lexeme (t : Token) : String :=
  match t.kind with
  | .identifier true => "@" ++ t.text
  | _ => t.text

/-- The offset behind the last character of the token. -/
def stop (t : Token) : Nat := t.place.offset + t.lexeme.length

/-- Whether the token reads as the word or sign `w`.  Literals read as nothing. -/
def reads (t : Token) (w : String) : Bool := t.text == w && !t.kind.isLiteral

/-- Whether the token is the operator `w`. -/
def isOperator (t : Token) (w : String) : Bool := t.kind == .operator && t.text == w

/-- The source text from the first of the tokens through the last, with
the trivia between them. -/
def spelling : List Token → String
  | [] => ""
  | t :: ts => t.lexeme ++ String.join (ts.map fun u => u.gap ++ u.lexeme)

end Token

/-- The tokens of a source text, the trivia behind the last of them, and
where the text ends. -/
structure Tokenized where
  tokens : List Token
  gap : String
  stop : Place
deriving DecidableEq, Inhabited, Repr

end SharpScript
