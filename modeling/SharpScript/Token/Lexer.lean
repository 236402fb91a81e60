import SharpScript.Token.Basic
import SharpScript.Token.Literal
import SharpScript.Token.Vocabulary

/-! # Cutting a source text into tokens

At each place the characters ahead decide what stands there, trivia or a token of some kind,
and how long it is. The text is cut there and the rest is treated alike.

## Main Definitions

* `Piece`, `piece`: what stands at the head of a text;
* `pieces`: the tokens of a text, from a given place on;
* `tokenize`: the tokens of a source text.

## Design Notes

`pieces` runs over the characters one by one. The characters of a piece that has been cut off
already are counted down by its argument `skip`, so the recursion follows the list.
-/

namespace SharpScript.Lexer

/-- What stands at the head of a text and how long it is. -/
inductive Piece
  | trivia (length : Nat)
  | token (kind : Kind) (length : Nat)
deriving DecidableEq, Inhabited, Repr

/-- The kind of a word that is written without `@`. -/
def wordKind (word : List Char) : Kind :=
  if keywords.contains (String.ofList word) then .keyword else .identifier false

/-- The piece at the head of a text that is a word, an operator, or nothing. -/
def wordOrOperator (c : Char) (cs : List Char) : Except Snag Piece :=
  if isWordStart c then
    .ok (.token (wordKind ((c :: cs).takeWhile isWordPart)) (1 + run isWordPart cs))
  else if c == '@' && cs.head?.any isWordStart then
    .ok (.token (.identifier true) (1 + run isWordPart cs))
  else match operatorLength? (c :: cs) with
    | some n => .ok (.token .operator n)
    | none => .error ⟨0, .unexpectedCharacter c⟩

/-- The piece at the head of `c :: cs`, where `bare` says that its line is bare so far. -/
def piece (bare : Bool) (c : Char) (cs : List Char) : Except Snag Piece := do
  match ← trivia bare (c :: cs) with
  | some n => return .trivia n
  | none =>
    if startsString (c :: cs) then return .token .string (← stringLength (c :: cs))
    else if c == '\'' then return .token .character (← characterLength cs)
    else if startsNumber (c :: cs) then return .token .number (numberLength (c :: cs))
    else wordOrOperator c cs

/-- The token of kind `kind` that is written as `lexeme`. -/
def token (kind : Kind) (lexeme : List Char) (gap : List Char) (place : Place) : Token where
  kind := kind
  text := String.ofList (if kind == .identifier true then lexeme.drop 1 else lexeme)
  gap := String.ofList gap
  place := place

/-- The tokens of a text from `place` on, where `gap` is the trivia read since the last token
and `skip` characters have been cut off already. -/
def pieces (place : Place) (gap : List Char) :
    (skip : Nat) → List Char → Except Fault Tokenized
  | _, [] => .ok ⟨[], String.ofList gap, place⟩
  | skip + 1, _ :: cs => pieces place gap skip cs
  | 0, c :: cs =>
    match piece place.bare c cs with
    | .error snag => .error (snag.fault place (c :: cs))
    | .ok (.trivia n) =>
      let read := (c :: cs).take n
      pieces (place.after read) (gap ++ read) (n - 1) cs
    | .ok (.token kind n) =>
      let read := (c :: cs).take n
      match pieces (place.after read) [] (n - 1) cs with
      | .error fault => .error fault
      | .ok rest => .ok { rest with tokens := token kind read gap place :: rest.tokens }

/-- Counting down what has been cut off drops it. -/
theorem pieces_skip (place : Place) (gap : List Char) (skip : Nat) (cs : List Char) :
    pieces place gap skip cs = pieces place gap 0 (cs.drop skip) := by
  induction cs generalizing skip with
  | nil => cases skip <;> rfl
  | cons c cs ih =>
    cases skip with
    | zero => rfl
    | succ skip => exact ih skip

end SharpScript.Lexer

namespace SharpScript

/-- The tokens of a source text, or the first fault in it. -/
def tokenize (source : String) : Except Fault Tokenized :=
  Lexer.pieces .start [] 0 source.toList

end SharpScript
