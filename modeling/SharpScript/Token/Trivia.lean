import SharpScript.Token.Fault

/-! # Trivia

Blanks, comments and directive lines separate tokens and mean nothing else.

## Main Definitions

* `isBlank`: the blank characters between tokens;
* `commentRest`: the length of a block comment behind its opening;
* `trivia`: the length of the trivia at the head of a text, if there is any.
-/

namespace SharpScript.Lexer

/-- The number of characters at the head of `cs` that satisfy `p`. -/
def run (p : Char → Bool) (cs : List Char) : Nat := (cs.takeWhile p).length

/-- A blank between tokens: space, tab, line ends, and the byte-order mark. -/
def isBlank (c : Char) : Bool :=
  c == ' ' || c == '\t' || c == '\r' || c == '\n' || c == '\ufeff'

/-- The number of characters before the end of the line. -/
def lineRest (cs : List Char) : Nat := run (· != '\n') cs

/-- The number of characters through the first `*/`. -/
def commentRest : List Char → Option Nat
  | [] => none
  | '*' :: '/' :: _ => some 2
  | _ :: cs => (commentRest cs).map (· + 1)

/-- The length of the trivia at the head of a text: a run of blanks, a comment, or a
directive, which starts with `#` on a line that is bare so far. A line comment and a directive
end before the line does. -/
def trivia (bare : Bool) : List Char → Except Snag (Option Nat)
  | [] => .ok none
  | '/' :: '/' :: cs => .ok (some (2 + lineRest cs))
  | '/' :: '*' :: cs =>
    match commentRest cs with
    | some n => .ok (some (2 + n))
    | none => .error ⟨0, .unterminatedComment⟩
  | c :: cs =>
    if isBlank c then .ok (some (1 + run isBlank cs))
    else if c == '#' && bare then .ok (some (1 + lineRest cs))
    else .ok none

end SharpScript.Lexer
