import SharpScript.Token.Trivia

/-! # String and character literals

A string literal has up to two marks `$` and `@` before its opening quote, and these and the
quotes decide how it ends:

* three or more quotes open a raw string, which ends at the first run of that many quotes;
* otherwise `$` opens an interpolated string, whose holes `{ }` nest and may hold literals;
* otherwise `@` opens a verbatim string, where only a doubled quote does not end it;
* otherwise a backslash takes the next character with it, and the string ends on its line.

## Main Definitions

* `quotedRest`, `verbatimRest`, `rawRest`, `interpolatedRest`: where each form ends;
* `startsString`, `stringLength`: string literals at the head of a text;
* `characterLength`: character literals.

## Design Notes

The scanners count characters. A literal inside a hole that does not end is reported where that
literal starts; every other string that does not end is reported at its own start.
-/

namespace SharpScript.Lexer

/-- The number of characters through the closing `quote` of a literal that ends on its
line, counted behind the opening one.  A backslash takes the next character with it,
also the end of a line. -/
def quotedRest (quote : Char) : List Char → Option Nat
  | [] => none
  | '\\' :: _ :: cs => (quotedRest quote cs).map (· + 2)
  | c :: cs =>
    if c == '\n' then none
    else if c == quote then some 1
    else (quotedRest quote cs).map (· + 1)

/-- The number of characters through the closing quote of a verbatim string, where
`""` stands for a quote. -/
def verbatimRest : List Char → Option Nat
  | [] => none
  | '"' :: '"' :: cs => (verbatimRest cs).map (· + 2)
  | '"' :: _ => some 1
  | _ :: cs => (verbatimRest cs).map (· + 1)

/-- The number of characters through the first run of `width` quotes. -/
def rawRest (width : Nat) : List Char → Option Nat
  | [] => none
  | c :: cs =>
    if (List.replicate width '"').isPrefixOf (c :: cs) then some width
    else (rawRest width cs).map (· + 1)

/-- The flaw of a literal of one line that does not end. -/
def unterminated (quote : Char) : Flaw :=
  if quote == '"' then .unterminatedString else .unterminatedCharacter

/-- The length of an interpolated string of which `n` characters have been read, at hole depth
`depth` and with `skip` characters to pass over. -/
def interpolatedRest (verbatim : Bool) : (depth skip n : Nat) → List Char → Except Snag Nat
  | _, _, _, [] => .error ⟨0, .unterminatedString⟩
  | depth, skip + 1, n, _ :: cs => interpolatedRest verbatim depth skip (n + 1) cs
  | 0, 0, n, c :: cs =>
    if c == '\n' && !verbatim then .error ⟨0, .unterminatedString⟩
    else if c == '{' then
      if cs.head? == some '{' then interpolatedRest verbatim 0 1 (n + 1) cs
      else interpolatedRest verbatim 1 0 (n + 1) cs
    else if c == '\\' && !verbatim then interpolatedRest verbatim 0 1 (n + 1) cs
    else if c == '"' then
      if verbatim && cs.head? == some '"' then interpolatedRest verbatim 0 1 (n + 1) cs
      else .ok (n + 1)
    else interpolatedRest verbatim 0 0 (n + 1) cs
  | depth + 1, 0, n, c :: cs =>
    if c == '{' then interpolatedRest verbatim (depth + 2) 0 (n + 1) cs
    else if c == '}' then interpolatedRest verbatim depth 0 (n + 1) cs
    else if c == '"' || c == '\'' then
      match quotedRest c cs with
      | some m => interpolatedRest verbatim (depth + 1) m (n + 1) cs
      | none => .error ⟨n, unterminated c⟩
    else interpolatedRest verbatim (depth + 1) 0 (n + 1) cs

/-- A mark that may stand before the opening quote of a string. -/
def isMark (c : Char) : Bool := c == '$' || c == '@'

/-- Whether a string literal starts here: a quote behind at most two marks. -/
def startsString (cs : List Char) : Bool :=
  run isMark cs ≤ 2 && (cs.dropWhile isMark).head? == some '"'

/-- The length of the string literal at the head of a text for which `startsString` holds. -/
def stringLength (cs : List Char) : Except Snag Nat :=
  let marks := cs.takeWhile isMark
  let body := cs.dropWhile isMark
  let quotes := run (· == '"') body
  let inside := body.drop 1
  if 3 ≤ quotes then
    match rawRest quotes (body.drop quotes) with
    | some n => .ok (marks.length + quotes + n)
    | none => .error ⟨0, .unterminatedRawString⟩
  else if marks.contains '$' then
    interpolatedRest (marks.contains '@') 0 0 (marks.length + 1) inside
  else
    match if marks.contains '@' then verbatimRest inside else quotedRest '"' inside with
    | some n => .ok (marks.length + 1 + n)
    | none => .error ⟨0, .unterminatedString⟩

/-- The length of a character literal, given the characters behind its opening quote. -/
def characterLength (cs : List Char) : Except Snag Nat :=
  match quotedRest '\'' cs with
  | some n => .ok (1 + n)
  | none => .error ⟨0, .unterminatedCharacter⟩

end SharpScript.Lexer
