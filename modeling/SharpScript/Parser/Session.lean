import SharpScript.Parser.Source

/-! # Reading a source text rule by rule

A session is a source text that is being read: the tokens that are left and the using
directives that have been met. Rules of the grammar are applied to it one after another.

## Main Definitions

* `Session`: the state;
* `Session.apply`, `Session.applyNode`, `Session.applyUnit`: applying a rule that gives a value
  alone, one that gives using directives beside it, and one that gives a compilation unit;
* `Session.position`: how many tokens have been read.
-/

namespace SharpScript

/-- A source text that is being read. -/
structure Session where
  source : Tokenized
  left : List Token
  usings : List String
deriving Inhabited, Repr

namespace Session

variable {α : Type}

/-- The session of a source text of which nothing has been read. -/
def start (source : Tokenized) : Session := ⟨source, source.tokens, []⟩

/-- The number of tokens that have been read. -/
def position (s : Session) : Nat := s.source.tokens.length - s.left.length

/-- The index of a token of the source text. -/
def indexOf (s : Session) (t : Token) : Nat :=
  s.source.tokens.findIdx fun u => u.place.offset == t.place.offset

/-- Applies a rule that gives a value alone. -/
def apply (s : Session) (rule : Parser α) : Except SourceError (α × Session) :=
  match rule s.left with
  | .ok (a, left) => .ok (a, { s with left })
  | .error failure => .error (.grammar failure s.source.stop)

/-- Applies a rule that gives a value and the using directives met on the way. -/
def applyNode (s : Session) (rule : Parser (α × List String)) :
    Except SourceError (α × Session) := do
  let ((a, usings), s) ← s.apply rule
  return (a, { s with usings := s.usings ++ usings })

/-- Applies a rule that gives a compilation unit. The unit's using directives are all
those met in the session. -/
def applyUnit (s : Session) (rule : Parser CompilationUnit) :
    Except SourceError (CompilationUnit × Session) := do
  let (unit, s) ← s.apply rule
  let usings := s.usings ++ unit.usings
  return ({ unit with usings }, { s with usings })

/-- Applies the rule for a using directive. -/
def applyUsing (s : Session) : Except SourceError Session := do
  let (text, s) ← s.apply Parser.usingDirective
  return { s with usings := s.usings ++ [text] }

end Session

end SharpScript
