import SharpScript.Token.Basic

/-! # Grammar failures

A rule of the grammar that does not apply fails at a token. A failure keeps the tokens that
were left, so it points at the first of them, or at the end of the text when there are none.

## Main Definitions

* `Expectation`, `Problem`: what went wrong;
* `Failure`: a problem and the tokens that were left;
* `Failure.message`, `Failure.place`: how a failure is reported.
-/

namespace SharpScript

/-- What a rule was looking for. -/
inductive Expectation
  | word (w : String)
  | identifier
  | type
  | name
  | accessor
  | bracket
  | expression
deriving DecidableEq, Inhabited, Repr

/-- Why a rule does not apply. A rule has `stalled` when it reads no token where it must:
before it repeats itself, or where the source text of what it reads is kept. -/
inductive Problem
  | expected (what : Expectation)
  | unexpected
  | unexpectedInMember
  | stalled
deriving DecidableEq, Inhabited, Repr

/-- A problem and the tokens that were left when it arose. -/
structure Failure where
  problem : Problem
  left : List Token
deriving DecidableEq, Inhabited, Repr

/-- The wording of an expectation. -/
def Expectation.shown : Expectation → String
  | word w => "'" ++ w ++ "'"
  | identifier => "identifier"
  | type => "type"
  | name => "name"
  | accessor => "accessor"
  | bracket => "bracket"
  | expression => "expression"

/-- The wording of what was found: a token in quotes, or the end. -/
def Failure.found : Option Token → String
  | some t => "'" ++ t.text ++ "'"
  | none => "end of input"

namespace Failure

/-- The wording of a failure. -/
def message (f : Failure) : String :=
  match f.problem with
  | .expected what => "expected " ++ what.shown ++ ", got " ++ found f.left.head?
  | .unexpected => "unexpected " ++ found f.left.head?
  | .unexpectedInMember => "unexpected " ++ found f.left.head? ++ " in member declaration"
  | .stalled => "stalled at " ++ found f.left.head?

/-- The place of a failure in a text that ends at `stop`. -/
def place (f : Failure) (stop : Place) : Place :=
  (f.left.head?.map Token.place).getD stop

end Failure

end SharpScript
