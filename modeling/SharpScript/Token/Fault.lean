import SharpScript.Text.Quoted
import SharpScript.Token.Place

/-! # Lexical faults

## Main Definitions

* `Flaw`: why a text cannot be cut into tokens;
* `Fault`: a flaw at its place;
* `Snag`: a flaw at a distance from where scanning began, as the scanners report it.
-/

namespace SharpScript

/-- Why a text cannot be cut into tokens. -/
inductive Flaw
  | unterminatedComment
  | unterminatedString
  | unterminatedRawString
  | unterminatedCharacter
  | unexpectedCharacter (c : Char)
deriving DecidableEq, Inhabited, Repr

/-- The wording of a flaw. -/
def Flaw.message : Flaw → String
  | unterminatedComment => "unterminated comment"
  | unterminatedString => "unterminated string literal"
  | unterminatedRawString => "unterminated raw string literal"
  | unterminatedCharacter => "unterminated character literal"
  | unexpectedCharacter c => "unexpected character: " ++ Text.quoted (String.singleton c)

/-- A flaw and the place it is reported at. -/
structure Fault where
  flaw : Flaw
  place : Place
deriving DecidableEq, Inhabited, Repr

/-- A flaw `offset` characters behind the place where scanning began. -/
structure Snag where
  offset : Nat
  flaw : Flaw
deriving DecidableEq, Inhabited, Repr

/-- The fault that a snag is when `cs` is scanned from the place `p`. -/
def Snag.fault (s : Snag) (p : Place) (cs : List Char) : Fault :=
  ⟨s.flaw, p.after (cs.take s.offset)⟩

end SharpScript
