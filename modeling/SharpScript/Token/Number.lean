import SharpScript.Text.Letter
import SharpScript.Token.Trivia

/-! # Words and numbers

## Main Definitions

* `isWordStart`, `isWordPart`: the characters of identifiers and keywords;
* `numberLength`: the length of the number at the head of a text.
-/

namespace SharpScript.Lexer

open Text (isDigit isLetter)

/-- A character that an identifier starts with: a letter or the underscore. -/
def isWordStart (c : Char) : Bool := isLetter c || c == '_'

/-- A character that stands in an identifier: as at its start, or a digit. -/
def isWordPart (c : Char) : Bool := isWordStart c || isDigit c

/-- A digit, or the underscore that groups digits. -/
def isDigitPart (c : Char) : Bool := isDigit c || c == '_'

/-- The letters of type suffixes. -/
def isSuffix (c : Char) : Bool :=
  ['l', 'L', 'u', 'U', 'f', 'F', 'd', 'D', 'm', 'M'].contains c

/-- Whether a digit comes next. -/
def digitNext (cs : List Char) : Bool := cs.head?.any isDigit

/-- The length of a fraction: a point and a digit, and then digits. -/
def fractionLength : List Char → Nat
  | '.' :: cs => if digitNext cs then 1 + run isDigitPart cs else 0
  | _ => 0

/-- The length of an exponent: `e`, a sign or none, and digits. -/
def exponentLength : List Char → Nat
  | e :: cs =>
    if e == 'e' || e == 'E' then
      if digitNext cs then 1 + run isDigit cs
      else match cs with
        | sign :: ds =>
          if (sign == '+' || sign == '-') && digitNext ds then 2 + run isDigit ds else 0
        | [] => 0
    else 0
  | [] => 0

/-- The length of a decimal number: digits, a fraction, an exponent and
suffixes, each if present.
-/
def decimalLength (cs : List Char) : Nat :=
  let whole := run isDigitPart cs
  let fraction := whole + fractionLength (cs.drop whole)
  let exponent := fraction + exponentLength (cs.drop fraction)
  exponent + run isSuffix (cs.drop exponent)

/-- The length of the number at the head of a text. Behind `0x` or `0b`, all letters and digits
belong to it. -/
def numberLength (cs : List Char) : Nat :=
  match cs with
  | '0' :: base :: ds =>
    if ['x', 'X', 'b', 'B'].contains base then 2 + run isWordPart ds else decimalLength cs
  | _ => decimalLength cs

/-- Whether a number starts here: a digit, or a point and a digit. -/
def startsNumber : List Char → Bool
  | '.' :: cs => digitNext cs
  | cs => digitNext cs

end SharpScript.Lexer
