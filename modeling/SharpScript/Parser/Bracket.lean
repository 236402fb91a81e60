import SharpScript.Parser.Basic
import SharpScript.Text.Quoted

/-! # Brackets

Round, square and curly brackets nest, wherever they stand; angle brackets are operators and
count only where a list of type arguments is read.

## Main Definitions

* `Bracket`: the three kinds;
* `Parser.group`: everything from an opening bracket through the one that closes it;
* `Parser.chunk`: one token that is no bracket, or one group;
* `Parser.skipTo`: chunks up to a place;
* `Parser.typeArguments`: a list of type arguments.
-/

namespace SharpScript

/-- The kinds of brackets. -/
inductive Bracket
  | round
  | square
  | curly
deriving DecidableEq, Inhabited, Repr

namespace Bracket

/-- The opening sign. -/
def opening : Bracket → String
  | round => "("
  | square => "["
  | curly => Text.openBrace

/-- The closing sign. -/
def closing : Bracket → String
  | round => ")"
  | square => "]"
  | curly => Text.closeBrace

/-- The bracket that a token opens. -/
def opened? (t : Token) : Option Bracket :=
  [round, square, curly].find? fun b => t.isOperator b.opening

/-- The bracket that a token closes. -/
def closed? (t : Token) : Option Bracket :=
  [round, square, curly].find? fun b => t.isOperator b.closing

/-- The tokens behind the one that closes the last of the brackets `stack`, of which the
first is the innermost. -/
def close : (stack : List Bracket) → List Token → Except Failure (List Token)
  | [], ts => .ok ts
  | b :: _, [] => .error ⟨.expected (.word b.closing), []⟩
  | b :: stack, t :: ts =>
    match opened? t with
    | some inner => close (inner :: b :: stack) ts
    | none =>
      match closed? t with
      | none => close (b :: stack) ts
      | some c =>
        if c = b then close stack ts else .error ⟨.expected (.word b.closing), t :: ts⟩

end Bracket

/-- The tokens behind the sign that closes the last of `depth` lists of type arguments. -/
def closeAngles : (depth : Nat) → List Token → Except Failure (List Token)
  | 0, ts => .ok ts
  | _ + 1, [] => .error ⟨.expected (.word ">"), []⟩
  | depth + 1, t :: ts =>
    if t.reads "<" then closeAngles (depth + 2) ts
    else if t.reads ">" then closeAngles depth ts
    else closeAngles (depth + 1) ts

namespace Parser

/-- Passes from an opening bracket through the one that closes it. -/
def group : Parser Unit
  | [] => .error ⟨.expected .bracket, []⟩
  | t :: ts =>
    match Bracket.opened? t with
    | some b => (Bracket.close [b] ts).map ((), ·)
    | none => .error ⟨.expected .bracket, t :: ts⟩

/-- Passes over a group, or over one token that is no bracket. -/
def chunk : Parser Unit
  | [] => .error ⟨.unexpected, []⟩
  | t :: ts =>
    if (Bracket.opened? t).isSome then group (t :: ts)
    else if (Bracket.closed? t).isSome then .error ⟨.unexpected, t :: ts⟩
    else .ok ((), ts)

/-- Passes over chunks up to the first place where `stop` holds. -/
def skipTo (stop : List Token → Bool) : Parser Unit :=
  repeatWhile do
    if ← ahead stop then
      return false
    else
      chunk
      return true

/-- Passes over a list of type arguments, from `<` through the `>` that closes it. -/
def typeArguments : Parser Unit := do
  expect "<"
  fun ts => (closeAngles 1 ts).map ((), ·)

end Parser

end SharpScript
