import SharpScript.Parser.Bracket

/-! # Passing over what is kept as text

Types, expressions, initial values and whole members are passed over: where they end is found,
and what stands in them is not looked at.

## Main Definitions

* `Parser.typeReference`: a type;
* `Parser.expression`: an expression, up to a stop sign;
* `Parser.initializer`: the initial value of a variable;
* `Parser.constraints`: the `where` clauses of a declaration;
* `Parser.restOfMember`: a member with no counterpart.
-/

namespace SharpScript.Parser

/-! ## Types -/

/-- Passes over a part of a qualified name behind its first word: a further word or type
arguments.  Says whether there was one. -/
def typePart : Parser Bool := do
  if ← ahead (Ahead.readsAny [".", "::"]) then
    advance
    if ← ahead (Ahead.isWord 0) then advance else fail (.expected .name)
    return true
  else if ← isAt "<" then
    typeArguments
    return true
  else
    return false

/-- Passes over a suffix of a type: `?`, `*`, or the brackets of an array.  Says
whether there was one. -/
def typeSuffix : Parser Bool := do
  if ← ahead (Ahead.readsAny ["?", "*"]) then
    advance
    return true
  else if ← ahead fun ts => Ahead.reads "[" ts && ["]", ","].contains (Ahead.text 1 ts) then
    group
    return true
  else
    return false

/-- Passes over a type: a tuple or a qualified name, and its suffixes. -/
def typeReference : Parser Unit := do
  if ← isAt "(" then
    group
  else
    if ← ahead (Ahead.isWord 0) then advance else fail (.expected .type)
    repeatWhile typePart
  repeatWhile typeSuffix

/-! ## Expressions -/

/-- Passes over an expression up to the first of the operators `stops` that is in no brackets.
An expression has at least one token. -/
def expression (stops : List String) : Parser Unit := do
  if ← ahead (Ahead.isOperator stops) then fail (.expected .expression)
  else skipTo (Ahead.isOperator stops)

/-- Whether another variable of a field comes next: a name and what may stand behind one. -/
def startsVariable (ts : List Token) : Bool :=
  Ahead.isIdentifier 0 ts && ["=", ",", ";", "["].contains (Ahead.text 1 ts)

/-- Whether an initial value ends here: at `;`, or at a comma that
introduces another variable. -/
def endsInitializer (ts : List Token) : Bool :=
  Ahead.isOperator [";"] ts || (Ahead.isOperator [","] ts && startsVariable ts.tail)

/-- Passes over an initial value.  It has at least one token. -/
def initializer : Parser Unit := do
  if ← ahead endsInitializer then fail (.expected .expression) else skipTo endsInitializer

/-! ## Declarations -/

/-- Passes over the rest of a declaration's head up to one of `stops`, not looking into round
brackets. -/
def restOfHead (stops : List String) : Parser Unit :=
  repeatWhile do
    if ← ahead (Ahead.readsAny stops) then return false
    else if ← atEnd then fail (.expected (.word Text.openBrace))
    else if ← isAt "(" then
      group
      return true
    else
      advance
      return true

/-- Passes over the `where` clauses of a declaration. -/
def constraints : Parser Unit := do
  if ← isAt "where" then restOfHead [Text.openBrace, ";", "=>"]

/-- The operators that assign. -/
def assignments : List String :=
  ["=", "=>", "+=", "-=", "*=", "/=", "%=", "&=", "|=", "^=", "<<=", "??="]

/-- Passes over a member through its `;` or its closing brace. Behind an assignment, a brace
belongs to the value and does not end the member. -/
def restOfMember : Parser Unit :=
  loop (fun assigned => do
    if ← ahead (Ahead.isOperator [";"]) then
      advance
      return .inr ()
    else if ← ahead (Ahead.isOperator [Text.openBrace]) then
      group
      if assigned then
        return .inl true
      else
        let _ ← accept ";"
        return .inr ()
    else
      let assigns ← ahead (Ahead.isOperator assignments)
      chunk
      return .inl (assigned || assigns)) false

end SharpScript.Parser
