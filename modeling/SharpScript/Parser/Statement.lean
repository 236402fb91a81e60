import SharpScript.Parser.Skip

/-! # Statements

A body is cut into its statements, and each statement is kept as text.

## Main Definitions

* `Parser.simpleStatement`: a statement through its `;`, or a local function through its body;
* `Parser.statement`: any statement;
* `Parser.block`: the statements of a block.

## Design Notes

A local function looks like an expression up to its body. A brace ends it when the statement
starts like a declaration, nothing has been assigned, and the brace follows the parameters or a
`where` clause.
-/

namespace SharpScript.Parser

/-- The words that may stand before a local function. -/
def localModifiers : List String := ["async", "extern", "static", "unsafe"]

/-- Whether a statement may be a local function: behind its modifiers stands an identifier that
starts no other statement. -/
def mayBeFunction (ts : List Token) : Bool :=
  match ts.dropWhile fun t => localModifiers.contains t.text && !t.kind.isLiteral with
  | [] => false
  | t :: _ => t.kind.isIdentifier && !(["yield", "await"].contains t.text)

/-- What has been seen of a simple statement: an assignment, a `where`, and, just before, a
group in round brackets. -/
structure Seen where
  assigned : Bool
  constrained : Bool
  parenthesized : Bool
deriving DecidableEq, Inhabited, Repr

/-- Passes over one chunk of a simple statement, where `mayDeclare` says that the statement may
be a local function. Says whether the statement is over. -/
def statementChunk (mayDeclare : Bool) (seen : Seen) : Parser (Seen ⊕ Unit) := do
  if ← ahead (Ahead.isOperator [";"]) then
    advance
    return .inr ()
  else if ← ahead (Ahead.isOperator [Text.openBrace]) then
    group
    if mayDeclare && !seen.assigned && (seen.parenthesized || seen.constrained) then
      return .inr ()
    else
      return .inl { seen with parenthesized := false }
  else
    let assigns ← ahead (Ahead.isOperator assignments)
    let constrains ← ahead fun ts => Ahead.isIdentifier 0 ts && Ahead.text 0 ts == "where"
    let parenthesizes ← ahead (Ahead.isOperator ["("])
    chunk
    return .inl ⟨seen.assigned || assigns, seen.constrained || constrains, parenthesizes⟩

/-- Passes over a statement through its `;`, or over a local function through its body. -/
def simpleStatement : Parser Unit := do
  let mayDeclare ← ahead mayBeFunction
  loop (statementChunk mayDeclare) ⟨false, false, false⟩

/-- Passes over a `catch` clause, if there is one, and says whether there was. -/
def catchClause : Parser Bool := do
  if ← accept "catch" then
    if ← isAt "(" then group
    if ← accept "when" then group
    group
    return true
  else
    return false

/-- Whether a label comes next. -/
def startsLabel : List Token → Bool
  | t :: u :: _ => t.kind.isIdentifier && u.isOperator ":"
  | _ => false

/-- Whether a statement with a head in brackets and one statement under it comes next. -/
def startsNested (ts : List Token) : Bool :=
  Ahead.readsAny ["while", "for", "foreach", "lock", "fixed"] ts ||
    (Ahead.reads "using" ts && Ahead.text 1 ts == "(")

/-- Whether a block with a word before it comes next. -/
def startsMarkedBlock (ts : List Token) : Bool :=
  Ahead.readsAny ["checked", "unchecked", "unsafe"] ts && Ahead.text 1 ts == Text.openBrace

/-- One statement, given how to pass over the statements in it, but no block, label or empty
statement. -/
def statementForm (statement : Parser Unit) : Parser Unit := do
  if ← accept "if" then
    group
    statement
    if ← accept "else" then statement
  else if ← ahead startsNested then
    advance
    group
    statement
  else if ← accept "do" then
    statement
    expect "while"
    group
    expect ";"
  else if ← accept "try" then
    group
    repeatWhile catchClause
    if ← accept "finally" then group
  else if ← ahead fun ts => Ahead.reads "switch" ts && Ahead.text 1 ts == "(" then
    advance
    group
    group
  else if ← ahead startsMarkedBlock then
    advance
    group
  else
    simpleStatement

/-- One statement, given how to pass over the statements in it. -/
def statementStep (statement : Parser Unit) : Parser Unit := do
  if ← isAt Text.openBrace then
    group
  else if ← isAt ";" then
    advance
  else if ← ahead startsLabel then
    advance
    advance
    statement
  else if ← ahead fun ts =>
      Ahead.reads "await" ts && ["foreach", "using"].contains (Ahead.text 1 ts) then
    advance
    statementForm statement
  else
    statementForm statement

/-- Passes over one statement. -/
def statement : Parser Unit := fix (fun again _ => statementStep (again ())) ()

/-- The statements of a block, each as its source text. -/
def block : Parser (List String) := do
  expect Text.openBrace
  let statements ← gather do
    if ← isAt Text.closeBrace then return none
    else if ← atEnd then fail (.expected (.word Text.closeBrace))
    else return some [← verbatim statement]
  expect Text.closeBrace
  return statements

end SharpScript.Parser
