import SharpScript.Parser.Attribute
import SharpScript.Parser.Statement

/-! # Members

The members of classes and interfaces, apart from the types that are nested in them.

## Main Definitions

* `Parser.parameters`, `Parser.body`: the parts of methods and constructors;
* `Parser.memberName`: a name, behind the interface that it may be qualified with;
* `Parser.method`, `Parser.constructor`, `Parser.property`,
  `Parser.field`: the forms of members;
* `Parser.memberForm`: any of them.
-/

namespace SharpScript.Parser

/-! ## Parameters and bodies -/

/-- The keywords that may stand before a parameter. -/
def parameterWords : List String := ["in", "out", "params", "readonly", "ref", "this"]

/-- Whether a modifier of a parameter comes next. -/
def startsParameterModifier (ts : List Token) : Bool :=
  (!Ahead.isIdentifier 0 ts && parameterWords.contains (Ahead.text 0 ts)) ||
    (Ahead.reads "scoped" ts && Ahead.isWord 1 ts)

/-- One parameter. -/
def parameter : Parser Param := do
  let _ ← attributeLists
  let pos ← here
  repeatWhile do
    if ← ahead startsParameterModifier then
      advance
      return true
    else
      return false
  typeReference
  let name ← identifier
  let initial ←
    if ← accept "=" then pure (some (← verbatim (expression [",", ")"]))) else pure none
  return ⟨pos, name.text, initial⟩

/-- The parameters of a method or constructor. -/
def parameters : Parser (List Param) := do
  expect "("
  if ← accept ")" then
    return []
  else
    let params ← collect parameter (accept ",")
    expect ")"
    return params

/-- The statements of a body. A body of one expression is a statement, which returns the
expression if `returns` holds, and `;` is no body. -/
def body (returns : Bool) : Parser (Option (List String)) := do
  if ← isAt Text.openBrace then
    return some (← block)
  else if ← accept "=>" then
    let text ← verbatim (expression [";"])
    expect ";"
    return some [(if returns then "return " else "") ++ text ++ ";"]
  else
    expect ";"
    return none

/-! ## Names -/

/-- The token of a member's name, behind the interface that the name may be qualified with.
What looks like type arguments is read only if a point follows it. -/
def memberName : Parser Token := do
  let first ← identifier
  loop (fun name => do
    let start ← get
    if ← isAt "<" then typeArguments
    if ← accept "." then
      if ← isAt "this" then return .inr name else return .inl (← identifier)
    else
      set start
      return .inr name) first

/-! ## The forms of members -/

/-- A method behind its name, where `returns` says that it has a value. -/
def method (name : String) (returns : Bool) : Parser MemberForm := do
  if ← isAt "<" then typeArguments
  let params ← parameters
  constraints
  return .method name params (← body returns)

/-- A constructor.  The call of another constructor before its body is dropped. -/
def constructor : Parser MemberForm := do
  let name ← identifier
  let params ← parameters
  if ← accept ":" then
    advance
    if ← isAt "(" then group
  return .constructor name.text params (← body false)

/-- The words that name accessors. -/
def accessorWords : List String := ["get", "set", "init", "add", "remove"]

/-- Passes over the body of an accessor. -/
def accessorBody : Parser Unit := do
  if ← isAt Text.openBrace then
    group
  else if ← accept "=>" then
    expression [";"]
    expect ";"
  else
    expect ";"

/-- The word of one accessor. -/
def accessor : Parser String := do
  let _ ← attributeLists
  let _ ← modifiers
  if ← ahead fun ts =>
      Ahead.isIdentifier 0 ts && !accessorWords.contains (Ahead.text 0 ts) then
    fail (.expected .accessor)
  else
    let word ← identifier
    accessorBody
    return word.text

/-- A property behind its name. -/
def property (name : String) : Parser MemberForm := do
  if ← accept "=>" then
    expression [";"]
    expect ";"
    return .property name true false
  else
    expect Text.openBrace
    let words ← gather do
      if ← isAt Text.closeBrace then return none else return some [← accessor]
    expect Text.closeBrace
    if ← accept "=" then
      expression [";"]
      expect ";"
    return .property name (words.contains "get") (words.contains "set")

/-- The source text of a variable of a field, behind its name. -/
def fieldVariable (name : Token) : Parser String := do
  let (_, rest) ← consumed do
    if ← isAt "[" then group
    if ← accept "=" then initializer
  return Token.spelling (name :: rest)

/-- A field behind the name of its first variable. -/
def field (name : Token) : Parser MemberForm := do
  let first ← fieldVariable name
  let rest ← gather do
    if ← accept "," then return some [← fieldVariable (← identifier)] else return none
  expect ";"
  return .field (first :: rest)

/-- A member that starts with a type. -/
def typedMember : Parser MemberForm := do
  let type ← verbatim typeReference
  if ← isAt "operator" then
    restOfMember
    return .other "operator"
  else if ← isAt "this" then
    restOfMember
    return .other "indexer"
  else
    let name ← memberName
    if ← ahead (Ahead.readsAny ["<", "("]) then method name.text (type != "void")
    else if ← ahead (Ahead.readsAny [Text.openBrace, "=>"]) then property name.text
    else if ← ahead (Ahead.readsAny ["=", ";", ",", "["]) then field name
    else fail .unexpectedInMember

/-- Any member of the type `owner` that is no type. -/
def memberForm (owner : String) : Parser MemberForm := do
  if ← isAt "~" then
    restOfMember
    return .other "destructor"
  else if ← isAt "event" then
    restOfMember
    return .other "event"
  else if ← ahead (Ahead.readsAny ["implicit", "explicit"]) then
    restOfMember
    return .other "conversion"
  else if ← ahead fun ts =>
      Ahead.isIdentifier 0 ts && Ahead.text 0 ts == owner && Ahead.text 1 ts == "(" then
    constructor
  else
    typedMember

end SharpScript.Parser
