import SharpScript.Parser.Member

/-! # Declarations

## Main Definitions

* `Parser.typeDeclaration`: a class, an interface, an enumeration, or a type that is skipped;
* `Parser.member`: a member of a class or interface, which may be a type;
* `Parser.node`, `Parser.nodes`: what stands in a namespace;
* `Parser.compilationUnit`: a whole source text.

## Design Notes

Using directives may stand in namespaces and count for the whole source text, so a rule that
reads a namespace gives them beside what it reads.
-/

namespace SharpScript.Parser

/-! ## Types -/

/-- The bases of a type, each as its source text. -/
def baseList : Parser (List String) := do
  if ← accept ":" then
    collect (do
      let base ← Text.trim <$> verbatim typeReference
      if ← isAt "(" then group
      return base) (accept ",")
  else
    return []

/-- A class or an interface behind its keyword, given how to read its members. -/
def typeBody (member : String → Parser Item) (sort : TypeSort) (lead : Lead) :
    Parser Item := do
  let name ← identifier
  if ← isAt "<" then typeArguments
  if ← isAt "(" then group
  let bases ← baseList
  constraints
  expect Text.openBrace
  let items ← gather do
    if ← isAt Text.closeBrace then return none
    else if ← atEnd then fail (.expected (.word Text.closeBrace))
    else if ← accept ";" then return some []
    else return some [← member name.text]
  expect Text.closeBrace
  let _ ← accept ";"
  return .type sort lead name.text bases items

/-- One member of an enumeration. -/
def enumMember : Parser EnumMember := do
  let _ ← attributeLists
  let pos ← here
  let ((name, value), text) ← spelled do
    let name ← identifier
    let value ←
      if ← accept "=" then pure (some (← verbatim (expression [",", Text.closeBrace])))
      else pure none
    return (name.text, value)
  return ⟨pos, name, value, text⟩

/-- An enumeration behind its keyword. -/
def enumBody (lead : Lead) : Parser Item := do
  let name ← identifier
  if ← accept ":" then typeReference
  expect Text.openBrace
  let members ←
    if ← isAt Text.closeBrace then pure []
    else collect enumMember (commaBefore Text.closeBrace)
  expect Text.closeBrace
  let _ ← accept ";"
  return .enumeration lead name.text members

/-- A structure or a record, of which only the name is kept. -/
def skippedType (pos : Pos) (kind : String) : Parser Item := do
  advance
  if ← ahead (Ahead.readsAny ["class", "struct"]) then advance
  let name ← identifier
  restOfHead [Text.openBrace, ";"]
  if ← isAt Text.openBrace then group
  let _ ← accept ";"
  return .skipped pos name.text (some kind)

/-- A delegate behind its keyword, of which only the name is kept. -/
def skippedDelegate (pos : Pos) : Parser Item := do
  typeReference
  let name ← identifier
  restOfMember
  return .skipped pos name.text (some "delegate")

/-- Whether a record comes next. -/
def startsRecord (ts : List Token) : Bool :=
  Ahead.reads "record" ts &&
    (Ahead.isIdentifier 1 ts || ["class", "struct"].contains (Ahead.text 1 ts))

/-- A type, given how to read its members, or nothing if none comes next. -/
def typeDeclaration (member : String → Parser Item) (lead : Lead) : Parser (Option Item) := do
  if ← accept "class" then return some (← typeBody member .classType lead)
  else if ← accept "interface" then return some (← typeBody member .interfaceType lead)
  else if ← accept "enum" then return some (← enumBody lead)
  else if ← isAt "struct" then return some (← skippedType lead.pos "struct")
  else if ← ahead startsRecord then return some (← skippedType lead.pos "record")
  else if ← accept "delegate" then return some (← skippedDelegate lead.pos)
  else return none

/-- One member of the type `owner`, given how to read the members of types in it. -/
def memberStep (member : String → Parser Item) (owner : String) : Parser Item := do
  let lead ← lead
  match ← typeDeclaration member lead with
  | some item => return item
  | none => return .member ⟨lead, ← memberForm owner⟩

/-- One member of the type `owner`. -/
def member : String → Parser Item := fix memberStep

/-! ## Namespaces -/

/-- Whether a using directive comes next. -/
def startsUsing (ts : List Token) : Bool :=
  (Ahead.reads "global" ts && Ahead.text 1 ts == "using") ||
    (Ahead.reads "using" ts && Ahead.text 1 ts != "(")

/-- A using directive, through its `;`. -/
def usingDirective : Parser String :=
  verbatim do
    repeatWhile do
      if ← isAt ";" then return false
      else if ← atEnd then fail (.expected (.word ";"))
      else
        advance
        return true
    advance

/-- What stands in a namespace up to its closing brace, or up to the end of the text if
`closing` is false, given how to read one declaration. -/
def nodesWith (node : Parser (Item × List String)) (closing : Bool) : Parser CompilationUnit :=
  gather do
    if ← atEnd then
      if closing then fail (.expected (.word Text.closeBrace)) else return none
    else if closing && (← isAt Text.closeBrace) then return none
    else if ← accept ";" then return some ∅
    else if ← ahead startsUsing then return some ⟨[← usingDirective], []⟩
    else if ← ahead fun ts => Ahead.reads "extern" ts && Ahead.text 1 ts == "alias" then
      restOfMember
      return some ∅
    else
      let (item, usings) ← node
      return some ⟨usings, [item]⟩

/-- A namespace and the using directives in it, given how to read one declaration.  Behind `;`
it reaches to the end of the text. -/
def namespaceWith (node : Parser (Item × List String)) (pos : Pos) :
    Parser (Item × List String) := do
  expect "namespace"
  let parts ← collect (Token.text <$> identifier) (accept ".")
  let name := ".".intercalate parts
  if ← accept ";" then
    let inner ← nodesWith node false
    return (.scope pos name inner.items, inner.usings)
  else
    expect Text.openBrace
    let inner ← nodesWith node true
    expect Text.closeBrace
    return (.scope pos name inner.items, inner.usings)

/-- One declaration or statement of a namespace, given how to read those in it. -/
def nodeStep (node : Parser (Item × List String)) : Parser (Item × List String) := do
  let lead ← lead
  if ← isAt "namespace" then
    namespaceWith node lead.pos
  else
    match ← typeDeclaration member lead with
    | some item => return (item, [])
    | none =>
      statement
      return (.skipped lead.pos "" (some "statement"), [])

/-- One declaration or statement of a namespace, and the using directives in it. -/
def node : Parser (Item × List String) := fix (fun again _ => nodeStep (again ())) ()

/-- What stands in a namespace. -/
def nodes (closing : Bool) : Parser CompilationUnit := nodesWith node closing

/-- A namespace and the using directives in it. -/
def namespaceAt (pos : Pos) : Parser (Item × List String) := namespaceWith node pos

/-- All that a source text declares. -/
def compilationUnit : Parser CompilationUnit := nodes false

end SharpScript.Parser
