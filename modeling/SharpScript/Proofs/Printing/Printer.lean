import SharpScript.Parser.Declaration
import SharpScript.Proofs.Lexer.Lines

/-! # Printing declarations

Declarations are printed as source text, with each word, sign, name and text of the
tree on a line of its own.

## Main Definitions

* `Item.lines`, `CompilationUnit.print`: declarations as lines, and the text made of them;
* `readsTo`, `isVerbatim`: what a rule reads to its end, and a text that
  begins and ends on a token;
* `Item.isPrintable`, `CompilationUnit.isPrintable`: the trees that are printed faithfully.

## Design Notes

A tree keeps no types of members and parameters, so the same type `T` is printed everywhere.

The texts of a tree must be what they stand for: each of them begins and ends on a token,
and the rule for types, expressions, initial values or statements reads it to its end when
it stands alone.  A rule that stops at a sign is given that sign.  A statement behind
another one must not start with `else`, `catch` or `finally`, which would make it a part of
the statement before it.
-/

namespace SharpScript

/-! ## Lines -/

/-- Lines with commas between them. -/
def commaLines (lines : List (List String)) : List String := [","].intercalate lines

/-- An annotation. -/
def Annotation.lines (a : Annotation) : List String :=
  ["[", a.name] ++
    (if a.args.isEmpty then [] else ["("] ++ commaLines (a.args.map ([·])) ++ [")"]) ++ ["]"]

/-- What stands before a declaration or a member. -/
def Lead.lines (l : Lead) : List String :=
  l.annotations.flatMap Annotation.lines ++ l.modifiers

/-- A parameter and its default value. -/
def Param.lines (p : Param) : List String :=
  ["T", p.name] ++ (match p.initial with
    | some value => ["=", value]
    | none => [])

/-- A list of parameters. -/
def paramLines (ps : List Param) : List String :=
  ["("] ++ commaLines (ps.map Param.lines) ++ [")"]

/-- A body, where `;` stands for none. -/
def bodyLines : Option (List String) → List String
  | some statements => [Text.openBrace] ++ statements ++ [Text.closeBrace]
  | none => [";"]

/-- A member behind what stands before it. -/
def MemberForm.lines : MemberForm → List String
  | .method name params body => ["T", name] ++ paramLines params ++ bodyLines body
  | .constructor name params body => [name] ++ paramLines params ++ bodyLines body
  | .field declarators => ["T"] ++ commaLines (declarators.map ([·])) ++ [";"]
  | .property name getter setter =>
    ["T", name, Text.openBrace] ++ (if getter then ["get", ";"] else []) ++
      (if setter then ["set", ";"] else []) ++ [Text.closeBrace]
  | .other _ | .unknown => []

/-- The keyword of a type. -/
def TypeSort.word : TypeSort → String
  | .classType => "class"
  | .interfaceType => "interface"

/-- The bases of a type. -/
def baseLines (bases : List String) : List String :=
  if bases.isEmpty then [] else [":"] ++ commaLines (bases.map ([·]))

mutual

/-- A declaration. -/
def Item.lines : Item → List String
  | .member m => m.lead.lines ++ m.form.lines
  | .scope _ name items =>
    ["namespace", name, Text.openBrace] ++ itemLines items ++ [Text.closeBrace]
  | .type sort lead name bases items =>
    lead.lines ++ [sort.word, name] ++ baseLines bases ++ [Text.openBrace] ++
      itemLines items ++ [Text.closeBrace]
  | .enumeration lead name members =>
    lead.lines ++ ["enum", name, Text.openBrace] ++ commaLines
      (members.map fun m => [m.text]) ++ [Text.closeBrace]
  | .skipped .. => []

/-- Declarations in order. -/
def itemLines : List Item → List String
  | [] => []
  | i :: is => i.lines ++ itemLines is

end

/-- All that a source text declares, the using directives first. -/
def CompilationUnit.print (u : CompilationUnit) : String :=
  "\n".intercalate (u.usings ++ itemLines u.items)

/-! ## Texts -/

/-- A sign that stands alone. -/
def signToken (w : String) : Token := ⟨.operator, w, "", .start⟩

/-- Whether the rule `p` reads the tokens `w` to their end, where the
tokens `close` come behind. -/
def readsTo (p : Parser Unit) (close w : List Token) : Bool :=
  decide (p (w ++ close) = .ok ((), close))

/-- Whether a text begins and ends on a token, and its tokens satisfy `f`. -/
def isVerbatim (f : List Token → Bool) (s : String) : Bool :=
  match tokenize s with
  | .ok t => Token.spelling t.tokens == s && f t.tokens
  | .error _ => false

/-- Types. -/
def isType : String → Bool := isVerbatim (readsTo Parser.typeReference [])

/-- Arguments of annotations and default values of parameters. -/
def isArgument : String → Bool :=
  isVerbatim (readsTo (Parser.expression [",", ")"]) [signToken ")"])

/-- Passes over what may stand behind the name of a field's variable. -/
def Parser.variableRest : Parser Unit := do
  if ← isAt "[" then group
  if ← accept "=" then initializer

/-- Variables of fields. -/
def isVariable : String → Bool :=
  isVerbatim fun
    | [] => false
    | name :: rest => name.kind.isIdentifier && !Lexer.keywords.contains name.text &&
      readsTo Parser.variableRest [signToken ";"] rest

/-- Statements. -/
def isStatement : String → Bool := isVerbatim (readsTo Parser.statement [])

/-- Whether a text starts with a word that goes on with the statement before it. -/
def continues (s : String) : Bool :=
  match tokenize s with
  | .ok t => Ahead.readsAny ["else", "catch", "finally"] t.tokens
  | .error _ => false

/-- Using directives, whose only `;` is their last token. -/
def isDirective : String → Bool :=
  isVerbatim fun ts => Parser.startsUsing ts && ts.getLast?.any (·.reads ";") &&
    ts.dropLast.all fun t => !t.reads ";"

/-- Names with points between their parts. -/
def isDotted (s : String) : Bool :=
  (s.toList.splitOn '.').all fun part => isName (.ofList part)

/-! ## Trees -/

/-- Annotations that are printed faithfully. -/
def Annotation.isPrintable (a : Annotation) : Bool := isType a.name && a.args.all isArgument

/-- Leads that are printed faithfully. -/
def Lead.isPrintable (l : Lead) : Bool :=
  l.annotations.all Annotation.isPrintable &&
    l.modifiers.all fun w => (Parser.modifierWords ++ Parser.contextualWords).contains w

/-- Parameters that are printed faithfully. -/
def Param.isPrintable (p : Param) : Bool := isName p.name && p.initial.all isArgument

/-- Bodies that are printed faithfully. -/
def isPrintableBody (body : Option (List String)) : Bool :=
  body.all fun statements => statements.all isStatement && statements.tail.all
    fun s => !continues s

/-- Members of the type `owner` that are printed faithfully. -/
def MemberForm.isPrintable (owner : String) : MemberForm → Bool
  | .method name params body =>
    isName name && params.all Param.isPrintable && isPrintableBody body
  | .constructor name params body =>
    name == owner && params.all Param.isPrintable && isPrintableBody body
  | .field declarators => !declarators.isEmpty && declarators.all isVariable
  | .property name _ _ => isName name
  | .other _ | .unknown => false

/-- Members of enumerations that are printed faithfully: the text is the name, or
the name and the value. -/
def EnumMember.isPrintable (m : EnumMember) : Bool :=
  isVerbatim (fun
    | [] => false
    | name :: rest => name.kind.isIdentifier && name.text == m.name &&
      match rest with
      | [] => m.value == none
      | sign :: value => sign.reads "=" && m.value == some (Token.spelling value) &&
        readsTo (Parser.expression [",", Text.closeBrace])
          [signToken Text.closeBrace] value) m.text

mutual

/-- Declarations that are printed faithfully, in the type `owner` or in no type: members stand
in types, and namespaces do not. -/
def Item.isPrintable (owner : Option String) : Item → Bool
  | .member m => m.lead.isPrintable && owner.any m.form.isPrintable
  | .scope _ name items => owner.isNone && isDotted name && arePrintable none items
  | .type _ lead name bases items =>
    lead.isPrintable && isName name && bases.all isType && arePrintable (some name) items
  | .enumeration lead name members =>
    lead.isPrintable && isName name && members.all EnumMember.isPrintable
  | .skipped .. => false

/-- Lists of declarations that are printed faithfully. -/
def arePrintable (owner : Option String) : List Item → Bool
  | [] => true
  | i :: is => i.isPrintable owner && arePrintable owner is

end

/-- Trees that are printed faithfully. -/
def CompilationUnit.isPrintable (u : CompilationUnit) : Bool :=
  u.usings.all isDirective && arePrintable none u.items

end SharpScript
