import SharpScript.Parser.Skip
import SharpScript.Text.Trim
import SharpScript.Tree.Basic

/-! # Annotations and modifiers

## Main Definitions

* `Parser.attributeLists`: the annotations before a declaration;
* `Parser.modifiers`: its modifiers;
* `Parser.lead`: both of them, and where they start.

## Design Notes

A list of annotations that is addressed to the assembly or to the module belongs to no
declaration and is dropped.
-/

namespace SharpScript.Parser

/-- The arguments of an annotation, each as its source text. -/
def attributeArguments : Parser (List String) := do
  expect "("
  if ← accept ")" then
    return []
  else
    let args ← collect (Text.trim <$> verbatim (expression [",", ")"])) (accept ",")
    expect ")"
    return args

/-- One annotation. -/
def oneAttribute : Parser Annotation := do
  let pos ← here
  let name ← verbatim typeReference
  let args ← if ← isAt "(" then attributeArguments else pure []
  return ⟨pos, name, args⟩

/-- What a list of annotations is addressed to; nothing, unless a word
and a colon come next. -/
def attributeTarget : Parser String := do
  let target ← ahead fun ts =>
    if Ahead.isWord 0 ts && Ahead.text 1 ts == ":" then some (Ahead.text 0 ts) else none
  match target with
  | some w =>
    advance
    advance
    return w
  | none => return ""

/-- The annotations of one list that belong to a declaration. -/
def attributeList : Parser (List Annotation) := do
  expect "["
  let target ← attributeTarget
  let annotations ← collect oneAttribute (commaBefore "]")
  expect "]"
  return if ["assembly", "module"].contains target then [] else annotations

/-- The annotations of all lists that come next. -/
def attributeLists : Parser (List Annotation) :=
  gather do
    if ← isAt "[" then return some (← attributeList) else return none

/-- The words that are modifiers wherever they stand. -/
def modifierWords : List String := [
  "abstract", "const", "extern", "fixed", "internal", "new", "override", "private",
  "protected", "public", "readonly", "ref", "sealed", "static", "unsafe",
  "virtual", "volatile"]

/-- The words that are modifiers when another word follows. -/
def contextualWords : List String := ["async", "file", "partial", "required"]

/-- The modifier that comes next. -/
def modifier? : List Token → Option String
  | [] => none
  | t :: ts =>
    if (t.kind == .keyword && modifierWords.contains t.text) ||
        (t.kind.isIdentifier && contextualWords.contains t.text && Ahead.isWord 0 ts) then
      some t.text
    else none

/-- All modifiers that come next. -/
def modifiers : Parser (List String) :=
  gather do
    match ← ahead modifier? with
    | some w =>
      advance
      return some [w]
    | none => return none

/-- What stands before a declaration or a member. -/
def lead : Parser Lead := do
  let pos ← here
  let annotations ← attributeLists
  return ⟨pos, annotations, ← modifiers⟩

end SharpScript.Parser
