import SharpScript.Proofs.Lexer.Spells

/-! # The syntax of types

Types as trees, with the source text of each and the contents of the tokens that it is made of.

## Main Definitions

* `Identifier`: identifiers as they are written;
* `TypeSyntax`: qualified names with type arguments, tuples, arrays,
  pointers and nullable types;
* `TupleElements`: the elements of tuples, with names or without;
* `TypeSyntax.text`: a type as source text;
* `TypeSyntax.contents`: the kinds and texts of its tokens.

## Design Notes

A type that ends in `?` is not made nullable once more, since `??` is a sign of its own.  So a
type is a `SolidType`, which does not end in `?`, or one with a single `?` behind it; what
stands in brackets or before them is any type.

The texts of types have a gap behind the commas of lists, which may be empty, a blank before
the names of tuple elements, and no other gaps.
-/

namespace SharpScript

/-- Words: a character that starts words, and others that are parts of words. -/
def isWordShaped (s : String) : Bool :=
  match s.toList with
  | [] => false
  | c :: v => Lexer.isWordStart c && v.all Lexer.isWordPart

/-- An identifier as it is written.  A keyword is one only if it is escaped. -/
structure Identifier where
  escaped : Bool
  word : String
  shaped : isWordShaped word = true
  free : escaped = true ∨ word ∉ Lexer.keywords

namespace Identifier

/-- The source text of an identifier. -/
def text (i : Identifier) : String := if i.escaped then "@" ++ i.word else i.word

/-- A name as an identifier that is not escaped. -/
def ofName (w : String) (hw : isName w = true) : Identifier where
  escaped := false
  word := w
  shaped := by
    obtain ⟨c, v, hchars, hc, hv, -⟩ := Lexer.isName_iff.mp hw
    simpa [isWordShaped, hchars, hc] using hv
  free := by
    obtain ⟨-, -, -, -, -, hfree⟩ := Lexer.isName_iff.mp hw
    exact .inr hfree

/-- The kind and the text of its token. -/
def content (i : Identifier) : Kind × String := (.identifier i.escaped, i.word)

/-- The source text of a name behind a type, if there is one. -/
def textBehind : Option Identifier → String
  | none => ""
  | some i => " " ++ i.text

/-- The kind and the text of the token of such a name. -/
def contentBehind : Option Identifier → List (Kind × String)
  | none => []
  | some i => [i.content]

end Identifier

/-- The signs between the parts of a qualified name. -/
inductive Qualifier
  | point
  | colons
deriving DecidableEq, Repr

/-- The text of such a sign. -/
def Qualifier.text : Qualifier → String
  | .point => "."
  | .colons => "::"

mutual

/-- Types. -/
inductive TypeSyntax
  | solid (t : SolidType)
  | nullable (t : SolidType)

/-- Types that do not end in `?`. -/
inductive SolidType
  | name (n : TypeName)
  | tuple (es : TupleElements)
  /-- An array of one dimension more than there are commas in its brackets. -/
  | array (t : TypeSyntax) (commas : Nat)
  | pointer (t : TypeSyntax)

/-- Qualified names. -/
inductive TypeName
  | part (p : NamePart)
  | qualified (n : TypeName) (q : Qualifier) (p : NamePart)

/-- The parts of qualified names, with type arguments or without. -/
inductive NamePart
  | plain (i : Identifier)
  | generic (i : Identifier) (args : TypeList)

/-- Lists of type arguments, of which there is at least one. -/
inductive TypeList
  | last (t : TypeSyntax)
  | more (t : TypeSyntax) (ts : TypeList)

/-- The elements of tuples, of which there is at least one.  Each may have a name. -/
inductive TupleElements
  | last (t : TypeSyntax) (name : Option Identifier)
  | more (t : TypeSyntax) (name : Option Identifier) (es : TupleElements)

end

/-! ## Source text -/

section Text

variable (gap : String)

mutual

/-- The source text of a type, with `gap` behind commas. -/
def TypeSyntax.text : TypeSyntax → String
  | .solid t => t.text
  | .nullable t => t.text ++ "?"

/-- The source text of a type that does not end in `?`. -/
def SolidType.text : SolidType → String
  | .name n => n.text
  | .tuple es => "(" ++ es.text ++ ")"
  | .array t commas => t.text ++ "[" ++ String.ofList (List.replicate commas ',') ++ "]"
  | .pointer t => t.text ++ "*"

/-- The source text of a qualified name. -/
def TypeName.text : TypeName → String
  | .part p => p.text
  | .qualified n q p => n.text ++ q.text ++ p.text

/-- The source text of a part of a qualified name. -/
def NamePart.text : NamePart → String
  | .plain i => i.text
  | .generic i args => i.text ++ "<" ++ args.text ++ ">"

/-- The source text of type arguments. -/
def TypeList.text : TypeList → String
  | .last t => t.text
  | .more t ts => t.text ++ "," ++ gap ++ ts.text

/-- The source text of tuple elements. -/
def TupleElements.text : TupleElements → String
  | .last t name => t.text ++ Identifier.textBehind name
  | .more t name es => t.text ++ Identifier.textBehind name ++ "," ++ gap ++ es.text

end

end Text

/-! ## Tokens -/

mutual

/-- The kinds and texts of the tokens of a type. -/
def TypeSyntax.contents : TypeSyntax → List (Kind × String)
  | .solid t => t.contents
  | .nullable t => t.contents ++ [sign "?"]

/-- The kinds and texts of the tokens of a type that does not end in `?`. -/
def SolidType.contents : SolidType → List (Kind × String)
  | .name n => n.contents
  | .tuple es => sign "(" :: (es.contents ++ [sign ")"])
  | .array t commas =>
    t.contents ++ sign "[" :: (List.replicate commas (sign ",") ++ [sign "]"])
  | .pointer t => t.contents ++ [sign "*"]

/-- The kinds and texts of the tokens of a qualified name. -/
def TypeName.contents : TypeName → List (Kind × String)
  | .part p => p.contents
  | .qualified n q p => n.contents ++ sign q.text :: p.contents

/-- The kinds and texts of the tokens of a part of a qualified name. -/
def NamePart.contents : NamePart → List (Kind × String)
  | .plain i => [i.content]
  | .generic i args => i.content :: sign "<" :: (args.contents ++ [sign ">"])

/-- The kinds and texts of the tokens of type arguments. -/
def TypeList.contents : TypeList → List (Kind × String)
  | .last t => t.contents
  | .more t ts => t.contents ++ sign "," :: ts.contents

/-- The kinds and texts of the tokens of tuple elements. -/
def TupleElements.contents : TupleElements → List (Kind × String)
  | .last t name => t.contents ++ Identifier.contentBehind name
  | .more t name es =>
    t.contents ++ Identifier.contentBehind name ++ sign "," :: es.contents

end

end SharpScript
