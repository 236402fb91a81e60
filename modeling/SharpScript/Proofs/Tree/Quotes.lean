import SharpScript.Proofs.Lexer.Slice
import SharpScript.Proofs.Parser.Nesting
import SharpScript.Tree.Basic

/-! # Texts in a tree

The texts of a tree are quoted from a source text.  They are listed in the order in which the
source text has them: what stands before a declaration, then its bases or the default values of
its parameters, then its statements, variables or members.

## Main Definitions

* `Quote`: a text that is quoted, and in what way;
* `MemberForm.Quotes`, `Item.Quotes`, `ItemsQuote`: the quotes of a tree;
* `IsWordText`, `IsTypeText`, `IsCodeText`: the texts of names, of types, and of code;
* `Item.Sound`, `ItemsSound`: trees whose names, types and code are such texts.

## Design Notes

A tree does not say whether a body of one statement was a block or an expression, and it does
not keep the type that decides whether the expression is returned.  The quotes of a tree are
therefore a relation, and they include the types of methods.
-/

namespace SharpScript

/-- A text that is quoted from a source text: as it stands there, as the type of the method
`name`, which no tree keeps, or as an expression that has been made a statement. -/
inductive Quote
  | text (s : String)
  | type (name s : String)
  | value (returns : Bool) (s : String)
deriving DecidableEq, Inhabited, Repr

/-! ## The quotes of a tree -/

/-- The quotes of an annotation: its name and its arguments. -/
def Annotation.quotes (a : Annotation) : List Quote := .text a.name :: a.args.map .text

/-- The quotes of what stands before a declaration. -/
def Lead.quotes (l : Lead) : List Quote := l.annotations.flatMap Annotation.quotes

/-- The quotes of a parameter: its default value. -/
def Param.quotes (p : Param) : List Quote := p.initial.toList.map .text

/-- The quotes of a body, which is a block of statements, or an expression that is returned if
`returns` holds, or missing. -/
inductive BodyQuotes (returns : Bool) : Option (List String) → List Quote → Prop
  | block (statements : List String) :
      BodyQuotes returns (some statements) (statements.map .text)
  | value (s : String) : BodyQuotes returns (some [s]) [.value returns s]
  | none : BodyQuotes returns none []

/-- The quotes of a member.  Those of a method begin with its type, which is `void` if the
method returns nothing. -/
inductive MemberForm.Quotes : MemberForm → List Quote → Prop
  | method (type name : String) (ps : List Param) {body : Option (List String)}
      {qs : List Quote} (hbody : BodyQuotes (type != "void") body qs) :
      Quotes (.method name ps body) (.type name type :: (ps.flatMap Param.quotes ++ qs))
  | constructor (name : String) (ps : List Param) {body : Option (List String)}
      {qs : List Quote} (hbody : BodyQuotes false body qs) :
      Quotes (.constructor name ps body) (ps.flatMap Param.quotes ++ qs)
  | field (ds : List String) : Quotes (.field ds) (ds.map .text)
  | property (name : String) (getter setter : Bool) : Quotes (.property name getter setter) []
  | other (kind : String) : Quotes (.other kind) []

mutual

/-- The quotes of a declaration. -/
inductive Item.Quotes : Item → List Quote → Prop
  | member {m : Member} {qs : List Quote} (h : m.form.Quotes qs) :
      Item.Quotes (.member m) (m.lead.quotes ++ qs)
  | scope (pos : Pos) (name : String) {is : List Item} {qs : List Quote}
      (h : ItemsQuote is qs) :
      Item.Quotes (.scope pos name is) qs
  | type (sort : TypeSort) (lead : Lead) (name : String) (bases : List String) {is : List Item}
      {qs : List Quote} (h : ItemsQuote is qs) :
      Item.Quotes (.type sort lead name bases is) (lead.quotes ++ (bases.map .text ++ qs))
  | enumeration (lead : Lead) (name : String) (ms : List EnumMember) :
      Item.Quotes (.enumeration lead name ms) (lead.quotes ++ ms.map fun m => .text m.text)
  | skipped (pos : Pos) (name : String) (kind : Option String) :
      Item.Quotes (.skipped pos name kind) []

/-- The quotes of declarations in order. -/
inductive ItemsQuote : List Item → List Quote → Prop
  | nil : ItemsQuote [] []
  | cons {i : Item} {is : List Item} {qs qs' : List Quote} (head : Item.Quotes i qs)
      (tail : ItemsQuote is qs') : ItemsQuote (i :: is) (qs ++ qs')

end

theorem ItemsQuote.append {is js : List Item} {qs qs' : List Quote} :
    ItemsQuote is qs → ItemsQuote js qs' → ItemsQuote (is ++ js) (qs ++ qs')
  | .nil, h => h
  | .cons head tail, h => by
    rw [List.append_assoc]
    exact .cons head (tail.append h)

/-! ## Names, types and code -/

/-- A text that is a word. -/
def IsWordText (s : String) : Prop :=
  ∃ c v, s.toList = c :: v ∧ Lexer.isWordStart c = true ∧ ∀ d ∈ v, Lexer.isWordPart d = true

/-- The source text of some tokens. -/
def IsTypeText (s : String) : Prop := ∃ ts, ts ≠ [] ∧ Lexed ts ∧ s = Token.spelling ts

/-- The source text of some tokens whose brackets are well nested. -/
def IsCodeText (s : String) : Prop :=
  ∃ ts, ts ≠ [] ∧ Lexed ts ∧ Balanced ts ∧ s = Token.spelling ts

/-- A parameter with a name and a default value. -/
structure Param.Sound (p : Param) : Prop where
  name : IsWordText p.name
  initial : ∀ s ∈ p.initial, IsCodeText s

/-- A member with names and code. -/
inductive MemberForm.Sound : MemberForm → Prop
  | method {name : String} {ps : List Param} {body : Option (List String)}
      (hname : IsWordText name) (hparams : ∀ p ∈ ps, p.Sound)
      (hbody : ∀ ss ∈ body, ∀ s ∈ ss, IsCodeText s) :
      Sound (.method name ps body)
  | constructor {name : String} {ps : List Param} {body : Option (List String)}
      (hparams : ∀ p ∈ ps, p.Sound) (hbody : ∀ ss ∈ body, ∀ s ∈ ss, IsCodeText s) :
      Sound (.constructor name ps body)
  | field {ds : List String} (hvariables : ∀ d ∈ ds, IsCodeText d) : Sound (.field ds)
  | property {name : String} (hname : IsWordText name) (getter setter : Bool) :
      Sound (.property name getter setter)
  | other (kind : String) : Sound (.other kind)

mutual

/-- A declaration with names, types and code. -/
inductive Item.Sound : Item → Prop
  | member {m : Member} (h : m.form.Sound) : Item.Sound (.member m)
  | scope {pos : Pos} {name : String} {is : List Item} (h : ItemsSound is) :
      Item.Sound (.scope pos name is)
  | type {sort : TypeSort} {lead : Lead} {name : String} {bases : List String} {is : List Item}
      (hname : IsWordText name) (hbases : ∀ b ∈ bases, IsTypeText b) (h : ItemsSound is) :
      Item.Sound (.type sort lead name bases is)
  | enumeration {lead : Lead} {name : String} {ms : List EnumMember} (hname : IsWordText name)
      (hmembers : ∀ m ∈ ms, IsCodeText m.text) : Item.Sound (.enumeration lead name ms)
  | skipped {pos : Pos} {name : String} {kind : Option String} :
      Item.Sound (.skipped pos name kind)

/-- Declarations with names, types and code. -/
inductive ItemsSound : List Item → Prop
  | nil : ItemsSound []
  | cons {i : Item} {is : List Item} (head : Item.Sound i) (tail : ItemsSound is) :
      ItemsSound (i :: is)

end

theorem ItemsSound.append {is js : List Item} :
    ItemsSound is → ItemsSound js → ItemsSound (is ++ js)
  | .nil, h => h
  | .cons head tail, h => .cons head (tail.append h)

end SharpScript
