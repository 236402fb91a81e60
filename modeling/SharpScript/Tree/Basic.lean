import SharpScript.Token.Place

/-! # The declaration tree

The declarations of a C# source text.  Only declarations have structure: statements, initial
values, default values, bases and the arguments of annotations are kept as texts.

## Main Definitions

* `Lead`: what stands before a declaration or a member;
* `Member`: a member of a class or an interface;
* `Item`: a declaration, or a member among declarations;
* `CompilationUnit`: all of a source text.

## Design Notes

A tree need not come from a source text, so there are shapes that no source text has: a member
of no known form, a declaration of no known kind, and members outside of types.
-/

namespace SharpScript

/-- An annotation `[name(args)]`. -/
structure Annotation where
  pos : Pos
  name : String
  args : List String
deriving DecidableEq, Inhabited, Repr

/-- A parameter and its default value. -/
structure Param where
  pos : Pos
  name : String
  initial : Option String
deriving DecidableEq, Inhabited, Repr

/-- What stands before a declaration or a member: where it begins, its
annotations and modifiers. -/
structure Lead where
  pos : Pos
  annotations : List Annotation
  modifiers : List String
deriving DecidableEq, Inhabited, Repr

/-- The forms of members. A body lists its statements and is `none` where there is no
body; the declarators of a field are texts such as `x = 1`; `other` members are known
and have no counterpart.
-/
inductive MemberForm
  | method (name : String) (params : List Param) (body : Option (List String))
  | constructor (name : String) (params : List Param) (body : Option (List String))
  | field (declarators : List String)
  | property (name : String) (getter setter : Bool)
  | other (kind : String)
  | unknown
deriving DecidableEq, Inhabited, Repr

/-- A member of a class or an interface. -/
structure Member where
  lead : Lead
  form : MemberForm
deriving DecidableEq, Inhabited, Repr

/-- Whether a member is static. -/
def Member.isStatic (m : Member) : Bool := m.lead.modifiers.contains "static"

/-- A member of an enumeration, whose text is all of it, such as `Green = 2`. -/
structure EnumMember where
  pos : Pos
  name : String
  value : Option String
  text : String
deriving DecidableEq, Inhabited, Repr

/-- The types that have members of their own. -/
inductive TypeSort
  | classType
  | interfaceType
deriving DecidableEq, Inhabited, Repr

/-- A declaration, or a member among declarations.  A `scope` is a namespace; `skipped`
declarations have no counterpart and keep only their name and, if it is known, their kind. -/
inductive Item
  | member (m : Member)
  | scope (pos : Pos) (name : String) (items : List Item)
  | type (sort : TypeSort) (lead : Lead) (name : String) (bases : List String)
      (items : List Item)
  | enumeration (lead : Lead) (name : String) (members : List EnumMember)
  | skipped (pos : Pos) (name : String) (kind : Option String)
deriving Inhabited, Repr

/-- The member that an item is. -/
def Item.member? : Item → Option Member
  | member m => some m
  | _ => none

/-- The using directives and the declarations of a source text. -/
structure CompilationUnit where
  usings : List String
  items : List Item
deriving Inhabited, Repr

namespace CompilationUnit

instance : EmptyCollection CompilationUnit := ⟨⟨[], []⟩⟩

instance : Append CompilationUnit := ⟨fun u v => ⟨u.usings ++ v.usings, u.items ++ v.items⟩⟩

@[simp] theorem usings_append (u v : CompilationUnit) :
    (u ++ v).usings = u.usings ++ v.usings := rfl

@[simp] theorem items_append (u v : CompilationUnit) :
    (u ++ v).items = u.items ++ v.items := rfl

@[simp] theorem usings_empty : (∅ : CompilationUnit).usings = [] := rfl

@[simp] theorem items_empty : (∅ : CompilationUnit).items = [] := rfl

end CompilationUnit

end SharpScript
