import SharpScript.Json.Value
import SharpScript.Tree.Basic

/-! # Trees as values

Every node of a tree is a dictionary that names its type first.

## Main Definitions

* `Item.dump`, `CompilationUnit.dump`: the values of items and units.
-/

namespace SharpScript

open Json (Value)

/-- A dictionary that names the type of a node. -/
def Json.Value.tagged (type : String) (entries : List (String × Value)) : Value :=
  .object (("_type", .text type) :: entries)

/-- A position as its line and column. -/
def Pos.dump (p : Pos) : Value := .list [.int p.line, .int p.col]

/-- The value of an annotation. -/
def Annotation.dump (a : Annotation) : Value :=
  .tagged "Annotation" [("pos", a.pos.dump), ("name", .text a.name), ("args", .texts a.args)]

/-- The value of a parameter. -/
def Param.dump (p : Param) : Value :=
  .tagged "Param" [("pos", p.pos.dump), ("name", .text p.name),
    ("default", .optional p.initial)]

/-- The value of a list of annotations. -/
def dumpAnnotations (as : List Annotation) : Value := .list (as.map Annotation.dump)

/-- The value of a body. -/
def dumpBody : Option (List String) → Value
  | some statements => .texts statements
  | none => .null

/-- The entries of what stands before a member. -/
def Lead.entries (l : Lead) : List (String × Value) :=
  [("pos", l.pos.dump), ("annotations", dumpAnnotations l.annotations),
    ("modifiers", .texts l.modifiers)]

/-- The entries of a method or constructor. -/
def callableEntries (name : String) (params : List Param) (body : Option (List String)) :
    List (String × Value) :=
  [("name", .text name), ("params", .list (params.map Param.dump)), ("body", dumpBody body)]

/-- The type and the further entries of the form of a member. -/
def MemberForm.entries : MemberForm → String × List (String × Value)
  | method name params body => ("Method", callableEntries name params body)
  | constructor name params body => ("Constructor", callableEntries name params body)
  | field declarators => ("Field", [("variables", .texts declarators)])
  | property name getter setter =>
    ("Property",
      [("name", .text name), ("has_getter", .bool getter), ("has_setter", .bool setter)])
  | other kind => ("OtherMember", [("kind", .text kind)])
  | unknown => ("Member", [])

/-- The value of a member. -/
def Member.dump (m : Member) : Value :=
  .tagged m.form.entries.1 (m.lead.entries ++ m.form.entries.2)

/-- The value of a member of an enumeration. -/
def EnumMember.dump (m : EnumMember) : Value :=
  .tagged "EnumMember"
    [("pos", m.pos.dump), ("name", .text m.name), ("value", .optional m.value),
      ("text", .text m.text)]

/-- The type of a type's node. -/
def TypeSort.tag : TypeSort → String
  | classType => "ClassDecl"
  | interfaceType => "InterfaceDecl"

mutual

/-- The value of an item. -/
def Item.dump : Item → Value
  | .member m => m.dump
  | .scope pos name items =>
    .tagged "Namespace"
      [("pos", pos.dump), ("name", .text name), ("members", .list (dumpItems items))]
  | .type sort lead name bases items =>
    .tagged sort.tag
      [("pos", lead.pos.dump), ("name", .text name),
        ("annotations", dumpAnnotations lead.annotations),
        ("modifiers", .texts lead.modifiers), ("bases", .texts bases),
        ("members", .list (dumpItems items))]
  | .enumeration lead name members =>
    .tagged "EnumDecl"
      [("pos", lead.pos.dump), ("name", .text name),
        ("annotations", dumpAnnotations lead.annotations),
        ("modifiers", .texts lead.modifiers), ("members", .list (members.map EnumMember.dump))]
  | .skipped pos name (some kind) =>
    .tagged "OtherDecl" [("pos", pos.dump), ("name", .text name), ("kind", .text kind)]
  | .skipped pos name none => .tagged "Decl" [("pos", pos.dump), ("name", .text name)]

/-- The values of items. -/
def dumpItems : List Item → List Value
  | [] => []
  | i :: is => i.dump :: dumpItems is

end

/-- The value of a compilation unit. -/
def CompilationUnit.dump (u : CompilationUnit) : Value :=
  .tagged "CompilationUnit" [("usings", .texts u.usings),
    ("members", .list (dumpItems u.items))]

end SharpScript
