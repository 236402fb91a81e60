import SharpScript.Script.Member
import SharpScript.Script.Replacement

/-! # Declarations as script

## Main Definitions

* `extendsTarget`: the class that a class extends;
* `Item.writeWith?`, `CompilationUnit.writeWith?`: declarations, with a pass
  made over their classes;
* `Item.write?`, `CompilationUnit.write?`: declarations, with words replaced.

## Design Notes

The namespaces of a source text leave no trace in the script. A type in a class is written in
place, between the members of the class; a type in an interface is left out.

A pass changes the members of a class at the time when the class is written. Replacing words is
one pass, and leaving the members as they are is another.
-/

namespace SharpScript

/-- Whether a name follows the convention for interfaces: an `I` and an upper-case letter. -/
def namesInterface (s : String) : Bool :=
  match s.toList with
  | 'I' :: c :: _ => c.isUpper
  | _ => false

/-- The class that a class extends: its first base, unless that names an interface. -/
def extendsTarget (bases : List String) : Option String :=
  match bases with
  | [] => none
  | first :: _ =>
    let base := Text.trim first
    if base.isEmpty || namesInterface base then none else some base

/-- A piece of script between two comments that name a declaration. -/
def bracketed (kind name : String) (inside : Fragment) : Fragment :=
  .ofText ("// BEGIN C# " ++ kind ++ ": " ++ name ++ "\n") ++ inside ++
    .ofText ("// END C# " ++ kind ++ ": " ++ name ++ "\n")

/-- A class with a name and a body. -/
def writeClass (name : String) (base : Option String) (inside : Fragment) : Fragment :=
  let head := match base with
    | some base => "class " ++ name ++ " extends " ++ base
    | none => "class " ++ name
  .ofText (head ++ " \x7b\n") ++ inside ++ .ofText "\x7d\n"

/-- An enumeration as a frozen object. -/
def writeEnumeration (name : String) (members : List EnumMember) : Fragment :=
  .ofText ("const " ++ name ++ " = Object.freeze(" ++
    Text.braced (", ".intercalate (members.map EnumMember.text)) ++ ");\n")

/-- The members of an interface. -/
def writeStubs : List Item → Fragment
  | [] => ∅
  | i :: is => ((i.member?.map Member.stub).getD ∅) ++ writeStubs is

mutual

/-- A declaration, with `pass` made over the members of each class.  A member outside of types
is left out, and so is whatever is excluded. -/
def Item.writeWith? (pass : Member → Member) : Item → Except ScriptError Fragment
  | .member _ => .ok ∅
  | .scope _ _ items => writeItemsWith? pass items
  | .type .classType lead name bases items =>
    if isExcluded lead.annotations then .ok ∅
    else do
      let inside ← writeMembersWith? pass name items
      return bracketed "Class" name (writeClass name (extendsTarget bases) inside)
  | .type .interfaceType lead name _ items =>
    if isExcluded lead.annotations then .ok ∅
    else .ok (bracketed "Interface" name (writeClass name none (writeStubs items)))
  | .enumeration lead name members =>
    if isExcluded lead.annotations then .ok ∅
    else .ok (bracketed "Enum" name (writeEnumeration name members))
  | .skipped .. => .ok ∅

/-- Declarations in order. -/
def writeItemsWith? (pass : Member → Member) : List Item → Except ScriptError Fragment
  | [] => .ok ∅
  | i :: is => do
    let first ← i.writeWith? pass
    return first ++ (← writeItemsWith? pass is)

/-- The items of the class `owner` in order, with `pass` made over its members. -/
def writeMembersWith? (pass : Member → Member) (owner : String) :
    List Item → Except ScriptError Fragment
  | [] => .ok ∅
  | i :: is => do
    let first ← match i.member? with
      | some m => (pass m).write? owner
      | none => i.writeWith? pass
    return first ++ (← writeMembersWith? pass owner is)

end

/-- All that a source text declares, with `pass` made over its classes. -/
def CompilationUnit.writeWith? (pass : Member → Member) (u : CompilationUnit) :
    Except ScriptError Fragment :=
  writeItemsWith? pass u.items

/-! ## Words replaced -/

/-- A declaration, with words replaced in the bodies of classes. -/
def Item.write? (r : Replacement) (i : Item) : Except ScriptError Fragment :=
  i.writeWith? (Member.replace r)

/-- Declarations in order, with words replaced. -/
def writeItems? (r : Replacement) (is : List Item) : Except ScriptError Fragment :=
  writeItemsWith? (Member.replace r) is

/-- The items of the class `owner` in order, with words replaced in its members. -/
def writeMembers? (r : Replacement) (owner : String) (is : List Item) :
    Except ScriptError Fragment :=
  writeMembersWith? (Member.replace r) owner is

/-- All that a source text declares, with words replaced. -/
def CompilationUnit.write? (r : Replacement) (u : CompilationUnit) :
    Except ScriptError Fragment :=
  u.writeWith? (Member.replace r)

end SharpScript
