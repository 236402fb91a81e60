import SharpScript.Script.Equality
import SharpScript.Script.Fragment
import SharpScript.Script.Marker
import SharpScript.Text.Quoted

/-! # Members as script

## Main Definitions

* `writeParams`, `writeBody`: the parts of methods and constructors;
* `Member.write?`: a member of a class;
* `Member.stub`: a member of an interface.

## Design Notes

The fields of a class become static ones, and of several variables in one field only
the first is kept. A method with an inline override has that text for its body. The
methods of an interface throw.
-/

namespace SharpScript

/-- A parameter and its default value. -/
def Param.write (p : Param) : String :=
  match p.initial with
  | some value => p.name ++ " = " ++ value
  | none => p.name

/-- A list of parameters. -/
def writeParams (ps : List Param) : String := ", ".intercalate (ps.map Param.write)

/-- The statements of a body, each on a line, with strict comparisons.  A
missing body has none. -/
def writeBody : Option (List String) → String
  | some statements => String.join (statements.map fun s => strictEquality (s ++ "\n"))
  | none => ""

/-- A function with a name, parameters, and the lines of its body. -/
def writeFunction (name : String) (params : List Param) (lines : String) : String :=
  name ++ "(" ++ writeParams params ++ ") " ++ Text.braced ("\n" ++ lines) ++ "\n"

/-- The lines of a method's body, which an inline override replaces. -/
def methodLines (as : List Annotation) (body : Option (List String)) : String :=
  match Marker.inlineOverride.find? as with
  | some a => unwrapLiteral a.payload ++ "\n"
  | none => writeBody body

/-- A field. -/
def writeField : List String → String
  | first :: _ => "static " ++ first ++ ";\n"
  | [] => ""

/-- The accessors of a property. -/
def writeProperty (name : String) (getter setter : Bool) : String :=
  (if getter then
      "get " ++ name ++ "() " ++ Text.braced ("\nreturn this." ++ name ++ ";\n") ++ "\n"
    else "") ++
  (if setter then
      "set " ++ name ++ "(val) " ++ Text.braced ("\nthis." ++ name ++ " = val;\n") ++ "\n"
    else "")

/-- The line that reports a method of an interface as missing. -/
def missingLine (name : String) : String :=
  "throw new Error(\"Method '" ++ name ++ "' must be implemented\");\n"

/-- A method of the class `owner`, and its entry point if it is one. -/
def Member.writeMethod (m : Member) (owner name : String) (params : List Param)
    (body : Option (List String)) : Fragment where
  text :=
    (if m.isStatic then "static " else "") ++
      writeFunction name params (methodLines m.lead.annotations body)
  entryPoints :=
    if m.lead.annotations.any Marker.entryPoint.selects then [⟨owner, name⟩] else []

/-- Why a tree cannot be written: a class has a member of no known form. -/
inductive ScriptError
  | unknownMember
deriving DecidableEq, Inhabited, Repr

/-- The wording of an error. -/
def ScriptError.message : ScriptError → String
  | unknownMember => "Unknown member"

/-- A member of the class `owner`.  An excluded member is left out, whatever it is. -/
def Member.write? (m : Member) (owner : String) : Except ScriptError Fragment :=
  if isExcluded m.lead.annotations then .ok ∅
  else match m.form with
    | .method name params body => .ok (m.writeMethod owner name params body)
    | .constructor _ params body =>
      .ok (.ofText (writeFunction "constructor" params (writeBody body)))
    | .field declarators => .ok (.ofText (writeField declarators))
    | .property name getter setter => .ok (.ofText (writeProperty name getter setter))
    | .other _ => .ok ∅
    | .unknown => .error .unknownMember

/-- A member of an interface: a method that throws unless it is static, or a property.
All else is left out. -/
def Member.stub (m : Member) : Fragment :=
  if isExcluded m.lead.annotations then ∅
  else match m.form with
    | .method name params _ =>
      if m.isStatic then ∅ else .ofText (writeFunction name params (missingLine name))
    | .property name getter setter => .ofText (writeProperty name getter setter)
    | _ => ∅

end SharpScript
