import SharpScript.Text.Trim
import SharpScript.Tree.Basic

/-! # Markers

Annotations that say how a declaration or a member is written.

## Main Definitions

* `Marker`: the markers and the names that select them;
* `Marker.find?`: the annotation that carries a marker;
* `isExcluded`: declarations and members that are left out;
* `payload`, `unwrapLiteral`: the script text that an annotation gives.

## Design Notes

Names are compared without the blanks around them and without regard to case. All names of
markers are ASCII, so folding the ASCII letters is enough: `Js.Exclude` and
`ExcludeAttribute` select nothing.
-/

namespace SharpScript

/-- The markers. -/
inductive Marker
  | exclude
  | inlineOverride
  | entryPoint
deriving DecidableEq, Inhabited, Repr

namespace Marker

/-- The names that select a marker, in lower case. -/
def names : Marker → List String
  | exclude => ["exclude"]
  | inlineOverride => ["jsfunction", "inlineoverride"]
  | entryPoint => ["entrypoint"]

/-- The name of an annotation as it is compared. -/
def folded (name : String) : String :=
  String.ofList ((Text.trim name).toList.map Char.toLower)

/-- Whether an annotation carries the marker. -/
def selects (m : Marker) (a : Annotation) : Bool := m.names.contains (folded a.name)

/-- The first annotation that carries the marker. -/
def find? (m : Marker) (as : List Annotation) : Option Annotation := as.find? m.selects

/-- The index of the first annotation that carries the marker. -/
def findIdx? (m : Marker) (as : List Annotation) : Option Nat := as.findIdx? m.selects

end Marker

/-- Whether annotations leave out what they stand before. -/
def isExcluded (as : List Annotation) : Bool := as.any Marker.exclude.selects

/-- The first argument of an annotation, which is empty if there is none. -/
def Annotation.payload (a : Annotation) : String := a.args.headD ""

/-- The characters of a list without its last one if that is `c`. -/
def dropLastIf (c : Char) (cs : List Char) : List Char :=
  if cs.getLast? == some c then cs.dropLast else cs

/-- The text between the quotes of a string literal: without the marks `@` and `$` before it,
and without a quote at its start and one at its end. What stands inside is not decoded. -/
def unwrapLiteral (s : String) : String :=
  let body := s.toList.dropWhile fun c => c == '@' || c == '$'
  let inside := if body.head? == some '"' then body.tail else body
  String.ofList (dropLastIf '"' inside)

end SharpScript
