/-! # Fragments of a script

A script is JavaScript text.  It is put together from fragments, which keep the methods that
the finished script has to call beside their text.

## Main Definitions

* `EntryPoint`: a method that the finished script calls;
* `Fragment`: a piece of script and the entry points met while writing it.
-/

namespace SharpScript

/-- A method that is called when the whole script has been loaded. -/
structure EntryPoint where
  owner : String
  method : String
deriving DecidableEq, Inhabited, Repr

/-- The call of an entry point. -/
def EntryPoint.invocation (e : EntryPoint) : String := e.owner ++ "." ++ e.method ++ "();"

/-- A piece of script and the entry points in it, in order. -/
structure Fragment where
  text : String
  entryPoints : List EntryPoint
deriving DecidableEq, Inhabited, Repr

namespace Fragment

instance : EmptyCollection Fragment := ⟨⟨"", []⟩⟩

instance : Append Fragment :=
  ⟨fun a b => ⟨a.text ++ b.text, a.entryPoints ++ b.entryPoints⟩⟩

/-- A piece of script without entry points. -/
def ofText (s : String) : Fragment := ⟨s, []⟩

@[simp] theorem text_append (a b : Fragment) : (a ++ b).text = a.text ++ b.text := rfl

@[simp] theorem entryPoints_append (a b : Fragment) :
    (a ++ b).entryPoints = a.entryPoints ++ b.entryPoints := rfl

@[simp] theorem text_empty : (∅ : Fragment).text = "" := rfl

@[simp] theorem entryPoints_empty : (∅ : Fragment).entryPoints = [] := rfl

@[simp] theorem text_ofText (s : String) : (ofText s).text = s := rfl

@[simp] theorem entryPoints_ofText (s : String) : (ofText s).entryPoints = [] := rfl

end Fragment

end SharpScript
