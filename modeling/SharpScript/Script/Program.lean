import SharpScript.Parser.Source
import SharpScript.Script.Declaration
import SharpScript.Tree.Declares

/-! # Programs

Several source texts are written as one script: helpers first, then each source text, then the
calls of the entry points.

## Main Definitions

* `CompileError`: why there is no script;
* `assembleWith`: the script of compilation units, with a pass made over their classes;
* `Replacement.pass`: the pass that a run makes for the words that it is given;
* `assemble`, `compile`: the script of compilation units and of source
  texts, with words replaced.

## Design Notes

All source texts are read before any of them is looked at, so an error in the last one comes
before the complaint that the first one declares nothing.

A run that is given no words to replace makes no pass at all: it does not ask the replacement
what an empty list of words does to a text.
-/

namespace SharpScript

/-- The helpers that scripts may call. -/
def extras : String :=
  "// BEGIN EXTRAS\n" ++
  "Array.prototype.remove = function() \x7b\n" ++
  "    var what, a = arguments, L = a.length, ax;\n" ++
  "    while (L && this.length) \x7b\n" ++
  "        what = a[--L];\n" ++
  "        while ((ax = this.indexOf(what)) !== -1) \x7b\n" ++
  "            this.splice(ax, 1);\n" ++
  "        \x7d\n" ++
  "    \x7d\n" ++
  "    return this;\n" ++
  "\x7d;\n" ++
  "// END EXTRAS \n\n"

/-- The last line of a script. -/
def trailer : String := "\n/* COMPILED WITH JavaScript.NET */"

/-- Why source texts have no script.  Units are counted from zero. -/
inductive CompileError
  | source (unit : Nat) (error : SourceError)
  | noDeclaration (unit : Nat)
  | script (error : ScriptError)
deriving DecidableEq, Inhabited, Repr

/-- A message about a unit, or about no unit in particular. -/
def unitMessage (unit : Option Int) (message : String) : String :=
  match unit with
  | some n => "unit " ++ toString n ++ ": " ++ message
  | none => message

/-- The wording of an error. -/
def CompileError.message : CompileError → String
  | source unit error => unitMessage (some unit) error.tagged
  | noDeclaration unit => unitMessage (some unit) "No declaration found!"
  | script error => error.message

/-- The index of the first unit that declares nothing. -/
def firstEmpty? (us : List CompilationUnit) : Option Nat :=
  us.findIdx? fun u => !declaresAny u.items

/-- The scripts of units in order, each with two line ends behind it. -/
def writeUnitsWith? (pass : Member → Member) :
    List CompilationUnit → Except ScriptError Fragment
  | [] => .ok ∅
  | u :: us => do
    let first ← u.writeWith? pass
    return first ++ .ofText "\n\n" ++ (← writeUnitsWith? pass us)

/-- The calls of entry points, each on a line. -/
def invocations (es : List EntryPoint) : String :=
  String.join (es.map fun e => e.invocation ++ "\n")

/-- The script of compilation units, each of which must declare something. -/
def assembleWith (pass : Member → Member) (us : List CompilationUnit) :
    Except CompileError String :=
  match firstEmpty? us with
  | some i => .error (.noDeclaration i)
  | none =>
    match writeUnitsWith? pass us with
    | .error e => .error (.script e)
    | .ok f => .ok (extras ++ f.text ++ invocations f.entryPoints ++ trailer)

/-- The pass that a run makes: none if there are no words to replace. -/
def Replacement.pass (r : Replacement) : Member → Member :=
  if r.pairs.isEmpty then id else Member.replace r

/-- The scripts of units in order, with words replaced. -/
def writeUnits? (r : Replacement) (us : List CompilationUnit) : Except ScriptError Fragment :=
  writeUnitsWith? (Member.replace r) us

/-- The script of compilation units, with words replaced. -/
def assemble (r : Replacement) (us : List CompilationUnit) : Except CompileError String :=
  assembleWith (Member.replace r) us

/-- The units of source texts, the first of which has the index `i`. -/
def parseAll (i : Nat) : List String → Except CompileError (List CompilationUnit)
  | [] => .ok []
  | s :: ss =>
    match parse s with
    | .error e => .error (.source i e)
    | .ok u => do return u :: (← parseAll (i + 1) ss)

/-- The script of source texts. -/
def compile (r : Replacement) (sources : List String) : Except CompileError String := do
  assemble r (← parseAll 0 sources)

end SharpScript
