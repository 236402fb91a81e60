import SharpScript.Command.Arguments
import SharpScript.Json.Write
import SharpScript.Script.Program
import SharpScript.Tree.Dump

/-! # Runs

A run reads its source texts, writes them as a script or as a tree, and
ends in one of three ways.

## Main Definitions

* `pipeline`: what is written for source texts;
* `RunError`: why a run fails, with its wording and exit code;
* `Options.sources`: the source texts that a run reads;
* `Options.run`: a whole run.

## Design Notes

A run sees files through a function from paths to contents. The input is read at most once: who
reads it again finds it empty.
-/

namespace SharpScript.Command

/-! ## From source texts to output -/

/-- What is written for source texts: their tree if a run stops at the phase `parse`,
and else their script. -/
def pipeline (stopAt : Option String) (r : Replacement) (sources : List String) :
    Except CompileError String := do
  let units ← parseAll 0 sources
  if stopAt == some "parse" then
    return (Json.Value.list (units.map CompilationUnit.dump)).write 0
  else
    assembleWith r.pass units

/-- The line that reports an error in source texts. -/
def report : CompileError → String
  | .source _ e => "error:" ++ e.tagged
  | e => "error: " ++ e.message

/-! ## Whole runs -/

/-- Why a run fails. -/
inductive RunError
  | usage (error : UsageError)
  | noInput
  | cannotOpen (path : String)
  | invalidText
  | sources (error : CompileError)
  | cannotWrite (path : String)
deriving DecidableEq, Inhabited, Repr

namespace RunError

/-- The exit code of a failed run: two if it was asked for in a wrong way, and else one. -/
def code : RunError → Nat
  | usage _ | noInput => 2
  | _ => 1

/-- The line that reports the error. -/
def message : RunError → String
  | usage e => "error: " ++ e.message
  | noInput => "error: no input provided"
  | cannotOpen path => "error: cannot open '" ++ path ++ "'"
  | invalidText => "error: invalid utf-8 in input"
  | sources e => report e
  | cannotWrite path => "error: cannot write '" ++ path ++ "'"

end RunError

/-- The text of bytes. -/
def decode (bytes : ByteArray) : Except RunError String :=
  match String.fromUTF8? bytes with
  | some s => .ok s
  | none => .error .invalidText

/-- The texts of files in order, where `-` is the input, of which `input` is what is left. -/
def readInputs (read : String → Option ByteArray) (input : ByteArray) :
    List String → Except RunError (List String)
  | [] => .ok []
  | path :: paths => do
    if path == "-" then
      let text ← decode input
      return text :: (← readInputs read .empty paths)
    else
      match read path with
      | none => .error (.cannotOpen path)
      | some bytes =>
        let text ← decode bytes
        return text :: (← readInputs read input paths)

/-- The source texts of a run: its files, or else the input, which must not be empty. -/
def Options.sources (o : Options) (read : String → Option ByteArray) (input : ByteArray) :
    Except RunError (List String) :=
  if o.inputs.isEmpty then do
    let text ← decode input
    if text.isEmpty then .error .noInput else .ok [text]
  else readInputs read input o.inputs

/-- How a run that succeeds ends. -/
inductive Effect
  | print (text : String)
  | save (path text : String)
deriving DecidableEq, Inhabited, Repr

/-- A run that has been asked for. -/
def Options.run (o : Options) (read : String → Option ByteArray) (input : ByteArray) :
    Except RunError Effect := do
  let sources ← o.sources read input
  match pipeline o.stopAt ⟨o.replacements⟩ sources with
  | .error e => .error (.sources e)
  | .ok text =>
    match o.output with
    | some path => return .save path text
    | none => return .print (text ++ "\n")

/-- What a request leads to. -/
def Request.run (request : Request) (read : String → Option ByteArray) (input : ByteArray) :
    Except RunError Effect :=
  match request with
  | .help => .ok (.print usage)
  | .build o => o.run read input

end SharpScript.Command
