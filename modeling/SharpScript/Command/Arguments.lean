import SharpScript.Text.Identifier

/-! # Command-line arguments

## Main Definitions

* `Options`: what a run is asked to do;
* `Request`: a run, or the help text;
* `UsageError`: why arguments are refused;
* `readArguments`: the request that arguments make.

## Design Notes

Arguments are read from left to right, and the first one that is wrong is reported. Asking for
help ends the reading. Whether the phase to stop at is known is asked last.
-/

namespace SharpScript.Command

/-- What a run is asked to do: the phase to stop at, the words to replace, the files to read,
and the file to write. -/
structure Options where
  stopAt : Option String := none
  replacements : List (String × String) := []
  inputs : List String := []
  output : Option String := none
deriving DecidableEq, Inhabited, Repr

/-- What arguments ask for. -/
inductive Request
  | help
  | build (options : Options)
deriving DecidableEq, Inhabited, Repr

/-- Why arguments are refused. -/
inductive UsageError
  | missingArgument (flag : String)
  | badReplacement
  | unknownFlag (flag : String)
  | unknownPhase (phase : String)
deriving DecidableEq, Inhabited, Repr

/-- The wording of an error. -/
def UsageError.message : UsageError → String
  | missingArgument flag => flag ++ " requires an argument"
  | badReplacement => "--replace expects OLD=NEW identifiers"
  | unknownFlag flag => "unknown flag '" ++ flag ++ "'"
  | unknownPhase phase => "unknown phase '" ++ phase ++ "'"

/-- The help text. -/
def usage : String :=
  "jsnet [OPTIONS] [FILE...] [-o OUTPUT]\n" ++
  "\n" ++
  "Translate C# class declarations to JavaScript. Reads stdin when no FILE\n" ++
  "is given; several FILEs are compiled together in order.\n" ++
  "\n" ++
  "Options:\n" ++
  "  --stop-at PHASE     Stop after phase: parse (prints the declaration tree as JSON)\n" ++
  "  --replace OLD=NEW   Replace identifier OLD with NEW in method bodies (repeatable)\n" ++
  "  -o, --output FILE   Write output to FILE instead of stdout\n" ++
  "  --help              Show this help message\n"

/-- The phases that a run can stop at. -/
def phases : List String := ["parse"]

/-- The two identifiers around the first `=` of a text. -/
def readReplacement? (s : String) : Option (String × String) :=
  let old := String.ofList (s.toList.takeWhile (· != '='))
  match s.toList.dropWhile (· != '=') with
  | [] => none
  | _ :: rest =>
    let new := String.ofList rest
    if Text.isIdentifier old && Text.isIdentifier new then some (old, new) else none

/-- The flags that take an argument. -/
inductive Flag
  | stopAt
  | replace
  | output
deriving DecidableEq, Inhabited, Repr

/-- The flag that an argument is. -/
def flag? (arg : String) : Option Flag :=
  match arg with
  | "--stop-at" => some .stopAt
  | "--replace" => some .replace
  | "-o" | "--output" => some .output
  | _ => none

/-- The options with the argument of a flag added. -/
def Options.set (o : Options) (value : String) : Flag → Except UsageError Options
  | .stopAt => .ok { o with stopAt := some value }
  | .output => .ok { o with output := some value }
  | .replace =>
    match readReplacement? value with
    | some pair => .ok { o with replacements := o.replacements ++ [pair] }
    | none => .error .badReplacement

/-- The request of options that are complete. -/
def Options.finish (o : Options) : Except UsageError Request :=
  match o.stopAt with
  | some phase =>
    if phases.contains phase then .ok (.build o) else .error (.unknownPhase phase)
  | none => .ok (.build o)

/-- The request that arguments make, given the options read so far. -/
def readFrom (o : Options) : List String → Except UsageError Request
  | [] => o.finish
  | arg :: rest =>
    if arg == "--help" || arg == "-h" then .ok .help
    else match flag? arg, rest with
      | some _, [] => .error (.missingArgument arg)
      | some flag, value :: rest =>
        match o.set value flag with
        | .ok o => readFrom o rest
        | .error e => .error e
      | none, rest =>
        if arg.toList.head? == some '-' && arg != "-" then .error (.unknownFlag arg)
        else readFrom { o with inputs := o.inputs ++ [arg] } rest

/-- The request that arguments make. -/
def readArguments (args : List String) : Except UsageError Request := readFrom {} args

end SharpScript.Command
