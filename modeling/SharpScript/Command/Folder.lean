import SharpScript.Command.Run

/-! # Runs in a folder

A folder holds files and directories, and a run in it leaves a report: what has been printed
and which files have changed.

## Main Definitions

* `Folder`: files and directories, by their paths;
* `Folder.canWrite`: whether a file can be written;
* `Report`, `Folder.run`: a command run in a folder;
* `pipelineReport`: source texts written without a folder.

## Design Notes

Paths are relative and plain, and two of them name the same file only if they are the same
text: the parts `.` and `..` and empty parts are not resolved, so `./a.cs` is not found where
`a.cs` is, and `d//y` cannot be written where there is only the directory `d`.  A file is read
and written under the path that the argument spells.
-/

namespace SharpScript.Command

/-- Files and directories by their paths.  The last entry for a path counts. -/
structure Folder where
  files : List (String × ByteArray)
  directories : List String
deriving Inhabited

namespace Folder

/-- The contents of a file. -/
def read? (f : Folder) (path : String) : Option ByteArray :=
  (f.files.filter fun e => e.1 == path).getLast?.map Prod.snd

/-- The path of the directory that a path lies in; a path without `/` lies in none. -/
def parent? (path : String) : Option String :=
  match path.toList.reverse.dropWhile (· != '/') with
  | [] => none
  | _ :: above => some (String.ofList above.reverse)

/-- Whether `path` lies somewhere below `directory`. -/
def isBelow (directory path : String) : Bool :=
  (directory.toList ++ ['/']).isPrefixOf path.toList

/-- Whether a path names a directory, or one that must exist because
something lies below it. -/
def isDirectory (f : Folder) (path : String) : Bool :=
  f.directories.contains path || f.directories.any (isBelow path) ||
    f.files.any fun e => isBelow path e.1

/-- The part of a path behind its last `/`. -/
def lastPart (path : String) : String :=
  String.ofList (path.toList.reverse.takeWhile (· != '/')).reverse

/-- Whether a file can be written: its path ends in a name, it is no directory, and the
directory that it lies in exists. -/
def canWrite (f : Folder) (path : String) : Bool :=
  !(["", ".", ".."].contains (lastPart path)) && !f.isDirectory path &&
    (parent? path).all f.isDirectory

end Folder

/-- What a command leaves behind: its exit code, what it has printed, and the files that have
changed. -/
structure Report where
  code : Nat
  printed : String
  complaint : String
  written : List (String × String)
deriving DecidableEq, Inhabited, Repr

/-- The report of a command that fails. -/
def RunError.report (e : RunError) : Report := ⟨e.code, "", e.message ++ "\n", []⟩

/-- The report of writing source texts, of which the output is printed as it is. -/
def pipelineReport (stopAt : Option String) (r : Replacement) (sources : List String) :
    Report :=
  match pipeline stopAt r sources with
  | .ok text => ⟨0, text, "", []⟩
  | .error e => RunError.report (.sources e)

/-- The report of an effect on a folder.  A file that is written with the contents
it had has not changed. -/
def Effect.report (f : Folder) : Effect → Report
  | .print text => ⟨0, text, "", []⟩
  | .save path text =>
    if f.canWrite path then
      ⟨0, "", "", if f.read? path == some text.toUTF8 then [] else [(path, text)]⟩
    else RunError.report (.cannotWrite path)

/-- The report of a command with arguments `args` and the input `input`, run in a folder. -/
def Folder.run (f : Folder) (args : List String) (input : ByteArray) : Report :=
  match readArguments args with
  | .error e => RunError.report (.usage e)
  | .ok request =>
    match request.run f.read? input with
    | .error e => e.report
    | .ok effect => effect.report f

end SharpScript.Command
