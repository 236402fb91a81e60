import SharpScript.Json.Value
import SharpScript.Text.Quoted

/-! # Writing values

Values are written over several lines: each element of a list and each entry of a dictionary
has a line of its own, indented by two spaces more than the brackets around it.

## Main Definitions

* `Json.escape`, `Json.quoted`: texts between double quotes;
* `Json.Value.write`: a value at a level of indentation;
* `Json.Value.render`: a whole value, or the complaint about its first part that cannot be
  written.

## Design Notes

Only the double quote, the backslash and the characters below U+0020 are escaped.
-/

namespace SharpScript.Json

/-- A character between double quotes. -/
def escape (c : Char) : List Char :=
  if c == '\\' then ['\\', '\\']
  else if c == '"' then ['\\', '"']
  else if c == '\n' then ['\\', 'n']
  else if c == '\r' then ['\\', 'r']
  else if c == '\t' then ['\\', 't']
  else if c.toNat < 0x20 then '\\' :: 'u' :: Text.hex 4 c.toNat
  else [c]

/-- A text between double quotes. -/
def quoted (s : String) : String := String.ofList ('"' :: s.toList.flatMap escape ++ ['"'])

/-- The indentation of a level. -/
def indent (level : Nat) : String := String.ofList (List.replicate (2 * level) ' ')

/-- Lines at the level below `level` between brackets, or the brackets
alone if there is none. -/
def enclose (opening closing : String) (level : Nat) (lines : List String) : String :=
  if lines.isEmpty then opening ++ closing
  else
    opening ++ "\n" ++ ",\n".intercalate (lines.map (indent (level + 1) ++ ·)) ++ "\n" ++
      indent level ++ closing

/-- Why a value cannot be written: a part of it is of a foreign kind. -/
structure ForeignValue where
  kind : String
deriving DecidableEq, Inhabited, Repr

/-- The wording of the complaint. -/
def ForeignValue.message (e : ForeignValue) : String := "cannot serialize " ++ e.kind

namespace Value

mutual

/-- A value whose last line is indented by `level`.  A foreign value is written as nothing. -/
def write (level : Nat) : Value → String
  | null => "null"
  | bool b => if b then "true" else "false"
  | int n => toString n
  | text s => quoted s
  | list values => enclose "[" "]" level (writeAll (level + 1) values)
  | dict entries =>
    enclose Text.openBrace Text.closeBrace level (writeEntries (level + 1) entries)
  | foreign _ => ""

/-- The texts of values. -/
def writeAll (level : Nat) : List Value → List String
  | [] => []
  | v :: vs => v.write level :: writeAll level vs

/-- The texts of entries. -/
def writeEntries (level : Nat) : List (Key × Value) → List String
  | [] => []
  | (k, v) :: entries => (quoted k.name ++ ": " ++ v.write level) :: writeEntries level entries

end

/-- A value as JSON, or the complaint that a part of it cannot be written. -/
def render (v : Value) : Except ForeignValue String :=
  match v.foreign? with
  | some kind => .error ⟨kind⟩
  | none => .ok (v.write 0)

end Value

end SharpScript.Json
