/-! # Values

The values that can be written as JSON, and those that cannot.

## Main Definitions

* `Json.Key`, `Json.Value`: values, and the keys of their dictionaries;
* `Json.Value.foreign?`: the first part of a value that cannot be written.

## Design Notes

A dictionary keeps its entries in order. Its keys need not be texts, and a key that is none is
written by its name.
-/

namespace SharpScript.Json

/-- The key of an entry. -/
inductive Key
  | text (s : String)
  | int (n : Int)
  | bool (b : Bool)
  | none
deriving DecidableEq, Inhabited, Repr

/-- The text that a key is written as. -/
def Key.name : Key → String
  | text s => s
  | int n => toString n
  | bool true => "True"
  | bool false => "False"
  | none => "None"

/-- A value.  A `foreign` value is of a kind that cannot be written. -/
inductive Value
  | null
  | bool (b : Bool)
  | int (n : Int)
  | text (s : String)
  | list (values : List Value)
  | dict (entries : List (Key × Value))
  | foreign (kind : String)
deriving Inhabited, Repr

namespace Value

mutual

/-- The kind of the first part of a value that cannot be written. -/
def foreign? : Value → Option String
  | null | bool _ | int _ | text _ => none
  | list values => foreignAmong? values
  | dict entries => foreignEntry? entries
  | foreign kind => some kind

/-- The kind of the first part of the values that cannot be written. -/
def foreignAmong? : List Value → Option String
  | [] => none
  | v :: vs => v.foreign? <|> foreignAmong? vs

/-- The kind of the first part of the entries that cannot be written. -/
def foreignEntry? : List (Key × Value) → Option String
  | [] => none
  | (_, v) :: entries => v.foreign? <|> foreignEntry? entries

end

/-- A dictionary whose keys are texts. -/
def object (entries : List (String × Value)) : Value :=
  dict (entries.map fun e => (.text e.1, e.2))

/-- A list of texts. -/
def texts (ss : List String) : Value := list (ss.map text)

/-- A text, or nothing. -/
def optional : Option String → Value
  | some s => text s
  | none => null

end Value

end SharpScript.Json
