import SharpScript.Parser.Declaration
import SharpScript.Token.Lexer

/-! # Reading a source text

## Main Definitions

* `SourceError`: why a source text cannot be read, with its wording and place;
* `parse`: the declarations of a source text.
-/

namespace SharpScript

/-- Why a source text cannot be read: it is not made of tokens, or its
tokens break the grammar. -/
inductive SourceError
  | lexical (fault : Fault)
  | grammar (failure : Failure) (stop : Place)
deriving DecidableEq, Inhabited, Repr

namespace SourceError

/-- The wording of an error. -/
def message : SourceError → String
  | lexical fault => fault.flaw.message
  | grammar failure _ => failure.message

/-- Where an error is reported. -/
def place : SourceError → Place
  | lexical fault => fault.place
  | grammar failure stop => failure.place stop

/-- The wording of an error with its line and column behind it. -/
def located (e : SourceError) : String :=
  e.message ++ " at line " ++ toString e.place.line ++ " col " ++ toString e.place.col

/-- The wording of an error with its line and column before it. -/
def tagged (e : SourceError) : String :=
  toString e.place.line ++ ":" ++ toString e.place.col ++ ": " ++ e.message

end SourceError

/-- The declarations of a text that has been cut into tokens. -/
def Tokenized.parse (t : Tokenized) : Except SourceError CompilationUnit :=
  match Parser.compilationUnit t.tokens with
  | .ok (unit, _) => .ok unit
  | .error failure => .error (.grammar failure t.stop)

/-- The declarations of a source text. -/
def parse (source : String) : Except SourceError CompilationUnit :=
  match tokenize source with
  | .ok t => t.parse
  | .error fault => .error (.lexical fault)

end SharpScript
