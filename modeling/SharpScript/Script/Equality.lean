/-! # Strict equality

## Main Definitions

* `strictEquality`: a text in which `==` is written as `===`, and then `!=` as `!==`.

## Design Notes

The signs are replaced wherever they stand, also inside string literals and comments, from left
to right and without looking again at what has been written.
-/

namespace SharpScript

/-- Puts one more `=` behind each pair of the sign `a` and `=`. -/
def extendPairs (a : Char) : List Char → List Char
  | [] => []
  | [c] => [c]
  | c :: d :: cs =>
    if c == a && d == '=' then a :: '=' :: '=' :: extendPairs a cs
    else c :: extendPairs a (d :: cs)

/-- A text with strict comparisons. -/
def strictEquality (s : String) : String :=
  String.ofList (extendPairs '!' (extendPairs '=' s.toList))

end SharpScript
