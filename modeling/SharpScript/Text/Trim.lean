import SharpScript.Text.CharSet

/-! # Trimming

The characters that count as blank at the two ends of a text.  The zero-width space U+200B and
the byte-order mark U+FEFF are not among them.

## Main Definitions

* `isSpace`: blank characters;
* `trim`: a text without the blanks at its ends.
-/

namespace SharpScript.Text

/-- The blank characters. -/
def spaces : CharSet := ⟨[
  (0x09, 0x0d), (0x1c, 0x20), (0x85, 0x85), (0xa0, 0xa0), (0x1680, 0x1680), (0x2000, 0x200a),
  (0x2028, 0x2029), (0x202f, 0x202f), (0x205f, 0x205f), (0x3000, 0x3000)]⟩

/-- A blank character. -/
def isSpace (c : Char) : Bool := spaces.has c

/-- The characters of a list without the blanks at its end. -/
def dropRight : List Char → List Char
  | [] => []
  | c :: cs =>
    match dropRight cs with
    | [] => if isSpace c then [] else [c]
    | kept => c :: kept

/-- A text without the blanks at its two ends. -/
def trim (s : String) : String := String.ofList (dropRight (s.toList.dropWhile isSpace))

end SharpScript.Text
