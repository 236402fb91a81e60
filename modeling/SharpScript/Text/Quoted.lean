import SharpScript.Text.Printable

/-! # Texts in quotes and in braces

How a text is shown inside a message: between quotes, on one line, with every character that
would not be visible written by its code point.

## Main Definitions

* `escape`: one character inside quotes;
* `quoteMark`: the quote that a text is put in;
* `quoted`: the text in its quotes;
* `openBrace`, `closeBrace`, `braced`: the two braces, and a text between them.

## Design Notes

The apostrophe is the usual quote.  A text that holds apostrophes and no double quotes is put
in double quotes, so that nothing in it needs a backslash.
-/

namespace SharpScript.Text

/-- The hexadecimal digit of `d < 16`, in lower case. -/
def hexDigit (d : Nat) : Char := Char.ofNat (if d < 10 then 48 + d else 87 + d)

/-- The last `width` hexadecimal digits of `n`, the most significant first. -/
def hex : (width n : Nat) → List Char
  | 0, _ => []
  | width + 1, n => hex width (n / 16) ++ [hexDigit (n % 16)]

/-- A character by its code point: two, four or eight hexadecimal digits. -/
def codePoint (c : Char) : List Char :=
  if c.toNat < 0x100 then '\\' :: 'x' :: hex 2 c.toNat
  else if c.toNat < 0x10000 then '\\' :: 'u' :: hex 4 c.toNat
  else '\\' :: 'U' :: hex 8 c.toNat

/-- A character as it stands between two marks `mark`. -/
def escape (mark c : Char) : List Char :=
  if c == mark || c == '\\' then ['\\', c]
  else if c == '\n' then ['\\', 'n']
  else if c == '\r' then ['\\', 'r']
  else if c == '\t' then ['\\', 't']
  else if isPrintable c then [c]
  else codePoint c

/-- The quote for a text: an apostrophe, unless only double quotes avoid a backslash. -/
def quoteMark (s : String) : Char :=
  if s.toList.contains '\'' && !s.toList.contains '"' then '"' else '\''

/-- A text between quotes, on one line. -/
def quoted (s : String) : String :=
  let mark := quoteMark s
  String.ofList (mark :: s.toList.flatMap (escape mark) ++ [mark])

/-- The sign that opens a block, a body or a hole. -/
@[simp] abbrev openBrace : String := "\x7b"

/-- The sign that closes it. -/
@[simp] abbrev closeBrace : String := "\x7d"

/-- A text between braces. -/
def braced (s : String) : String := openBrace ++ s ++ closeBrace

end SharpScript.Text
