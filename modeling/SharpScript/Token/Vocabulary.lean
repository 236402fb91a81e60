import SharpScript.Token.Number

/-! # Keywords and operators

## Main Definitions

* `keywords`: the reserved words;
* `operators`: the operators, a longer one before every shorter one that it starts with;
* `operatorLength?`: the operator at the head of a text.

## Design Notes

`>>` and `>>=` are no operators, so that the lists of type arguments in
`A<B<C>>` close one by one.
-/

namespace SharpScript.Lexer

/-- The reserved words. -/
def keywords : List String := [
  "abstract", "base", "break", "case", "catch", "checked", "class", "const", "continue",
  "default", "delegate", "do", "else", "enum", "event", "explicit", "extern", "finally",
  "fixed", "for", "foreach", "goto", "if", "implicit", "in", "interface", "internal", "lock",
  "namespace", "new", "operator", "out", "override", "params", "private", "protected",
  "public", "readonly", "ref", "return", "sealed", "stackalloc", "static", "struct", "switch",
  "this", "throw", "try", "unchecked", "unsafe", "using", "virtual", "volatile", "while"]

/-- The operators, the longest first. -/
def operators : List String := [
  "<<=", "??=",
  "=>", "==", "!=", "<=", ">=", "&&", "||", "++", "--", "+=", "-=", "*=", "/=", "%=", "&=",
  "|=", "^=", "->", "??", "::", "<<", "..",
  "+", "-", "*", "/", "%", "&", "|", "^", "~", "!", "<", ">", "=", "(", ")", "[", "]",
  Text.openBrace, Text.closeBrace, ",", ":", ";", ".", "?"]

/-- The length of the longest operator at the head of a text. -/
def operatorLength? (cs : List Char) : Option Nat :=
  (operators.find? fun op => op.toList.isPrefixOf cs).map String.length

end SharpScript.Lexer
