import SharpScript.Proofs.Types.Syntax

/-! # How types begin

A rule that looks at one or two tokens tells a type from other things by how the type begins:
with the bracket of a tuple or with a word, and in the latter case with nothing but the word,
or with a sign behind it.

## Main Definitions

* `TypeSyntax.firstWord`: the word that a type begins with, if it does not begin with a tuple;
* `TypeSyntax.isWord`, `TypeSyntax.startsArray`: types that are one word, and types in which
  the brackets of an array come right behind the first word;
* `Opening`: the first two tokens, in terms of these.

## Main Results

* `TypeSyntax.opening`: **how a type begins**.
-/

namespace SharpScript

/-! ## First words -/

/-- The word of a part of a qualified name. -/
def NamePart.firstWord : NamePart → Identifier
  | .plain i => i
  | .generic i _ => i

/-- The first word of a qualified name. -/
def TypeName.firstWord : TypeName → Identifier
  | .part p => p.firstWord
  | .qualified n _ _ => n.firstWord

mutual

/-- The word that a type begins with, if it does not begin with a tuple. -/
def TypeSyntax.firstWord : TypeSyntax → Option Identifier
  | .solid t => t.firstWord
  | .nullable t => t.firstWord

/-- The same for types that do not end in `?`. -/
def SolidType.firstWord : SolidType → Option Identifier
  | .name n => some n.firstWord
  | .tuple _ => none
  | .array t _ => t.firstWord
  | .pointer t => t.firstWord

end

/-! ## Single words -/

def NamePart.isWord : NamePart → Bool
  | .plain _ => true
  | .generic _ _ => false

def TypeName.isWord : TypeName → Bool
  | .part p => p.isWord
  | .qualified _ _ _ => false

def SolidType.isWord : SolidType → Bool
  | .name n => n.isWord
  | _ => false

/-- Types of one word. -/
def TypeSyntax.isWord : TypeSyntax → Bool
  | .solid t => t.isWord
  | .nullable _ => false

mutual

/-- Types in which the brackets of an array come right behind a first word. -/
def TypeSyntax.startsArray : TypeSyntax → Bool
  | .solid t => t.startsArray
  | .nullable t => t.startsArray

/-- The same for types that do not end in `?`. -/
def SolidType.startsArray : SolidType → Bool
  | .name _ => false
  | .tuple _ => false
  | .array t _ => t.isWord || t.startsArray
  | .pointer t => t.startsArray

end

/-! ## The first two tokens -/

/-- The signs that may come behind the first word of a type. -/
def wordContinuations : List String := ["[", "?", "*", ".", "::", "<"]

/-- How tokens of a type begin: with a first word, behind which nothing comes or a sign, or
with the bracket of a tuple.  The sign is a square bracket if `array` holds. -/
inductive Opening : List (Kind × String) → Option Identifier → (word array : Bool) → Prop
  | word (i : Identifier) : Opening [i.content] (some i) true false
  | long (i : Identifier) {w : String} (hw : w ∈ wordContinuations)
      (ks : List (Kind × String)) :
      Opening (i.content :: sign w :: ks) (some i) false (w == "[")
  | tuple (ks : List (Kind × String)) : Opening (sign "(" :: ks) none false false

variable {ks : List (Kind × String)} {i : Option Identifier} {word array : Bool}

/-- What comes behind a type does not change how it begins, unless it is a single word. -/
theorem Opening.append (h : Opening ks i word array) {w : String} (hw : w ∈ wordContinuations)
    (ls : List (Kind × String)) :
    Opening (ks ++ sign w :: ls) i false (array || (word && w == "[")) := by
  cases h with
  | word i => exact .long i hw ls
  | long i hw' ks => simpa using Opening.long i hw' (ks ++ sign w :: ls)
  | tuple ks => exact .tuple (ks ++ sign w :: ls)

theorem Opening.head?_eq (h : Opening ks i word array) :
    ks.head? = some (i.elim (sign "(") Identifier.content) := by
  cases h <;> rfl

theorem NamePart.opening (p : NamePart) :
    Opening p.contents (some p.firstWord) p.isWord false := by
  cases p with
  | plain i => exact .word i
  | generic i args => exact .long i (w := "<") (by decide) _

theorem TypeName.opening :
    ∀ n : TypeName, Opening n.contents (some n.firstWord) n.isWord false
  | .part p => p.opening
  | .qualified n q p => by
    have hq : q.text ∈ wordContinuations ∧ (q.text == "[") = false := by cases q <;> decide
    simpa [TypeName.contents, TypeName.firstWord, TypeName.isWord, hq.2] using
      n.opening.append hq.1 p.contents

mutual

/-- **How a type begins.** -/
theorem TypeSyntax.opening :
    ∀ T : TypeSyntax, Opening T.contents T.firstWord T.isWord T.startsArray
  | .solid t => t.opening
  | .nullable t => by
    simpa [TypeSyntax.contents, TypeSyntax.firstWord, TypeSyntax.isWord,
      TypeSyntax.startsArray] using t.opening.append (w := "?") (by decide) []

theorem SolidType.opening :
    ∀ T : SolidType, Opening T.contents T.firstWord T.isWord T.startsArray
  | .name n => n.opening
  | .tuple es => .tuple _
  | .array t commas => by
    simpa [SolidType.contents, SolidType.firstWord, SolidType.isWord, SolidType.startsArray,
      Bool.or_comm] using t.opening.append (w := "[") (by decide) _
  | .pointer t => by
    simpa [SolidType.contents, SolidType.firstWord, SolidType.isWord, SolidType.startsArray]
      using t.opening.append (w := "*") (by decide) []

end

end SharpScript
