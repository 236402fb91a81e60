import SharpScript.Text.Word
import SharpScript.Tree.Basic

/-! # Replacing words

A replacement maps old words to new ones. It acts on a text in one pass from left to right:
wherever an old word stands between two boundaries, the new one is put in its place, and what
has been put in is not looked at again.

## Main Definitions

* `Replacement`: pairs of an old and a new word, where the last pair for an old word counts;
* `Replacement.best?`: the old word that is replaced at a place;
* `Replacement.apply`: a text with its words replaced;
* `Member.replace`: a member with the words of its body replaced.

## Design Notes

Old words are compared literally and need not be words at all. Where several match, the longest
is replaced. The empty word matches at every boundary where no other one does: its replacement
is put in there and the text goes on unchanged.
-/

namespace SharpScript

/-- Pairs of an old and a new word.  The last pair for an old word counts. -/
structure Replacement where
  pairs : List (String × String)
deriving DecidableEq, Inhabited, Repr

namespace Replacement

/-- Whether `old` stands at the head of `cs` with a boundary behind it, where `before` is the
character before `cs`. -/
def standsAt (old : List Char) (before : Option Char) (cs : List Char) : Bool :=
  old.isPrefixOf cs &&
    Text.boundary (old.getLast?.or before) (cs.drop old.length).head?

/-- The later of two candidates, unless the first is longer. -/
def longer (first : Option (List Char × List Char)) (second : List Char × List Char) :
    Option (List Char × List Char) :=
  match first with
  | none => some second
  | some f => if f.1.length ≤ second.1.length then some second else some f

/-- The longest old word that stands at the head of `cs`, and what replaces it. -/
def best? (r : Replacement) (before : Option Char) (cs : List Char) :
    Option (List Char × List Char) :=
  let candidates := (r.pairs.map fun p => (p.1.toList, p.2.toList)).filter
    fun p => standsAt p.1 before cs
  candidates.foldl longer none

/-- The old word that is replaced at the head of `cs`, which must start at a boundary, and what
replaces it. -/
def matchAt? (r : Replacement) (before : Option Char) (cs : List Char) :
    Option (List Char × List Char) :=
  if Text.boundary before cs.head? then r.best? before cs else none

/-- The text `cs` behind the character `before` with its words replaced, where `skip`
characters belong to a word that has been replaced already. -/
def scan (r : Replacement) (before : Option Char) : (skip : Nat) → List Char → List Char
  | _, [] =>
    match r.matchAt? before [] with
    | some (_, new) => new
    | none => []
  | skip + 1, c :: cs => r.scan (some c) skip cs
  | 0, c :: cs =>
    match r.matchAt? before (c :: cs) with
    | some ([], new) => new ++ c :: r.scan (some c) 0 cs
    | some (_ :: old, new) => new ++ r.scan (some c) old.length cs
    | none => c :: r.scan (some c) 0 cs

/-- A text with its words replaced. -/
def apply (r : Replacement) (s : String) : String := String.ofList (r.scan none 0 s.toList)

end Replacement

/-- The form of a member with the words of its body replaced. -/
def MemberForm.replace (r : Replacement) : MemberForm → MemberForm
  | method name params body => method name params (body.map (·.map r.apply))
  | constructor name params body => constructor name params (body.map (·.map r.apply))
  | form => form

/-- A member with the words of its body replaced. -/
def Member.replace (r : Replacement) (m : Member) : Member :=
  { m with form := m.form.replace r }

/-- An item of a class with the words of its body replaced, if it is a member; other items keep
their own. -/
def Item.replace (r : Replacement) : Item → Item
  | member m => member (m.replace r)
  | item => item

/-- A class with the words of its members' bodies replaced; other items are unchanged. -/
def Item.replaceMembers (r : Replacement) : Item → Item
  | type .classType lead name bases items =>
    type .classType lead name bases (items.map (·.replace r))
  | item => item

end SharpScript
