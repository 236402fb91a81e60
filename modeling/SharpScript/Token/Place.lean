/-! # Places in a source text

A place is where a character of the source stands, or where the source ends. It is a function
of the characters before it, so it is computed by walking over them.

## Main Definitions

* `Place`: offset, line and column, and whether the line is still bare;
* `Place.after`: the place reached by walking over a list of characters;
* `Pos`: the line and column alone, as a tree keeps them.
-/

namespace SharpScript

/-- A line and a column, both counted from one. -/
structure Pos where
  line : Nat
  col : Nat
deriving DecidableEq, Inhabited, Repr

/-- A place in a source text.  The offset counts characters from zero, the line and
the column count from one, and `bare` says that only spaces and tabs stand before
the place on its line. -/
structure Place where
  offset : Nat
  line : Nat
  col : Nat
  bare : Bool
deriving DecidableEq, Inhabited, Repr

namespace Place

/-- The place of the first character. -/
def start : Place := ⟨0, 1, 1, true⟩

/-- The place behind the character `c`. -/
def step (p : Place) (c : Char) : Place where
  offset := p.offset + 1
  line := if c == '\n' then p.line + 1 else p.line
  col := if c == '\n' then 1 else p.col + 1
  bare := c == '\n' || (p.bare && (c == ' ' || c == '\t'))

/-- The place behind the characters `cs`. -/
def after (p : Place) (cs : List Char) : Place := cs.foldl step p

/-- The line and column of a place. -/
def pos (p : Place) : Pos := ⟨p.line, p.col⟩

@[simp] theorem after_nil (p : Place) : p.after [] = p := rfl

@[simp] theorem after_cons (p : Place) (c : Char) (cs : List Char) :
    p.after (c :: cs) = (p.step c).after cs := rfl

theorem after_append (p : Place) (cs ds : List Char) :
    p.after (cs ++ ds) = (p.after cs).after ds := by
  simp [after]

theorem offset_after (p : Place) (cs : List Char) :
    (p.after cs).offset = p.offset + cs.length := by
  induction cs generalizing p with
  | nil => rfl
  | cons c cs ih => simp [ih, step]; omega

end Place

end SharpScript
