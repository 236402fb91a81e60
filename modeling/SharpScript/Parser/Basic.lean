import SharpScript.Parser.Failure

/-! # Parsers

A parser reads tokens from the front of a list and gives a value and the tokens
that are left, or it fails.

## Main Definitions

* `Parser`: parsers, as a state monad over the tokens that are left;
* `Ahead`: tests on the tokens ahead;
* `Parser.accept`, `Parser.expect`, `Parser.identifier`: reading one token;
* `Parser.fix`: a parser that calls itself, which satisfies its equation by `Parser.fix_eq`;
* `Parser.loop`, `Parser.repeatWhile`, `Parser.gather`, `Parser.collect`: repetition;
* `Parser.verbatim`: the source text of what a parser reads.

## Design Notes

A parser that calls itself must have read a token in between.  `fix` therefore needs no more
nested calls than there are tokens, and it is defined by recursion on that number.

There is no other bound on how deep rules may call themselves.  A program that limits the depth
of its calls gives up on a source with about a thousand statements inside one another; such a
limit is no part of the grammar, and the rules here read that source to its end.
-/

namespace SharpScript

namespace Ahead

/-- Whether the next token reads as `w`.  The end reads as the empty word. -/
def reads (w : String) : List Token → Bool
  | [] => w == ""
  | t :: _ => t.reads w

/-- Whether the next token reads as one of the words. -/
def readsAny (ws : List String) (ts : List Token) : Bool := ws.any fun w => reads w ts

/-- The text of the token `n` behind the next one, which is empty past the end. -/
def text (n : Nat) (ts : List Token) : String := (ts[n]?.map Token.text).getD ""

/-- Whether the token `n` behind the next one is an identifier or a keyword. -/
def isWord (n : Nat) (ts : List Token) : Bool := ts[n]?.any fun t => t.kind.isWord

/-- Whether the token `n` behind the next one is an identifier. -/
def isIdentifier (n : Nat) (ts : List Token) : Bool := ts[n]?.any fun t => t.kind.isIdentifier

/-- Whether the next token is one of the operators `ws`. -/
def isOperator (ws : List String) (ts : List Token) : Bool :=
  ts.head?.any fun t => t.kind == .operator && ws.contains t.text

end Ahead

/-- A parser reads tokens from the front of a list. -/
abbrev Parser := StateT (List Token) (Except Failure)

namespace Parser

variable {α β σ ι : Type}

/-! ## Reading tokens -/

/-- Fails at the next token. -/
def fail (p : Problem) : Parser α := fun ts => .error ⟨p, ts⟩

/-- A test on the tokens ahead, which reads none of them. -/
def ahead (f : List Token → α) : Parser α := fun ts => .ok (f ts, ts)

/-- Whether the next token reads as `w`. -/
def isAt (w : String) : Parser Bool := ahead (Ahead.reads w)

/-- Whether no token is left. -/
def atEnd : Parser Bool := ahead List.isEmpty

/-- Passes over the next token, if there is one. -/
def advance : Parser Unit := fun ts => .ok ((), ts.tail)

/-- Passes over the next token if it reads as `w`, and says whether it did. -/
def accept (w : String) : Parser Bool := do
  if ← isAt w then
    advance
    return true
  else
    return false

/-- Passes over the next token, which must read as `w`. -/
def expect (w : String) : Parser Unit := do
  if ← isAt w then advance else fail (.expected (.word w))

/-- Reads an identifier. -/
def identifier : Parser Token
  | [] => .error ⟨.expected .identifier, []⟩
  | t :: ts =>
    if t.kind.isIdentifier then .ok (t, ts) else .error ⟨.expected .identifier, t :: ts⟩

/-- The position of the next token.  At the end there is none; a parser that asks for it there
fails on the token that it needs next. -/
def here : Parser Pos := ahead fun ts => (ts.head?.map fun t => t.place.pos).getD default

/-! ## Repetition -/

/-- `descend step n` is `step` with itself in place of its argument,
nested at most `n` deep. -/
def descend (step : (ι → Parser α) → ι → Parser α) : Nat → ι → Parser α
  | 0, _ => fail .stalled
  | n + 1, i => step (descend step n) i

/-- The parser that `step` defines by calling itself, each time with fewer tokens left. -/
def fix (step : (ι → Parser α) → ι → Parser α) (i : ι) : Parser α :=
  fun ts => descend step (ts.length + 1) i ts

/-- `step` calls what it is given only with fewer tokens left. -/
def Guarded (step : (ι → Parser α) → ι → Parser α) : Prop :=
  ∀ (p q : ι → Parser α) (i : ι) (ts : List Token),
    (∀ j us, us.length < ts.length → p j us = q j us) → step p i ts = step q i ts

/-- Nesting deeper than there are tokens makes no difference. -/
theorem descend_eq {step : (ι → Parser α) → ι → Parser α} (guarded : Guarded step) :
    ∀ (m n : Nat) (i : ι) (ts : List Token), ts.length < m → ts.length < n →
      descend step m i ts = descend step n i ts := by
  intro m
  induction m with
  | zero => intro n i ts hm; omega
  | succ m ih =>
    intro n i ts hm hn
    cases n with
    | zero => omega
    | succ n =>
      apply guarded
      intro j us hus
      exact ih n j us (by omega) (by omega)

/-- The parser that `step` defines satisfies the equation that `step` states. -/
theorem fix_eq {step : (ι → Parser α) → ι → Parser α} (guarded : Guarded step) (i : ι) :
    fix step i = step (fix step) i := by
  funext ts
  show step (descend step ts.length) i ts = _
  apply guarded
  intro j us hus
  exact descend_eq guarded _ _ j us hus (by omega)

/-- Runs `step` until it gives a result, where `.inl` is the state for the next round. -/
def loop (step : σ → Parser (σ ⊕ β)) : σ → Parser β :=
  fix fun again s => do
    match ← step s with
    | .inl s => again s
    | .inr b => return b

/-- Runs `step` as long as it says so. -/
def repeatWhile (step : Parser Bool) : Parser Unit :=
  loop (fun _ => return if ← step then .inl () else .inr ()) ()

/-- Appends what `item` gives until it gives nothing. -/
def gather [EmptyCollection α] [Append α] (item : Parser (Option α)) : Parser α :=
  fix (fun again _ => do
    match ← item with
    | some a => return a ++ (← again ())
    | none => return ∅) ()

/-- What `item` gives, once and then as often as `more` asks for another. -/
def collect (item : Parser α) (more : Parser Bool) : Parser (List α) := do
  let first ← item
  let rest ← gather do
    if ← more then return some [← item] else return none
  return first :: rest

/-- Whether a comma introduces another item before `close`; a comma right before `close` is
read and introduces none. -/
def commaBefore (close : String) : Parser Bool := do
  if ← accept "," then return !(← isAt close) else return false

/-! ## Source text -/

/-- What `p` gives and the tokens that it reads. -/
def consumed (p : Parser α) : Parser (α × List Token) := fun ts =>
  match p ts with
  | .ok (a, rest) => .ok ((a, ts.take (ts.length - rest.length)), rest)
  | .error e => .error e

/-- What `p` gives and the source text of the tokens that it reads.  There is no
source text of no tokens. -/
def spelled (p : Parser α) : Parser (α × String) := do
  let (a, ts) ← consumed p
  if ts.isEmpty then fail .stalled else return (a, Token.spelling ts)

/-- The source text of the tokens that `p` reads. -/
def verbatim (p : Parser Unit) : Parser String := do
  return (← spelled p).2

end Parser

end SharpScript
