import SharpScript.Proofs.Parser.PrimitiveGroups
import SharpScript.Proofs.Parser.Termination
import SharpScript.Proofs.Printing.Locality

/-! # Where an expression ends

An expression is passed over chunk by chunk, up to the first stop sign.  The signs are looked
for before the brackets are, so a bracket may be a stop sign itself; it ends the expression
then and neither opens a group nor is out of place.

## Main Definitions

* `Token.IsStop`: the token is one of the stop signs;
* `IsOperand`: a token or a group that an expression goes on with;
* `ExpressionEnds`: an expression from one place of a list of tokens to another.

## Main Results

* `Parser.chunk_eq_ok_iff`, `Parser.skipTo_eq_ok_iff`: what is passed over as one
  chunk, and up to a stop sign;
* `Parser.expression_ends`: **an expression ends at the first stop sign that is in no group**,
  and where there is none, or nothing before it, it fails.
-/

namespace SharpScript

/-- The token is one of the operators `stops`. -/
def Token.IsStop (stops : List String) (t : Token) : Prop :=
  t.kind = .operator ∧ t.text ∈ stops

/-- What an expression goes on with: a token that is no bracket, or a primitive group, where
neither the token nor the first one of the group is a stop sign. -/
inductive IsOperand (stops : List String) : List Token → Prop
  | token {t : Token} (ht : t.sign? = none) (hstop : ¬t.IsStop stops) : IsOperand stops [t]
  | group {w : List Token} (hw : IsPrimitive w) (hstop : ∀ t ∈ w.head?, ¬t.IsStop stops) :
      IsOperand stops w

/-- From the place `p` on, an expression ends at the place `q`: a stop sign stands there, and
before it there are operands, at least one, and nothing else. -/
structure ExpressionEnds (stops : List String) (ts : List Token) (p q : Nat) : Prop where
  after : p < q
  stop : ∃ t ∈ ts[q]?, t.IsStop stops
  operands : ∃ cs : List (List Token), (ts.drop p).take (q - p) = cs.flatten ∧
    ∀ c ∈ cs, IsOperand stops c

section Operands

variable {stops : List String} {t : Token} {c ts rest : List Token}

theorem isOperator_iff : Ahead.isOperator stops ts = true ↔
    ∃ t ∈ ts.head?, t.IsStop stops := by
  cases ts with
  | nil => simp [Ahead.isOperator]
  | cons t ts => simp [Ahead.isOperator, Token.IsStop]

/-- A list of tokens does not begin with a stop sign. -/
theorem isOperator_cons_eq_false : Ahead.isOperator stops (t :: ts) = false ↔
    ¬t.IsStop stops := by
  rw [← Bool.not_eq_true, isOperator_iff]
  simp

theorem IsOperand.isChunk (h : IsOperand stops c) : IsChunk c := by
  cases h with
  | token ht => exact .token ht
  | group hw =>
    obtain ⟨b, hgroup⟩ := isPrimitive_iff.mp hw
    exact .group hgroup

theorem IsOperand.isOperator_eq (h : IsOperand stops c) (rest : List Token) :
    Ahead.isOperator stops (c ++ rest) = false := by
  cases h with
  | token _ hstop => exact isOperator_cons_eq_false.mpr hstop
  | group hw hstop =>
    obtain ⟨t, w, rfl⟩ := List.exists_cons_of_ne_nil hw.ne_nil
    exact isOperator_cons_eq_false.mpr (hstop t rfl)

/-- A chunk that does not begin with a stop sign is an operand. -/
theorem isOperand_of_isChunk (h : IsChunk c)
    (hstop : Ahead.isOperator stops (c ++ rest) = false) :
    IsOperand stops c := by
  cases h with
  | token ht => exact .token ht (isOperator_cons_eq_false.mp hstop)
  | group hgroup =>
    obtain ⟨t, w, rfl, -⟩ := hgroup.exists_cons
    refine .group (isPrimitive_iff.mpr ⟨_, hgroup⟩) ?_
    rintro _ ⟨⟩
    exact isOperator_cons_eq_false.mp hstop

end Operands

namespace Parser

variable {stops : List String} {stop : List Token → Bool} {ts mid rest : List Token}

theorem chunk_eq_ok_iff : chunk ts = .ok ((), rest) ↔ ∃ c, IsChunk c ∧ ts = c ++ rest := by
  constructor
  · intro h
    cases ts with
    | nil => cases h
    | cons t ts =>
      rw [chunk] at h
      split at h
      · obtain ⟨w, hw, hts⟩ := group_eq_ok_iff.mp h
        obtain ⟨b, hgroup⟩ := isPrimitive_iff.mp hw
        exact ⟨w, .group hgroup, hts⟩
      · rename_i hopened
        split at h
        · cases h
        · rename_i hclosed
          cases h
          refine ⟨[t], .token ?_, rfl⟩
          rw [Token.sign?, Option.not_isSome_iff_eq_none.mp hopened,
            Option.not_isSome_iff_eq_none.mp hclosed, Option.map_none]
  · rintro ⟨c, hc, rfl⟩
    exact chunk_of_isChunk hc rest

/-- Chunks are passed over one after the other. -/
theorem skipTo_step : skipTo stop ts = .ok ((), rest) ↔ (stop ts = true ∧ rest = ts) ∨
    (stop ts = false ∧ ∃ mid, chunk ts = .ok ((), mid) ∧
      skipTo stop mid = .ok ((), rest)) := by
  have hround : ∀ ts mid, (ahead stop >>= fun b => if b = true then pure false
      else chunk >>= fun _ => pure true) ts = .ok (true, mid) → mid.length < ts.length := by
    intro ts mid h
    rcases skipTo_round.mp h with ⟨-, h, -⟩ | ⟨-, -, h⟩
    · cases h
    · exact (consumes_chunk.ok h).2 trivial
  refine (repeatWhile_eq_ok hround).trans ⟨?_, ?_⟩
  · rintro (hlast | ⟨mid, hfirst, hrest⟩)
    · rcases skipTo_round.mp hlast with ⟨hstop, -, heq⟩ | ⟨-, h, -⟩
      · exact .inl ⟨hstop, heq⟩
      · cases h
    · rcases skipTo_round.mp hfirst with ⟨-, h, -⟩ | ⟨hstop, -, hchunk⟩
      · cases h
      · exact .inr ⟨hstop, mid, hchunk, hrest⟩
  · rintro (⟨hstop, heq⟩ | ⟨hstop, mid, hchunk, hrest⟩)
    · exact .inl (skipTo_round.mpr (.inl ⟨hstop, rfl, heq⟩))
    · exact .inr ⟨mid, skipTo_round.mpr (.inr ⟨hstop, rfl, hchunk⟩), hrest⟩

/-- Operands are passed over, up to the first stop sign. -/
theorem skipTo_eq_ok_iff : skipTo (Ahead.isOperator stops) ts = .ok ((), rest) ↔
    Ahead.isOperator stops rest = true ∧
      ∃ cs : List (List Token), ts = cs.flatten ++ rest ∧ ∀ c ∈ cs, IsOperand stops c := by
  constructor
  · intro h
    induction hn : ts.length using Nat.strongRecOn generalizing ts with
    | _ n ih =>
      rcases skipTo_step.mp h with ⟨hstop, rfl⟩ | ⟨hstop, mid, hchunk, hrest⟩
      · exact ⟨hstop, [], rfl, nofun⟩
      · obtain ⟨c, hc, rfl⟩ := chunk_eq_ok_iff.mp hchunk
        have hlength := List.length_pos_of_ne_nil hc.ne_nil
        rw [List.length_append] at hn
        obtain ⟨hend, cs, rfl, hcs⟩ := ih mid.length (by omega) hrest rfl
        refine ⟨hend, c :: cs, by simp, List.forall_mem_cons.mpr ⟨?_, hcs⟩⟩
        exact isOperand_of_isChunk hc hstop
  · rintro ⟨hend, cs, rfl, hcs⟩
    induction cs with
    | nil => exact skipTo_step.mpr (.inl ⟨hend, rfl⟩)
    | cons c cs ih =>
      obtain ⟨hc, hcs⟩ := List.forall_mem_cons.mp hcs
      rw [List.flatten_cons, List.append_assoc]
      exact skipTo_step.mpr
        (.inr ⟨hc.isOperator_eq _, _, chunk_of_isChunk hc.isChunk _, ih hcs⟩)

/-- An expression has one operand or more. -/
theorem expression_eq_ok_iff : expression stops ts = .ok ((), rest) ↔
    Ahead.isOperator stops rest = true ∧ ∃ cs : List (List Token),
      ts = cs.flatten ++ rest ∧ cs.flatten ≠ [] ∧ ∀ c ∈ cs, IsOperand stops c := by
  have hrun : expression stops ts = .ok ((), rest) ↔ Ahead.isOperator stops ts = false ∧
      skipTo (Ahead.isOperator stops) ts = .ok ((), rest) := by
    rw [expression, ahead_bind]
    cases Ahead.isOperator stops ts with
    | true => exact ⟨nofun, nofun⟩
    | false => exact ⟨fun h => ⟨rfl, h⟩, And.right⟩
  rw [hrun, skipTo_eq_ok_iff]
  constructor
  · rintro ⟨hstart, hend, cs, rfl, hcs⟩
    refine ⟨hend, cs, rfl, fun hnil => ?_, hcs⟩
    rw [hnil, List.nil_append, hend] at hstart
    cases hstart
  · rintro ⟨hend, cs, rfl, hne, hcs⟩
    refine ⟨?_, hend, cs, rfl, hcs⟩
    cases cs with
    | nil => exact absurd rfl hne
    | cons c cs =>
      rw [List.flatten_cons, List.append_assoc]
      exact (hcs c List.mem_cons_self).isOperator_eq _

end Parser

/-! ## Places -/

namespace ExpressionEnds

variable {stops : List String} {ts : List Token} {p q q' : Nat}

theorem lt_length (h : ExpressionEnds stops ts p q) : q < ts.length := by
  obtain ⟨t, ht, -⟩ := h.stop
  exact (List.getElem?_eq_some_iff.mp ht).1

theorem expression_eq (h : ExpressionEnds stops ts p q) :
    Parser.expression stops (ts.drop p) = .ok ((), ts.drop q) := by
  obtain ⟨cs, hoperands, hcs⟩ := h.operands
  refine Parser.expression_eq_ok_iff.mpr ⟨?_, cs, ?_, ?_, hcs⟩
  · rw [isOperator_iff, List.head?_drop]
    exact h.stop
  · rw [← hoperands]
    exact drop_eq_take_append ts h.after.le
  · rw [← hoperands, ← List.length_pos_iff, List.length_take, List.length_drop]
    have := h.after
    have := h.lt_length
    omega

theorem unique (h : ExpressionEnds stops ts p q) (h' : ExpressionEnds stops ts p q') :
    q = q' := by
  have hrun := h.expression_eq
  rw [h'.expression_eq] at hrun
  obtain ⟨-, hdrop⟩ := Prod.mk.inj (Except.ok.inj hrun)
  have hlength := congrArg List.length hdrop
  rw [List.length_drop, List.length_drop] at hlength
  have := h.lt_length
  have := h'.lt_length
  omega

end ExpressionEnds

namespace Parser

theorem exists_expressionEnds {stops : List String} {ts rest : List Token} {p : Nat}
    (h : expression stops (ts.drop p) = .ok ((), rest)) :
    ∃ q, ExpressionEnds stops ts p q ∧ rest = ts.drop q := by
  obtain ⟨hend, cs, hts, hne, hcs⟩ := expression_eq_ok_iff.mp h
  obtain ⟨q, hpq, -, hoperands, rfl⟩ := exists_place hts hne
  rw [isOperator_iff, List.head?_drop] at hend
  exact ⟨q, ⟨hpq, hend, cs, hoperands, hcs⟩, rfl⟩

/-- **An expression ends at the first stop sign that is in no group**: at the one place where a
stop sign stands behind operands.  Where there is no such place, there is a failure. -/
theorem expression_ends (stops : List String) (ts : List Token) (p : Nat) :
    (∀ rest, expression stops (ts.drop p) = .ok ((), rest) ↔
      ∃ q, ExpressionEnds stops ts p q ∧ rest = ts.drop q) ∧
    (∀ q q', ExpressionEnds stops ts p q → ExpressionEnds stops ts p q' → q = q') ∧
    ((∀ q, ¬ExpressionEnds stops ts p q) → ∃ e, expression stops (ts.drop p) = .error e ∧
      e.left <:+ ts.drop p ∧ e.problem ≠ .stalled) := by
  refine ⟨fun rest => ⟨exists_expressionEnds, ?_⟩,
    fun q q' hq hq' => hq.unique hq', fun hnone => ?_⟩
  · rintro ⟨q, hq, rfl⟩
    exact hq.expression_eq
  · cases hrun : expression stops (ts.drop p) with
    | ok r =>
      obtain ⟨q, hq, -⟩ := exists_expressionEnds hrun
      exact absurd hq (hnone q)
    | error e =>
      obtain ⟨hleft, hproblem⟩ := (consumes_expression stops).error hrun
      exact ⟨e, rfl, hleft, hproblem⟩

/-- A bracket that is a stop sign, behind one that is not and opens a group. -/
theorem expression_ends_bracket :
    ∃ ts : List Token, ts.map Token.text = ["f", "(", "[", "]", ")", "[", "b", "]"] ∧
      ExpressionEnds ["["] ts 0 5 ∧ (∀ q, ExpressionEnds ["["] ts 0 q → q = 5) ∧
      (∀ q, ¬ExpressionEnds ["["] ts 6 q) ∧
      ∃ e, expression ["["] (ts.drop 6) = .error e ∧ e.message = "unexpected ']'" := by
  let name (w : String) : Token := ⟨.identifier false, w, "", .start⟩
  let sign (w : String) : Token := ⟨.operator, w, "", .start⟩
  let ts := [name "f", sign "(", sign "[", sign "]", sign ")", sign "[", name "b", sign "]"]
  obtain ⟨hends, hunique, -⟩ := expression_ends ["["] ts 0
  obtain ⟨q, hq, hrest⟩ := (hends (ts.drop 5)).mp rfl
  obtain rfl : q = 5 := by
    have hlength := congrArg List.length hrest
    rw [List.length_drop, List.length_drop] at hlength
    have := hq.lt_length
    have : ts.length = 8 := rfl
    omega
  refine ⟨ts, rfl, hq, fun q hq' => hunique q 5 hq' hq, fun q hq => ?_, _, rfl, by decide⟩
  exact nomatch hq.expression_eq

end Parser

end SharpScript
