import SharpScript.Proofs.Parser.Outlook
import SharpScript.Proofs.Parser.Reading
import SharpScript.Proofs.Printing.Texts

/-! # How a block is split into statements

A block is read as the texts of its statements.  Written line by line between braces, the
texts are split as they were, wherever the block comes from: no statement runs into the next
one, and none is split in two.

## Main Definitions

* `Parser.Statements`: tokens that are split into statements up to a closing brace;
* `blockText`: statements line by line between braces.

## Main Results

* `Parser.block_iff`: what a block is split into, in terms of `Parser.Statements`;
* `Parser.Statements.again`: texts line by line are split as they were before;
* `block_resplit`: **the statements of a block, written line by line, are read as the same
  statements**.

## Design Notes

A text alone may be split in another way than in its block: an `if` looks for an `else` behind
it.  So a text is not looked at alone.  What comes behind it on the next lines begins as what
came behind it in the block, which is shown from the last statement to the first.
-/

namespace SharpScript

open Lexer

/-- Statements line by line between braces. -/
def blockText (statements : List String) : String :=
  Text.braced ("\n" ++ "\n".intercalate statements ++ "\n")

/-- The tokens of a text that is written again. -/
theorem Lexed.shifted_of_line {w us : List Token} (hw : Lexed w)
    (h : Line (Token.spelling w) us) : Shifted w us := by
  obtain ⟨t, ht, hshift⟩ := h
  obtain ⟨vs, q, hvs, hshift'⟩ := hw.tokenize_spelling
  obtain rfl : t = ⟨vs, "", q⟩ := Except.ok.inj (ht.symm.trans hvs)
  exact hshift'.trans hshift

/-- The tokens of statements line by line between braces. -/
theorem tokenize_blockText {b : List String} (h : ∀ s ∈ b, ∃ t, tokenize s = .ok t) :
    ∃ t us g p g' p', tokenize (blockText b) = .ok t ∧
      t.tokens = ⟨.operator, Text.openBrace, g, p⟩ ::
      (us ++ [⟨.operator, Text.closeBrace, g', p'⟩]) ∧ Lines b us := by
  obtain ⟨t₁, ht₁, hlines⟩ := tokenize_intercalate h
  have htext :
      blockText b = "\n".intercalate [Text.openBrace, "\n".intercalate b,
        Text.closeBrace] := by
    rw [← String.toList_inj]
    simp [blockText, Text.braced, String.intercalate_cons_cons]
  have hcut :
      ∀ s ∈ [Text.openBrace, "\n".intercalate b, Text.closeBrace], ∃ t,
        tokenize s = .ok t := by
    simp only [List.forall_mem_cons]
    exact ⟨⟨_, rfl⟩, ⟨t₁, ht₁⟩, ⟨_, rfl⟩, nofun⟩
  obtain ⟨t, ht, hblock⟩ := tokenize_intercalate hcut
  obtain ⟨g, p, _, htokens, hbody⟩ := Lines.word (k := .operator) (by decide) hblock
  cases hbody with
  | @cons _ _ us _ head tail =>
    obtain ⟨g', p', _, rfl, hnil⟩ := Lines.word (k := .operator) (by decide) tail
    cases hnil
    obtain ⟨t₂, ht₂, hshift⟩ := head
    obtain rfl : t₁ = t₂ := Except.ok.inj (ht₁.symm.trans ht₂)
    exact ⟨t, us, g, p, g', p', htext ▸ ht, htokens, hlines.shift hshift⟩

namespace Parser

/-! ## Splitting -/

/-- The tokens `ts` are statements with the texts `b` up to a closing brace, with which `rest`
begins. -/
inductive Statements : List String → List Token → List Token → Prop
  | done {rest : List Token} (hclose : Ahead.reads Text.closeBrace rest = true) :
      Statements [] rest rest
  | next {b : List String} {w mid rest : List Token}
      (hopen : Ahead.reads Text.closeBrace (w ++ mid) = false) (hne : w ≠ [])
      (hread : statement (w ++ mid) = .ok ((), mid)) (htail : Statements b mid rest) :
      Statements (Token.spelling w :: b) (w ++ mid) rest

/-- One round of a block: the next statement, or none before the closing brace. -/
def blockRound : Parser (Option (List String)) := do
  if ← isAt Text.closeBrace then return none
  else if ← atEnd then fail (.expected (.word Text.closeBrace))
  else return some [← verbatim statement]

variable {b : List String} {ts us rest : List Token}

theorem block_eq : block = expect Text.openBrace >>= fun _ => gather blockRound >>= fun b =>
    expect Text.closeBrace >>= fun _ => pure b := rfl

theorem blockRound_close (h : Ahead.reads Text.closeBrace ts = true) :
    blockRound ts = .ok (none, ts) := by
  unfold blockRound isAt
  rw [ahead_bind, if_pos h]
  rfl

theorem blockRound_statement {w mid : List Token}
    (hopen : Ahead.reads Text.closeBrace (w ++ mid) = false) (hne : w ≠ [])
    (hread : statement (w ++ mid) = .ok ((), mid)) :
    blockRound (w ++ mid) = .ok (some [Token.spelling w], mid) := by
  have hyields : Yields ((w ++ mid).length + 1) (verbatim statement) (· = mid)
      (· = Token.spelling w) w := by
    refine Yields.verbatim (V := fun _ => True) ?_ hne
    rintro _ _ rfl
    exact ⟨(), hread, trivial⟩
  obtain ⟨_, hverbatim, rfl⟩ := hyields mid (by rw [List.length_append]; omega) rfl
  unfold blockRound isAt atEnd
  rw [ahead_bind, if_neg (by simp [hopen]), ahead_bind, if_neg (by simp [hne])]
  exact bind_eq_ok.mpr ⟨_, mid, hverbatim, rfl⟩

theorem of_blockRound {r : Option (List String)} {mid : List Token}
    (h : blockRound ts = .ok (r, mid)) :
    (r = none ∧ mid = ts ∧ Ahead.reads Text.closeBrace ts = true) ∨
      ∃ w, ts = w ++ mid ∧ r = some [Token.spelling w] ∧ w ≠ [] ∧
        Ahead.reads Text.closeBrace (w ++ mid) = false ∧
        statement (w ++ mid) = .ok ((), mid) := by
  unfold blockRound isAt atEnd at h
  rw [ahead_bind] at h
  split at h
  · rename_i hclose
    cases h
    exact .inl ⟨rfl, rfl, hclose⟩
  · rename_i hopen
    rw [ahead_bind] at h
    split at h
    · cases h
    obtain ⟨s, mid, hverbatim, hpure⟩ := bind_eq_ok.mp h
    cases hpure
    obtain ⟨hread, htext⟩ := of_verbatim hverbatim
    obtain ⟨w, rfl, hspans⟩ := exists_append_of_reads Comparison.sim_statement hread
    rw [htext w rfl]
    exact .inr ⟨w, rfl, rfl, hspans.progress rfl, by simpa using hopen, hread⟩

theorem gather_blockRound_iff : gather blockRound ts = .ok (b, rest) ↔
    Statements b ts rest := by
  have hround : ∀ ts a rest, blockRound ts = .ok (some a, rest) → rest.length < ts.length := by
    intro ts a rest h
    obtain ⟨h, -⟩ | ⟨w, rfl, -, hne, -⟩ := of_blockRound h
    · cases h
    · have := List.length_pos_of_ne_nil hne
      rw [List.length_append]
      omega
  constructor
  · intro h
    induction hn : ts.length using Nat.strong_induction_on generalizing ts b with
    | _ n ih =>
      obtain ⟨hnone, rfl⟩ | ⟨a, mid, b, hsome, hrest, rfl⟩ := (gather_eq_ok hround).mp h
      · obtain ⟨-, rfl, hclose⟩ | ⟨_, _, hr, _⟩ := of_blockRound hnone
        · exact .done hclose
        · cases hr
      · have hlength := hround ts a mid hsome
        obtain ⟨hr, -⟩ | ⟨w, rfl, hr, hne, hopen, hread⟩ := of_blockRound hsome
        · cases hr
        · cases hr
          exact .next hopen hne hread (ih mid.length (by omega) hrest rfl)
  · intro h
    induction h with
    | done hclose => exact (gather_eq_ok hround).mpr (.inl ⟨blockRound_close hclose, rfl⟩)
    | next hopen hne hread _ ih =>
      exact (gather_eq_ok hround).mpr
        (.inr ⟨_, _, _, blockRound_statement hopen hne hread, ih, rfl⟩)

/-- A block is an opening brace, statements and a closing brace. -/
theorem block_iff : block ts = .ok (b, rest) ↔ ∃ t u mid, ts = t :: mid ∧
    t.reads Text.openBrace = true ∧ u.reads Text.closeBrace = true ∧
    Statements b mid (u :: rest) := by
  rw [block_eq, expect_bind_eq_ok]
  constructor
  · rintro ⟨hopening, h⟩
    obtain ⟨t, mid, rfl, ht⟩ := Comparison.exists_reads (by decide) hopening
    obtain ⟨b, last, hgather, h⟩ := bind_eq_ok.mp h
    obtain ⟨hclosing, hpure⟩ := expect_bind_eq_ok.mp h
    obtain ⟨u, rest, rfl, hu⟩ := Comparison.exists_reads (by decide) hclosing
    cases hpure
    exact ⟨t, u, mid, rfl, ht, hu, gather_blockRound_iff.mp hgather⟩
  · rintro ⟨t, u, mid, rfl, ht, hu, h⟩
    refine ⟨ht, bind_eq_ok.mpr ⟨b, u :: rest, gather_blockRound_iff.mpr h, ?_⟩⟩
    exact expect_bind_eq_ok.mpr ⟨hu, rfl⟩

/-! ## Splitting again -/

/-- Nothing between statements is left out. -/
theorem Statements.stretches (h : Statements b ts rest) :
    ∃ ws : List (List Token), ts = ws.flatten ++ rest ∧ b = ws.map Token.spelling := by
  induction h with
  | done _ => exact ⟨[], rfl, rfl⟩
  | @next _ w _ _ _ _ _ _ ih =>
    obtain ⟨ws, rfl, rfl⟩ := ih
    exact ⟨w :: ws, by rw [List.flatten_cons, List.append_assoc], rfl⟩

theorem Statements.lexed (h : Statements b ts rest) (hts : Lexed ts) : Lexed rest := by
  induction h with
  | done _ => exact hts
  | next _ _ _ _ ih => exact ih hts.of_append_right

/-- The texts of statements are cut. -/
theorem Statements.tokenize (h : Statements b ts rest) (hts : Lexed ts) :
    ∀ s ∈ b, ∃ t, tokenize s = .ok t := by
  induction h with
  | done _ => nofun
  | next _ _ _ _ ih =>
    obtain ⟨us, q, hus, -⟩ := hts.of_append_left.tokenize_spelling
    exact List.forall_mem_cons.mpr ⟨⟨_, hus⟩, ih hts.of_append_right⟩

/-- Texts line by line are split as they were, before tokens that begin as those
before which they were. -/
theorem Statements.again (h : Statements b ts rest) (hts : Lexed ts) {r : List Token}
    (hus : Lines b us) (hr : SameNext rest r) :
    Statements b (us ++ r) r ∧ SameNext ts (us ++ r) := by
  induction h generalizing us with
  | done hclose =>
    cases hus
    refine ⟨.done ?_, hr⟩
    rw [List.nil_append, ← sees_reads Text.closeBrace _ _ hr]
    exact hclose
  | @next b w mid rest hopen hne hread _ ih =>
    cases hus with
    | @cons _ _ us vs head tail =>
      obtain ⟨htail, hnext⟩ := ih hts.of_append_right tail hr
      -- The statement is read before what comes behind it now, first with its old tokens.
      have hshift : Shifted w us := hts.of_append_left.shifted_of_line head
      obtain ⟨w', hw', -, hmoved⟩ := portable_statement hts.wellShaped () mid hread
      obtain rfl : w = w' := List.append_cancel_right hw'
      have hread' := hmoved (vs ++ r) (Nat.lt_succ_self _) hnext
      have hsame : SameNext (w ++ mid) (us ++ (vs ++ r)) := hshift.alike.sameNext hne _ _
      refine ⟨?_, by rwa [List.append_assoc]⟩
      rw [List.append_assoc, hshift.spelling_eq]
      refine .next ?_ (hshift.alike.ne_nil hne) ?_ htail
      · rw [← sees_reads Text.closeBrace _ _ hsame]
        exact hopen
      · exact readsTo_iff.mp
          (readsTo_shift Comparison.sim_statement (hshift.append_right hne _)
            (readsTo_iff.mpr hread'))

end Parser

/-- **The statements of a block, written line by line, are read as the same statements**, and
they are all that stands between the braces of the block. -/
theorem block_resplit {s : String} {t : Tokenized} (ht : tokenize s = .ok t) (k : Nat)
    {b : List String} {rest : List Token}
    (hb : Parser.block (t.tokens.drop k) = .ok (b, rest)) :
    (∃ (first last : Token) (ws : List (List Token)),
      t.tokens.drop k = first :: (ws.flatten ++ last :: rest) ∧ b = ws.map Token.spelling) ∧
    ∃ t', tokenize (blockText b) = .ok t' ∧ Parser.block t'.tokens = .ok (b, []) := by
  have hlexed := (lexed_of_tokenize ht).drop k
  obtain ⟨first, last, mid, htokens, -, hlast, hstatements⟩ := Parser.block_iff.mp hb
  rw [htokens] at hlexed ⊢
  have hmid : Lexed mid := hlexed.drop 1
  constructor
  · obtain ⟨ws, hws, htexts⟩ := hstatements.stretches
    exact ⟨first, last, ws, by rw [hws], htexts⟩
  · obtain ⟨t', us, g, p, g', p', ht', htokens', hus⟩ :=
      tokenize_blockText (hstatements.tokenize hmid)
    refine ⟨t', ht', Parser.block_iff.mpr
      ⟨_, ⟨.operator, Text.closeBrace, g', p'⟩, _, htokens', rfl, rfl, ?_⟩⟩
    refine (hstatements.again hmid hus ?_).1
    -- The block ended with a brace too, which is an operator in every source text.
    have hsign :=
      ((hstatements.lexed hmid).wellShaped last List.mem_cons_self).isOperator_of_reads
      hlast (by decide)
    have hcontent : last.content = (⟨.operator, Text.closeBrace, g', p'⟩ : Token).content :=
      Prod.ext hsign.1 hsign.2
    exact sameNext_cons hcontent rest []

theorem exists_block_eq_ok {s : String} {k : Nat} {b : List String}
    (h : ((tokenize s).toOption.bind fun t =>
      (Parser.block (t.tokens.drop k)).toOption.map Prod.fst) = some b) :
    ∃ t rest, tokenize s = .ok t ∧ Parser.block (t.tokens.drop k) = .ok (b, rest) := by
  cases ht : tokenize s with
  | error e =>
    rw [ht] at h
    cases h
  | ok t =>
    rw [ht] at h
    cases hb : Parser.block (t.tokens.drop k) with
    | error e => simp [Except.toOption, hb] at h
    | ok r =>
      obtain ⟨b', rest⟩ := r
      obtain rfl : b' = b := by simpa [Except.toOption, hb] using h
      exact ⟨t, rest, rfl, hb⟩

/-- An `else` behind a statement that looks for none, a label before clauses, a comment in a
statement and a brace in a literal. -/
def clauseStatements : List String :=
  ["if (a) b; else c;", "else d;",
    "l: try" ++ Text.braced "" ++ "//e\nfinally" ++ Text.braced "", "g(\"\x7d\");"]

theorem block_resplit_clauses :
    ∃ t rest, tokenize ("f " ++ Text.braced (" ".intercalate clauseStatements) ++ " x") =
      .ok t ∧ Parser.block (t.tokens.drop 1) = .ok (clauseStatements, rest) ∧
      (∃ (first last : Token) (ws : List (List Token)),
        t.tokens.drop 1 = first :: (ws.flatten ++ last :: rest) ∧
          clauseStatements = ws.map Token.spelling) ∧
      ∃ t', tokenize (blockText clauseStatements) = .ok t' ∧
        Parser.block t'.tokens = .ok (clauseStatements, []) := by
  obtain ⟨t, rest, ht, hb⟩ := exists_block_eq_ok (k := 1) (b := clauseStatements)
    (s := "f " ++ Text.braced (" ".intercalate clauseStatements) ++ " x") (by decide +kernel)
  exact ⟨t, rest, ht, hb, block_resplit ht 1 hb⟩

end SharpScript
