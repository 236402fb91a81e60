import SharpScript.Proofs.Parser.Groups
import SharpScript.Proofs.Splitting

/-! # Where a block ends

A block is passed over in two ways: as a group, by its brackets alone, and statement by
statement.  Both end at the same brace, because a statement has no bracket that it does not
close, and between the braces one statement begins where the one before ends.

## Main Definitions

* `Parser.Tiles`: stretches of tokens that are statements, one right behind the other.

## Main Results

* `Parser.balanced_of_statement`: the brackets of a statement are well nested;
* `Parser.Tiles.balanced`: so are those of statements one behind the other;
* `block_tiles`: **a block ends where its group ends, and its statements tile it**.
-/

namespace SharpScript

namespace Parser

/-- The stretches are statements, none of them empty: each one is read up to where the next one
begins, and the last one up to `rest`. -/
inductive Tiles (rest : List Token) : List (List Token) → Prop
  | nil : Tiles rest []
  | cons {w : List Token} {ws : List (List Token)} (hne : w ≠ [])
      (hread : statement (w ++ (ws.flatten ++ rest)) = .ok ((), ws.flatten ++ rest))
      (htail : Tiles rest ws) : Tiles rest (w :: ws)

variable {w rest : List Token} {ws : List (List Token)}

/-- A statement closes the brackets that it opens, and no others. -/
theorem balanced_of_statement (h : statement (w ++ rest) = .ok ((), rest)) : Balanced w := by
  obtain ⟨v, hv, hspans⟩ := exists_append_of_reads Comparison.sim_statement h
  obtain rfl : w = v := List.append_cancel_right hv
  exact hspans.balanced rfl

theorem Tiles.balanced (h : Tiles rest ws) : Balanced ws.flatten := by
  induction h with
  | nil => exact balanced_nil
  | cons _ hread _ ih =>
    rw [List.flatten_cons]
    exact (balanced_of_statement hread).append ih

/-- Tokens that are split into statements are tiled by them. -/
theorem Statements.tiles {b : List String} {ts : List Token} (h : Statements b ts rest) :
    ∃ ws, ts = ws.flatten ++ rest ∧ b = ws.map Token.spelling ∧ Tiles rest ws := by
  induction h with
  | done _ => exact ⟨[], rfl, rfl, .nil⟩
  | @next _ w _ _ _ hne hread _ ih =>
    obtain ⟨ws, rfl, rfl, htiles⟩ := ih
    exact ⟨w :: ws, by rw [List.flatten_cons, List.append_assoc], rfl, .cons hne hread htiles⟩

end Parser

/-- **A block ends where its group ends, and its statements tile it**: between two braces that
belong together, there are its statements and nothing else. -/
theorem block_tiles {s : String} {t : Tokenized} (ht : tokenize s = .ok t) (k : Nat)
    {b : List String} {rest : List Token}
    (hb : Parser.block (t.tokens.drop k) = .ok (b, rest)) :
    Parser.group (t.tokens.drop k) = .ok ((), rest) ∧
      ∃ (first last : Token) (ws : List (List Token)),
        t.tokens.drop k = first :: (ws.flatten ++ last :: rest) ∧
          first.isOperator Text.openBrace = true ∧ last.isOperator Text.closeBrace = true ∧
            Balanced ws.flatten ∧ b = ws.map Token.spelling ∧
            Parser.Tiles (last :: rest) ws := by
  have hlexed := (lexed_of_tokenize ht).drop k
  obtain ⟨first, last, mid, htokens, hfirst, hlast, hstatements⟩ := Parser.block_iff.mp hb
  obtain ⟨ws, rfl, htexts, htiles⟩ := hstatements.tiles
  rw [htokens] at hlexed ⊢
  -- Both braces are operators, as all signs of a source text are.
  have hopening := (hlexed.wellShaped first (by simp)).isOperator_of_reads hfirst (by decide)
  have hclosing := (hlexed.wellShaped last (by simp)).isOperator_of_reads hlast (by decide)
  have hgroup : IsGroup .curly (first :: (ws.flatten ++ [last])) :=
    ⟨first, ws.flatten, last, rfl, Parser.sign?_opening hopening.1 hopening.2, htiles.balanced,
      Parser.sign?_closing hclosing.1 hclosing.2⟩
  refine ⟨?_, first, last, ws, rfl, ?_, ?_, htiles.balanced, htexts, htiles⟩
  · have hread := Parser.group_of_isGroup hgroup rest
    rwa [List.cons_append, List.append_assoc] at hread
  · simp [Token.isOperator, hopening]
  · simp [Token.isOperator, hclosing]

/-- Statements with braces in a literal, in an initializer, in a local
function and in clauses. -/
def bracedStatements : List String :=
  ["o=new" ++ Text.braced "X=\"\x7d\"" ++ ";", "F()" ++ Text.braced "",
    "do try" ++ Text.braced "" ++ "finally" ++ Text.braced "" ++ "while(a[0]);"]

theorem block_tiles_braces :
    ∃ t rest, tokenize ("f " ++ Text.braced (String.join bracedStatements) ++ " x") = .ok t ∧
      Parser.block (t.tokens.drop 1) = .ok (bracedStatements, rest) ∧
      Parser.group (t.tokens.drop 1) = .ok ((), rest) ∧
      ∃ (first last : Token) (ws : List (List Token)),
        t.tokens.drop 1 = first :: (ws.flatten ++ last :: rest) ∧
          first.isOperator Text.openBrace = true ∧ last.isOperator Text.closeBrace = true ∧
            Balanced ws.flatten ∧ bracedStatements = ws.map Token.spelling ∧
            Parser.Tiles (last :: rest) ws := by
  obtain ⟨t, rest, ht, hb⟩ := exists_block_eq_ok (k := 1) (b := bracedStatements)
    (s := "f " ++ Text.braced (String.join bracedStatements) ++ " x") (by decide +kernel)
  exact ⟨t, rest, ht, hb, block_tiles ht 1 hb⟩

end SharpScript
