import SharpScript.Proofs.Concatenation
import SharpScript.Proofs.Parser.ReadingDeclarations

/-! # Brackets in source texts

The brackets of a source text that can be read are well nested, apart from those in the loose
parts of the text: its using directives, type arguments, `where` clauses, the heads of
structures and records, and the words behind the colons of constructors.

## Main Results

* `passage_of_parse`: a source text that can be read is one passage;
* `parse_wellNested`: **outside of loose parts the brackets of a source text are well nested**,
  and all of them are if those in each loose part are;
* `parse_directive_brace`: a using directive may have a bracket that nothing closes.
-/

namespace SharpScript

/-- All tokens of a source text are read, and its texts are quoted from them. -/
theorem passage_of_parse {s : String} {u : CompilationUnit} (h : parse s = .ok u) :
    ∃ t qs, tokenize s = .ok t ∧ Parser.UnitTold u qs ∧ Passage [] qs t.tokens [] := by
  obtain ⟨t, ht, hentries⟩ := parse_eq_ok.mp h
  obtain ⟨qs, htold, hpassage⟩ := Parser.tells_nodes false t.tokens (lexed_of_tokenize ht)
    (Parser.nodes_iff_entries.mpr ⟨rfl, hentries⟩)
  exact ⟨t, qs, ht, htold, hpassage⟩

/-- **A source text that can be read is made of loose parts and of tokens in between
whose brackets are well nested.**  Where the brackets in each loose part are well
nested, all of them are. -/
theorem parse_wellNested {s : String} {u : CompilationUnit} (h : parse s = .ok u) :
    ∃ t g ls, tokenize s = .ok t ∧ Parts g ls t.tokens [] ∧ Dyck g ∧
      ((∀ v ∈ ls, Balanced v) → Balanced t.tokens) := by
  obtain ⟨t, _, ht, -, ⟨g, ls, hg, hparts⟩, -⟩ := passage_of_parse h
  -- No bracket is open before the first token, so the rest of the brackets is well nested.
  cases hg with
  | nil hg =>
    refine ⟨t, g, ls, ht, hparts, hg, fun hls => ?_⟩
    obtain ⟨w, hw, hbalanced⟩ : ∃ w, t.tokens = w ++ [] ∧ Dyck ([] ++ signs w) :=
      hparts.balanced hls hg
    rw [List.append_nil] at hw
    rw [hw]
    exact hbalanced

/-- A using directive, type arguments and the call of a constructor. -/
theorem parse_wellNested_call :
    let s := "using A;class C<T>" ++ Text.braced ("C():base(1)" ++ Text.braced "")
    ∃ u, parse s = .ok u ∧ ∃ t g ls, tokenize s = .ok t ∧ Parts g ls t.tokens [] ∧ Dyck g ∧
      ((∀ v ∈ ls, Balanced v) → Balanced t.tokens) := by
  intro s
  obtain ⟨u, hu⟩ := exists_parse_eq_ok (s := s) (by decide +kernel)
  exact ⟨u, hu, parse_wellNested hu⟩

/-- A source text with a brace that nothing opens is read, as a using directive. -/
theorem parse_directive_brace :
    let s := "using " ++ Text.closeBrace ++ ";"
    ∃ t u, tokenize s = .ok t ∧ parse s = .ok u ∧ u.usings = [s] ∧ ¬ Balanced t.tokens := by
  intro s
  obtain ⟨u, hu⟩ := exists_parse_eq_ok (s := s) (by decide +kernel)
  obtain ⟨t, ht, -⟩ := parse_eq_ok.mp hu
  have husings : (parse s).toOption.map CompilationUnit.usings = some [s] := by decide +kernel
  have hsigns : (tokenize s).toOption.map (fun t => signs t.tokens) =
      some [.closing .curly] := by decide +kernel
  rw [hu] at husings
  rw [ht] at hsigns
  refine ⟨t, u, ht, hu, Option.some.inj husings, fun h => ?_⟩
  unfold Balanced at h
  rw [(Option.some.inj hsigns : signs t.tokens = [.closing .curly])] at h
  generalize hs : [Sign.closing .curly] = g at h
  cases h with
  | nil => cases hs
  | nest b hx hy => cases hs

end SharpScript
