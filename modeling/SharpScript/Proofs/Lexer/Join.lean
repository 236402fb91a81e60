import SharpScript.Proofs.Lexer.Slice

/-! # Texts put together

Texts that are cut into tokens may be put behind one another, with blanks between them or where
the second one stands apart from the first.

## Main Results

* `Lexer.Cut.append`, `Lexer.Cut.blanks`: a text behind another one, and behind blanks;
* `tokenize_lines`: the tokens of two texts on lines of their own;
* `Lexed.concat_gap`, `Lexed.concat`: the tokens of two texts that are put together;
* `Lexed.statement`: **the tokens of an expression that is made a statement**.
-/

namespace SharpScript

namespace Token

theorem spelling_append {ts : List Token} (hts : ts ≠ []) (us : List Token) :
    (spelling (ts ++ us)).toList = (spelling ts).toList ++ chars us := by
  obtain ⟨t, ts, rfl⟩ := List.exists_cons_of_ne_nil hts
  rw [List.cons_append, spelling_cons, spelling_cons, chars_append, List.append_assoc]

end Token

namespace Lexer

/-- A text behind another one that it stands apart from. -/
theorem Cut.append {p : Place} {g cs r : List Char} {t t' : Tokenized} (h : Cut p g cs t)
    (hr : LineEnd r ∨ (t.gap = "" ∧ Apart r)) (h' : Cut t.stop t.gap.toList r t') :
    Cut p g (cs ++ r) (prepend t.tokens t') := by
  apply cut_of_pieces_eq
  rw [h.pieces_append hr, h'.pieces_eq]
  rfl

/-- Blanks before a text go into its first gap. -/
theorem Cut.blanks {v : List Char} (hv : ∀ c ∈ v, isBlank c = true) {p : Place}
    {g cs : List Char} {t : Tokenized} (h : Cut (p.after v) (g ++ v) cs t) :
    Cut p g (v ++ cs) t := by
  induction v generalizing p g with
  | nil => simpa using h
  | cons c v ih =>
    refine .blank (hv c List.mem_cons_self)
      (ih (fun d hd => hv d (List.mem_cons_of_mem _ hd)) ?_)
    simpa using h

/-- The lines of a text behind those of another one.  A comment or a directive at the end of
the first text goes into the gap before the second one. -/
theorem Cut.line {p q : Place} {g cs ds : List Char} {t u : Tokenized} (h : Cut p g cs t)
    (hq : q.bare = true) (h' : Cut q [] ds u) :
    ∃ v, Cut p g (cs ++ '\n' :: ds) (prepend t.tokens v) ∧ Shifted u.tokens v.tokens := by
  obtain ⟨v, hshift, halike, hgaps, -⟩ := h'.shift (q := t.stop.step '\n') hq
  obtain ⟨v', hregap, halike', htail, -⟩ := hshift.regap (t.gap.toList ++ ['\n'])
  refine ⟨v', h.append (.inl fun c hc => (Option.some.inj hc).symm) (.blank rfl hregap), ?_⟩
  refine ⟨halike.trans halike', ?_⟩
  rw [← htail, List.map_tail, hgaps, ← List.map_tail]

theorem isApart_of_isBlank {c : Char} (h : isBlank c = true) : isApart c = true := by
  have hmem : c ∈ [' ', '\t', '\r', '\n', '\ufeff'] := by simpa [isBlank, or_assoc] using h
  exact List.contains_iff_mem.mpr (List.mem_append_left _ hmem)

theorem apart_cons {c : Char} {r : List Char} : Apart (c :: r) ↔ isApart c = true := by
  simp [Apart]

/-- Blanks stand apart, and so does what comes behind them. -/
theorem apart_blanks {v r : List Char} (hv : ∀ c ∈ v, isBlank c = true)
    (h : v ≠ [] ∨ Apart r) :
    Apart (v ++ r) := by
  cases v with
  | nil => exact h.resolve_left fun h => h rfl
  | cons c v =>
    exact apart_cons.mpr (isApart_of_isBlank (hv c List.mem_cons_self))

end Lexer

open Lexer

/-- The tokens of two texts that are put on lines of their own. -/
theorem tokenize_lines {s₁ s₂ : String} {t₁ t₂ : Tokenized} (h₁ : tokenize s₁ = .ok t₁)
    (h₂ : tokenize s₂ = .ok t₂) :
    ∃ t us, tokenize (s₁ ++ "\n" ++ s₂) = .ok t ∧ t.tokens = t₁.tokens ++ us ∧
      Shifted t₂.tokens us := by
  obtain ⟨v, hcut, hshift⟩ := (cut_of_pieces_eq h₁).line rfl (cut_of_pieces_eq h₂)
  refine ⟨prepend t₁.tokens v, v.tokens, ?_, rfl, hshift⟩
  rw [tokenize, ← hcut.pieces_eq]
  simp

namespace Lexed

variable {vs ws : List Token}

/-- The tokens of two texts with blanks between them.  There need be none if the second text
stands apart from the first. -/
theorem concat_gap (hv : Lexed vs) (hw : Lexed ws) (hvs : vs ≠ []) (hws : ws ≠ [])
    (sep : String) (hsep : ∀ c ∈ sep.toList, isBlank c = true)
    (hapart : sep.toList ≠ [] ∨ Apart (Token.spelling ws).toList) :
    ∃ us, us ≠ [] ∧ Lexed us ∧ Alike (vs ++ ws) us ∧
      us.tail.map Token.gap = vs.tail.map Token.gap ++ sep :: ws.tail.map Token.gap ∧
      Token.spelling us = Token.spelling vs ++ sep ++ Token.spelling ws := by
  obtain ⟨us, q, hcut, hshift⟩ := hv.cut hvs .start []
  obtain ⟨us', q', hcut', hshift', hgap⟩ := hw.cut_gap hws (q.after sep.toList) sep.toList
  have hsecond : Cut q [] (sep.toList ++ (Token.spelling ws).toList) ⟨us', "", q'⟩ :=
    Cut.blanks hsep hcut'
  have hus : us ≠ [] := hshift.alike.ne_nil hvs
  have hboth := hcut.append (.inr ⟨rfl, apart_blanks hsep hapart⟩) hsecond
  refine ⟨us ++ us',
    by simp [hus], ⟨_, _, _, hboth⟩, hshift.alike.append hshift'.alike, ?_, ?_⟩
  · obtain ⟨u', us', rfl⟩ := List.exists_cons_of_ne_nil (hshift'.alike.ne_nil hws)
    rw [List.head?_cons, Option.map_some, String.ofList_toList, Option.some.injEq] at hgap
    rw [List.tail_append_of_ne_nil hus, List.map_append, ← hshift.gaps, hshift'.gaps,
      List.map_cons, hgap, List.tail_cons]
  · apply String.toList_injective
    have htext := hsecond.text_eq
    rw [Token.spelling_append hus, ← hshift.spelling_eq]
    simpa using htext.symm

theorem concat (hv : Lexed vs) (hw : Lexed ws) (hvs : vs ≠ []) (hws : ws ≠ []) (sep : String)
    (hsep : ∀ c ∈ sep.toList, isBlank c = true)
    (hapart : sep.toList ≠ [] ∨ Apart (Token.spelling ws).toList) :
    ∃ us, us ≠ [] ∧ Lexed us ∧ Alike (vs ++ ws) us ∧
      Token.spelling us = Token.spelling vs ++ sep ++ Token.spelling ws := by
  obtain ⟨us, hus, hlexed, halike, -, htext⟩ := hv.concat_gap hw hvs hws sep hsep hapart
  exact ⟨us, hus, hlexed, halike, htext⟩

end Lexed

/-! ## Expressions as statements -/

/-- The sign at the end of a statement. -/
def semicolonToken : Token := ⟨.operator, ";", "", .start⟩

/-- The word before what a function gives. -/
def returnToken : Token := ⟨.keyword, "return", "", .start⟩

theorem lexed_semicolonToken : Lexed [semicolonToken] := lexed_of_tokenize (s := ";") rfl

theorem lexed_returnToken : Lexed [returnToken] := lexed_of_tokenize (s := "return") rfl

/-- **The tokens of an expression that is made a statement.** -/
theorem Lexed.statement {vs : List Token} (hv : Lexed vs) (returns : Bool) :
    ∃ us, Lexed us ∧
      Alike ((if returns then [returnToken] else []) ++ vs ++ [semicolonToken]) us ∧
      Token.spelling us = (if returns then "return " else "") ++ Token.spelling vs ++ ";" := by
  obtain ⟨us, hus, hlexed, halike, htext⟩ : ∃ us, us ≠ [] ∧ Lexed us ∧
      Alike (vs ++ [semicolonToken]) us ∧ Token.spelling us = Token.spelling vs ++ ";" := by
    by_cases hvs : vs = []
    · subst hvs
      exact ⟨_, List.cons_ne_nil _ _, lexed_semicolonToken, .refl _, rfl⟩
    · obtain ⟨us, hus, hlexed, halike, htext⟩ := hv.concat lexed_semicolonToken hvs
        (List.cons_ne_nil _ _) "" (by simp) (.inr (apart_cons.mpr rfl))
      rw [String.append_empty] at htext
      exact ⟨us, hus, hlexed, halike, htext⟩
  cases returns with
  | false => exact ⟨us, hlexed, halike, by simpa using htext⟩
  | true =>
    obtain ⟨us', -, hlexed', halike', htext'⟩ := lexed_returnToken.concat hlexed
      (List.cons_ne_nil _ _) hus " " (by simp [isBlank]) (.inl (List.cons_ne_nil _ _))
    refine ⟨us', hlexed', ?_, ?_⟩
    · exact (Alike.append (.refl [returnToken]) halike).trans halike'
    · rw [htext', htext, ← String.append_assoc]
      rfl

end SharpScript
