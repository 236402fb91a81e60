import SharpScript.Parser.Source
import SharpScript.Proofs.Lexer.Join
import SharpScript.Proofs.Parser.Declaration

/-! # Layout

Blanks, comments and directives between the tokens of a source text make no
difference to what is read from it, apart from the positions that it is given and
from the gaps in texts that are kept.

## Main Definitions

* `SameLexemes`: texts that are made of the same lexemes;
* `SameReading`: what is read from two source texts is the same up to layout;
* `Comparison.layout`: two source texts with the same tokens.

## Main Results

* `parse_sameReading`: **source texts with the same tokens are read alike**.
-/

namespace SharpScript

open Lexer

/-! ## Comparing layouts -/

/-- Texts that are cut out of source texts, with the same tokens. -/
def Sliced (s s' : String) : Prop :=
  ∃ vs ws, Lexed vs ∧ Lexed ws ∧ Alike vs ws ∧ s = Token.spelling vs ∧ s' = Token.spelling ws

/-- Texts that are made of the same lexemes. -/
def SameLexemes (s s' : String) : Prop :=
  ∃ t t', tokenize s = .ok t ∧ tokenize s' = .ok t' ∧
    t.tokens.map Token.lexeme = t'.tokens.map Token.lexeme

namespace Sliced

variable {s s' : String}

theorem symm (h : Sliced s s') : Sliced s' s := by
  obtain ⟨vs, ws, hvs, hws, halike, hs, hs'⟩ := h
  exact ⟨ws, vs, hws, hvs, halike.symm, hs', hs⟩

theorem sameLexemes (h : Sliced s s') : SameLexemes s s' := by
  obtain ⟨vs, ws, hvs, hws, halike, rfl, rfl⟩ := h
  obtain ⟨us, q, htokens, hus⟩ := hvs.tokenize_spelling
  obtain ⟨us', q', htokens', hus'⟩ := hws.tokenize_spelling
  exact ⟨_, _, htokens, htokens', ((hus.alike.symm.trans halike).trans hus'.alike).lexemes_eq⟩

theorem trim (h : Sliced s s') : Sliced (Text.trim s) (Text.trim s') := by
  obtain ⟨vs, ws, hvs, hws, halike, rfl, rfl⟩ := h
  exact ⟨vs, ws, hvs, hws, halike, hvs.trim_spelling, hws.trim_spelling⟩

theorem statement (h : Sliced s s') (returns : Bool) :
    Sliced ((if returns then "return " else "") ++ s ++ ";")
      ((if returns then "return " else "") ++ s' ++ ";") := by
  obtain ⟨vs, ws, hvs, hws, halike, rfl, rfl⟩ := h
  obtain ⟨us, hus, halike', htext⟩ := hvs.statement returns
  obtain ⟨us', hus', halike'', htext'⟩ := hws.statement returns
  refine ⟨us, us', hus, hus', ?_, htext.symm, htext'.symm⟩
  exact (halike'.symm.trans (((Alike.refl _).append halike).append (.refl _))).trans halike''

/-- A word is a text of its own, whatever its layout. -/
theorem eq_void (h : Sliced s s') (hs : s = "void") : s' = "void" := by
  obtain ⟨vs, ws, hvs, hws, halike, rfl, rfl⟩ := h
  obtain ⟨us, q, htokens, hus⟩ := hvs.tokenize_spelling
  rw [hs] at htokens
  obtain rfl : [⟨.identifier false, "void", "", .start⟩] = us := by
    cases htokens
    rfl
  have hw := hus.alike.symm.trans halike
  obtain ⟨w, rfl⟩ := List.length_eq_one_iff.mp hw.length_eq.symm
  obtain ⟨hkind, htext⟩ := Prod.mk.inj (Alike.cons_iff.mp hw).1
  simp [Token.spelling, Token.lexeme, ← hkind, ← htext]

end Sliced

/-- Two source texts with the same tokens. -/
def Comparison.layout : Comparison where
  tokens ts us := Alike ts us ∧ Lexed ts ∧ Lexed us
  strict := True
  text := Sliced
  code := Sliced
  alike := by
    rintro ts us ⟨halike, -⟩
    rwa [halike.length_eq, List.take_length]
  whole h _ := h.1.length_eq
  closed _ := .inl trivial
  drop n h _ := ⟨h.1.drop n, h.2.1.drop n, h.2.2.drop n⟩
  text_spelling n h _ := ⟨_, _, h.2.1.take n, h.2.2.take n, h.1.take n, rfl, rfl⟩
  code_spelling n h _ _ := ⟨_, _, h.2.1.take n, h.2.2.take n, h.1.take n, rfl, rfl⟩
  text_trim h := h.trim
  code_trim h := h.trim
  code_return returns h := h.statement returns
  text_void h := ⟨h.eq_void, h.symm.eq_void⟩

/-! ## Reading source texts -/

/-- The place of the token with the index `n`, or of the end of the text
behind the last one. -/
def Tokenized.placeAt (t : Tokenized) (n : Nat) : Place :=
  (t.tokens[n]?.map Token.place).getD t.stop

/-- What is read from two source texts is the same up to layout: trees that differ in positions
and in the gaps between lexemes only, or errors with the same message at the same token. -/
inductive SameReading (t t' : Tokenized) :
    Except SourceError CompilationUnit → Except SourceError CompilationUnit → Prop
  | ok {u u' : CompilationUnit} (h : u.Agrees SameLexemes SameLexemes u') :
      SameReading t t' (.ok u) (.ok u')
  | error {e e' : SourceError} (hmessage : e.message = e'.message) (n : Nat)
      (hn : n ≤ t.tokens.length) (hplace : e.place = t.placeAt n)
      (hplace' : e'.place = t'.placeAt n) :
      SameReading t t' (.error e) (.error e')

theorem parse_of_tokenize {s : String} {t : Tokenized} (h : tokenize s = .ok t) :
    parse s = t.parse := by
  rw [parse, h]

/-- Tokens with the same labels and lexemes have the same contents. -/
theorem alike_of_labels {ts us : List Token} (hts : ∀ t ∈ ts, WellShaped t)
    (hus : ∀ u ∈ us, WellShaped u)
    (h : ts.map (fun t => (t.label, t.lexeme)) = us.map (fun t => (t.label, t.lexeme))) :
    Alike ts us := by
  induction ts generalizing us with
  | nil =>
    rw [List.map_eq_nil_iff.mp h.symm]
    exact .refl []
  | cons t ts ih =>
    obtain ⟨u, us, rfl, hhead, htail⟩ := List.map_eq_cons_iff.mp h.symm
    obtain ⟨hlabel, hlexeme⟩ := Prod.mk.inj hhead
    obtain ⟨hkind, htext⟩ := (hts t List.mem_cons_self).eq_of_label (hus u List.mem_cons_self)
      hlabel.symm hlexeme.symm
    refine Alike.cons_iff.mpr ⟨Prod.ext hkind htext, ih ?_ ?_ htail.symm⟩
    · exact fun v hv => hts v (List.mem_cons_of_mem t hv)
    · exact fun v hv => hus v (List.mem_cons_of_mem u hv)

/-- Failures at the same token are reported alike. -/
theorem Failure.message_congr {ts us : List Token} (h : Alike ts us) (p : Problem) (n : Nat) :
    Failure.message ⟨p, ts.drop n⟩ = Failure.message ⟨p, us.drop n⟩ := by
  have hfound : Failure.found (ts.drop n).head? = Failure.found (us.drop n).head? := by
    have hn := h.drop n
    cases hts : ts.drop n with
    | nil =>
      rw [hts] at hn
      rw [List.length_eq_zero_iff.mp hn.length_eq.symm]
    | cons t rest =>
      rw [hts] at hn
      obtain ⟨u, us, hus, hcontent, -⟩ := List.map_eq_cons_iff.mp hn.symm
      rw [hus]
      exact congrArg (fun w => "'" ++ w ++ "'") (Prod.mk.inj hcontent).2.symm
  simp only [Failure.message, hfound]

theorem Failure.place_drop (t : Tokenized) (p : Problem) (n : Nat) :
    Failure.place ⟨p, t.tokens.drop n⟩ t.stop = t.placeAt n := by
  rw [Failure.place, Tokenized.placeAt, List.head?_drop]

/-- **Source texts with the same tokens are read alike.** -/
theorem parse_sameReading {s s' : String} {t t' : Tokenized} (ht : tokenize s = .ok t)
    (ht' : tokenize s' = .ok t')
    (h : t.tokens.map (fun t => (t.label, t.lexeme)) =
      t'.tokens.map (fun t => (t.label, t.lexeme))) :
    SameReading t t' (parse s) (parse s') := by
  have hlexed := lexed_of_tokenize ht
  have hlexed' := lexed_of_tokenize ht'
  have halike := alike_of_labels hlexed.wellShaped hlexed'.wellShaped h
  have hat :=
    Comparison.sim_nodes (C := .layout) false t.tokens t'.tokens ⟨halike, hlexed, hlexed'⟩
  rw [parse_of_tokenize ht, parse_of_tokenize ht', Tokenized.parse, Tokenized.parse]
  cases hrun : Parser.compilationUnit t.tokens with
  | ok r =>
    obtain ⟨n, u', -, -, -, hagrees, hrun'⟩ := hat.ok hrun
    obtain ⟨rest', hrun', -⟩ := hrun' (.inl trivial)
    rw [Parser.compilationUnit, hrun']
    exact .ok (hagrees.mono (fun _ _ => Sliced.sameLexemes) fun _ _ => Sliced.sameLexemes)
  | error e =>
    obtain ⟨n, hn, hleft, hrun'⟩ := hat.error hrun trivial
    obtain ⟨p, left⟩ := e
    obtain rfl : left = t.tokens.drop n := hleft
    rw [Parser.compilationUnit, hrun']
    exact .error (Failure.message_congr halike p n) n hn (Failure.place_drop t p n)
      (Failure.place_drop t' p n)

/-- A comment in the initial value of a field, and other gaps. -/
theorem parse_sameReading_field :
    let s := "class A" ++ Text.braced "int x=f(1),y;"
    let s' := "class A\n" ++ Text.braced " int x = /* ; */ f( 1 ), // one\n y ; "
    ∃ t t', tokenize s = .ok t ∧ tokenize s' = .ok t' ∧
    SameReading t t' (parse s) (parse s') :=
  ⟨_, _, rfl, rfl, parse_sameReading rfl rfl (by decide)⟩

end SharpScript
