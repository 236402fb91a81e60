import SharpScript.Proofs.Layout
import SharpScript.Proofs.Parser.RenamedRules
import SharpScript.Proofs.Parser.Termination

/-! # Escaped words

An escaped keyword is an identifier.  Whether a source text can be read, and what is read from
it, does not depend on which identifier it is, as long as no rule of the grammar looks for the
keyword by its text: such a rule takes the escaped keyword for the keyword.

## Main Definitions

* `Tokenized.Renames`, `Respells`: a source text in which every escaped
  word `old` has been renamed;
* `RenamedReading`: what is read from two source texts is the same up to a renaming.

## Main Results

* `parse_renamed`: **an escaped keyword is read as a name**, if no rule
  looks for it by its text;
* `parse_tells_ruleKeywords`: every keyword that a rule looks for by its
  text is told from a name.
-/

namespace SharpScript

open Lexer

/-! ## Source texts -/

/-- The tokens `t'` are the tokens `t` with every escaped word `old` renamed to `new`, and the
trivia before, between and behind them are the same. -/
structure Tokenized.Renames (old new : String) (t t' : Tokenized) : Prop where
  alike : Alike (t.tokens.map (Token.rename old new)) t'.tokens
  gaps : t.tokens.map Token.gap = t'.tokens.map Token.gap
  gap : t.gap = t'.gap

instance (ts us : List Token) : Decidable (Alike ts us) := inferInstanceAs (Decidable (_ = _))

instance (old new : String) (t t' : Tokenized) : Decidable (t.Renames old new t') :=
  decidable_of_iff (Alike (t.tokens.map (Token.rename old new)) t'.tokens ∧
    t.tokens.map Token.gap = t'.tokens.map Token.gap ∧ t.gap = t'.gap)
    ⟨fun h => ⟨h.1, h.2.1, h.2.2⟩, fun h => ⟨h.alike, h.gaps, h.gap⟩⟩

/-- The text `s'` is the text `s` with every escaped word `old` renamed to `new`. -/
def Respells (old new s s' : String) : Prop :=
  ∃ t t', tokenize s = .ok t ∧ tokenize s' = .ok t' ∧ t.Renames old new t'

namespace Renaming

variable {ρ : Renaming}

/-- The source text of consecutive tokens is cut into those tokens, with no
gap before the first. -/
theorem exists_tokenize_spelling {vs : List Token} (h : Lexed vs) (hvs : vs ≠ []) :
    ∃ us q, tokenize (Token.spelling vs) = .ok ⟨us, "", q⟩ ∧ Alike vs us ∧
      us.map Token.gap = "" :: vs.tail.map Token.gap := by
  obtain ⟨us, q, hcut, hshift, hgap⟩ := h.cut_gap hvs .start []
  refine ⟨us, q, hcut.pieces_eq, hshift.alike, ?_⟩
  obtain ⟨u, us, rfl⟩ := List.exists_cons_of_ne_nil (hshift.alike.ne_nil hvs)
  rw [hshift.gaps]
  exact congrArg (· :: us.map Token.gap) (Option.some.inj hgap)

theorem Slices.respells {s s' : String} (h : ρ.Slices s s') : Respells ρ.old ρ.new s s' := by
  obtain ⟨vs, ws, hne, hvs, hws, hshift, rfl, rfl⟩ := h
  have hne' : ws ≠ [] := hshift.alike.ne_nil (by simpa using hne)
  obtain ⟨us, q, htokens, halike, hgaps⟩ := exists_tokenize_spelling hvs hne
  obtain ⟨us', q', htokens', halike', hgaps'⟩ := exists_tokenize_spelling hws hne'
  refine ⟨_, _, htokens, htokens', ?_, ?_, rfl⟩
  · exact (alike_map_token halike.symm).trans (hshift.alike.trans halike')
  · rw [hgaps, hgaps', ← hshift.gaps, ← List.map_tail, map_gap_token]

/-- The tokens of a source text and of the text renamed. -/
theorem tokens_of_renames {t t' : Tokenized} (h : t.Renames ρ.old ρ.new t')
    (hlexed : Lexed t.tokens) (hlexed' : Lexed t'.tokens)
    (hfresh : ∀ x ∈ t.tokens, x.text ≠ ρ.new) :
    ρ.Tokens t.tokens t'.tokens := by
  have htakes : ∀ {ts us : List Token}, Alike (ts.map ρ.token) us →
      ts.map Token.gap = us.map Token.gap → (∀ x ∈ ts, WellShaped x) →
      (∀ x ∈ ts, x.text ≠ ρ.new) → List.Forall₂ ρ.Takes ts us := by
    intro ts
    induction ts with
    | nil =>
      intro us halike _ _ _
      rw [List.map_eq_nil_iff.mp halike.symm]
      exact .nil
    | cons x ts ih =>
      intro us halike hgaps hshaped hfresh
      obtain ⟨y, us, rfl, hhead, htail⟩ := List.map_eq_cons_iff.mp halike.symm
      obtain ⟨hgap, hgaps⟩ := List.cons.inj hgaps
      obtain ⟨hx, hshaped⟩ := List.forall_mem_cons.mp hshaped
      obtain ⟨hx', hfresh⟩ := List.forall_mem_cons.mp hfresh
      exact .cons ⟨hhead, hgap.symm, hx, hx'⟩ (ih htail.symm hgaps hshaped hfresh)
  exact ⟨htakes h.alike h.gaps hlexed.wellShaped hfresh, hlexed, hlexed'⟩

end Renaming

/-! ## Reading source texts -/

/-- What is read from two source texts is the same up to a renaming: trees that
differ in names and positions only, and in texts as the source texts do, or the same
failure at the same token. -/
inductive RenamedReading (ρ : Renaming) (t t' : Tokenized) :
    Except SourceError CompilationUnit → Except SourceError CompilationUnit → Prop
  | ok {u u' : CompilationUnit}
      (h : (u.rename ρ.word).Agrees (Respells ρ.old ρ.new) (Respells ρ.old ρ.new) u') :
      RenamedReading ρ t t' (.ok u) (.ok u')
  | error (p : Problem) (n : Nat) (hn : n ≤ t.tokens.length) :
      RenamedReading ρ t t' (.error (.grammar ⟨p, t.tokens.drop n⟩ t.stop))
        (.error (.grammar ⟨p, t'.tokens.drop n⟩ t'.stop))

/-- **An escaped keyword is read as a name**: if no rule looks for the keyword by its text, a
source text is read as the source text in which the keyword is renamed to a name that was not
there before, and that no rule looks for either. -/
theorem parse_renamed (ρ : Renaming) {s s' : String} {t t' : Tokenized}
    (ht : tokenize s = .ok t) (ht' : tokenize s' = .ok t') (h : t.Renames ρ.old ρ.new t')
    (hfresh : ∀ x ∈ t.tokens, x.text ≠ ρ.new) :
    RenamedReading ρ t t' (parse s) (parse s') := by
  have htokens := ρ.tokens_of_renames h (lexed_of_tokenize ht) (lexed_of_tokenize ht') hfresh
  have houtcome := ρ.follows_compilationUnit t.tokens t'.tokens htokens
  rw [parse_of_tokenize ht, parse_of_tokenize ht', Tokenized.parse, Tokenized.parse]
  generalize hrun : Parser.compilationUnit t.tokens = x,
    hrun' : Parser.compilationUnit t'.tokens = x' at houtcome
  cases houtcome with
  | ok hunits _ =>
    exact .ok (hunits.mono (fun _ _ => Renaming.Slices.respells) fun _ _ =>
      Renaming.Slices.respells)
  | @error p left left' hleft =>
    have hsuffix : left <:+ t.tokens := ((Parser.settles_nodes false).error hrun).1
    have hsuffix' : left' <:+ t'.tokens := ((Parser.settles_nodes false).error hrun').1
    have hdrop := List.suffix_iff_eq_drop.mp hsuffix
    have hdrop' := List.suffix_iff_eq_drop.mp hsuffix'
    rw [← htokens.length_eq, ← hleft.length_eq] at hdrop'
    rw [hdrop, hdrop']
    exact .error p _ (Nat.sub_le _ _)

/-- A keyword that names a class, its constructor, a parameter and a field, beside the keyword
itself. -/
theorem parse_renamed_new :
    let s := "class @new" ++ Text.braced "@new(T @new)=>y;new T[]@new;"
    let s' := "class z" ++ Text.braced "z(T z)=>y;new T[]z;"
    ∃ (ρ : Renaming) (t t' : Tokenized), ρ.old = "new" ∧ ρ.new = "z" ∧ tokenize s = .ok t ∧
      tokenize s' = .ok t' ∧ t.Renames "new" "z" t' ∧ (∀ x ∈ t.tokens, x.text ≠ "z") ∧
      (parse s).isOk = true ∧ RenamedReading ρ t t' (parse s) (parse s') := by
  let ρ : Renaming := ⟨"new", "z", by decide, by decide, by decide, by decide⟩
  refine ⟨ρ, _, _, rfl, rfl, rfl, rfl, ?hrenames, ?hfresh, by decide +kernel,
    parse_renamed ρ rfl rfl ?hrenames ?hfresh⟩
  · decide +kernel
  · decide +kernel

/-! ## Keywords that rules look for -/

/-- For each keyword that a rule looks for by its text, a source text
with a place for a name. -/
def tellingPlaces : List (String × (String → String)) :=
  let block := Text.braced ""
  let inClass (s : String) := "class y " ++ Text.braced (" " ++ s ++ " ")
  [("catch", fun n => "try " ++ block ++ " " ++ n ++ " " ++ block),
    ("checked", fun n => n ++ " " ++ block), ("class", fun n => n ++ ";"),
    ("delegate", fun n => n ++ ";"), ("do", fun n => n ++ ";"),
    ("else", fun n => "if (y); " ++ n ++ " " ++ block), ("enum", fun n => n ++ ";"),
    ("event", fun n => inClass (n ++ ";")), ("explicit", fun n => inClass (n ++ ";")),
    ("extern", fun n => n ++ "(y) " ++ block),
    ("finally", fun n => "try " ++ block ++ " " ++ n ++ " " ++ block),
    ("fixed", fun n => n ++ ";"), ("for", fun n => n ++ ";"), ("foreach", fun n => n ++ ";"),
    ("if", fun n => n ++ ";"), ("implicit", fun n => inClass (n ++ ";")),
    ("interface", fun n => n ++ ";"), ("lock", fun n => n ++ ";"),
    ("namespace", fun n => n ++ ";"), ("operator", fun n => inClass ("y " ++ n ++ " z;")),
    ("static", fun n => n ++ "(y) " ++ block), ("struct", fun n => n ++ ";"),
    ("switch", fun n => n ++ "(y);"), ("this", fun n => inClass ("y " ++ n ++ " z;")),
    ("try", fun n => n ++ ";"), ("unchecked", fun n => n ++ " " ++ block),
    ("unsafe", fun n => n ++ "(y) " ++ block), ("using", fun n => n ++ " \x7d;"),
    ("while", fun n => n ++ ";")]

/-- Whether two source texts differ in the escaped word `w` and the name `x` alone, and only
one of them can be read. -/
def tellsApart (w s s' : String) : Bool :=
  match tokenize s, tokenize s' with
  | .ok t, .ok t' => decide (t.Renames w "x" t' ∧ ∀ y ∈ t.tokens, y.text ≠ "x") &&
      (t.parse.isOk != t'.parse.isOk)
  | _, _ => false

/-- Every keyword that a rule looks for by its text is told from a name, although it
is escaped: there is a source text that can be read with the one of them and cannot
be read with the other. -/
theorem parse_tells_ruleKeywords : isName "x" = true ∧ "x" ∉ ruleNames ∧
    ∀ w ∈ ruleKeywords, ∃ s s' t t', tokenize s = .ok t ∧ tokenize s' = .ok t' ∧
      t.Renames w "x" t' ∧ (∀ y ∈ t.tokens, y.text ≠ "x") ∧
      (parse s).isOk ≠ (parse s').isOk := by
  have hkeywords : ruleKeywords = tellingPlaces.map Prod.fst := rfl
  have htexts : ∀ c ∈ tellingPlaces, tellsApart c.1 (c.2 ("@" ++ c.1)) (c.2 "x") = true := by
    decide +kernel
  refine ⟨by decide, by decide, fun w hw => ?_⟩
  rw [hkeywords] at hw
  obtain ⟨⟨w, place⟩, hc, rfl⟩ := List.mem_map.mp hw
  have htells := htexts _ hc
  unfold tellsApart at htells
  split at htells
  · rename_i t t' ht ht'
    obtain ⟨hrenames, hparse⟩ := Bool.and_eq_true_iff.mp htells
    obtain ⟨hrenames, hfresh⟩ := of_decide_eq_true hrenames
    rw [← parse_of_tokenize ht, ← parse_of_tokenize ht', bne_iff_ne] at hparse
    exact ⟨place ("@" ++ w), place "x", t, t', ht, ht', hrenames, hfresh, hparse⟩
  · cases htells

end SharpScript
