import SharpScript.Proofs.Lexer.LineBreaks
import SharpScript.Proofs.Lexer.Spans
import SharpScript.Proofs.WellNested

/-! # Texts of a tree in its source text

Every text of a tree stands in the source text, from the start of a token to the end of one,
and the texts stand there in order and apart from one another.  Nothing is done to them, but
that an expression for a body is made a statement.

## Main Definitions

* `Quote.renders`: what a quote makes of the text that it is taken from;
* `Quote.Fits`: where a quote may be taken from;
* `Quote.TakenAt`: a quote is taken from between two offsets of a source text;
* `TakenInOrder`: quotes are taken from a source text in order and without overlap.

## Main Results

* `slice_eq_spelling`: the characters between the start of a token and the end of one;
* `parse_quotes`: **no text is lost, doubled or moved in reading a source text**.
-/

namespace SharpScript

open Lexer

/-! ## Stretches of a text -/

/-- A token starts behind the tokens before it and its gap. -/
theorem Lexer.Cut.offset_eq {p : Place} {g cs : List Char} {t : Tokenized} (h : Cut p g cs t)
    {before after : List Token} {u : Token} (ht : t.tokens = before ++ u :: after) :
    u.place.offset + g.length = p.offset + (Token.chars before).length +
      u.gap.toList.length := by
  have hfirst : ∀ {p : Place} {g cs : List Char} {t : Tokenized}, Cut p g cs t →
      t.tokens = u :: after → u.place.offset + g.length = p.offset + u.gap.toList.length := by
    intro p g cs t h ht
    obtain ⟨v, k, w, r, -, -, rfl, -⟩ := h.first ht
    have hplace : (Lexer.token k w (g ++ v) (p.after v)).place = p.after v := rfl
    have hgap : (Lexer.token k w (g ++ v) (p.after v)).gap.toList = g ++ v := by
      simp [Lexer.token]
    rw [hplace, hgap, Place.offset_after, List.length_append]
    omega
  -- The gap `g` is part of the first token, so the tokens behind others are cut without one.
  by_cases hbefore : before = []
  · subst hbefore
    simpa [Token.chars] using hfirst h ht
  · obtain ⟨cs₁, cs₂, q, rfl, h₁, h₂⟩ := h.split ht hbefore
    have hq : q.offset = p.offset + cs₁.length := by
      rw [← Place.offset_after, ← h₁.stop_eq]
    have hchars := congrArg List.length h₁.text_eq
    simp only [List.length_append, String.toList_empty, List.length_nil,
      Nat.add_zero] at hchars
    have hu := hfirst h₂ rfl
    rw [List.length_nil] at hu
    omega

section Stretches

variable {s : String} {t : Tokenized}

theorem offset_of_tokenize (h : tokenize s = .ok t) {before after : List Token} {u : Token}
    (ht : t.tokens = before ++ u :: after) :
    u.place.offset = (Token.chars before).length + u.gap.toList.length := by
  have := (cut_of_pieces_eq h).offset_eq ht
  simpa [Place.start] using this

theorem stop_of_tokenize (h : tokenize s = .ok t) {before after : List Token} {u : Token}
    (ht : t.tokens = before ++ u :: after) :
    u.stop = (Token.chars (before ++ [u])).length := by
  rw [Token.stop, offset_of_tokenize h ht, Token.chars_append, ← String.length_toList]
  simp [Token.chars, Nat.add_assoc]

/-- **The characters from the start of a token through the end of one** are the source text of
those tokens and all between them. -/
theorem slice_eq_spelling (h : tokenize s = .ok t) {before v after : List Token}
    {first last : Token} (ht : t.tokens = before ++ v ++ after) (hfirst : v.head? = some first)
    (hlast : v.getLast? = some last) :
    slice s.toList first.place.offset last.stop = (Token.spelling v).toList := by
  obtain ⟨v', rfl⟩ := List.head?_eq_some_iff.mp hfirst
  obtain ⟨v₀, hv₀⟩ := List.getLast?_eq_some_iff.mp hlast
  have hstart : first.place.offset = (Token.chars before ++ first.gap.toList).length := by
    rw [List.length_append]
    exact offset_of_tokenize h (by simpa using ht)
  have hchars :
      Token.chars (first :: v') =
        first.gap.toList ++ (Token.spelling (first :: v')).toList := by
    rw [Token.spelling_cons]
    simp [Token.chars]
  have hstop : last.stop = (Token.chars before ++ first.gap.toList).length +
      (Token.spelling (first :: v')).toList.length := by
    have hsplit : t.tokens = (before ++ v₀) ++ last :: after := by
      rw [ht, hv₀]
      simp
    rw [stop_of_tokenize h hsplit, List.append_assoc, ← hv₀, Token.chars_append, hchars]
    simp [Nat.add_assoc]
  have htext := (cut_of_pieces_eq h).text_eq
  rw [ht, Token.chars_append, Token.chars_append, hchars] at htext
  rw [hstart, hstop]
  have hwhole : s.toList = (Token.chars before ++ first.gap.toList) ++
      ((Token.spelling (first :: v')).toList ++ (Token.chars after ++ t.gap.toList)) := by
    simpa using htext
  rw [hwhole]
  exact slice_append _ _ _

end Stretches

/-! ## Quotes from a text -/

/-- What a quote makes of the text `w` that it is taken from. -/
def Quote.renders (w : String) : Quote → Prop
  | text s => s = w
  | type _ s => s = w
  | value returns s => s = (if returns then "return " else "") ++ w ++ ";"

/-- Whether a quote may be taken from the tokens `v` between the tokens `before` and `after`.
The type of a method is what the rule for types reads before the name of the method, and a
value stands between `=>` and `;`. -/
def Quote.Fits (before v after : List Token) : Quote → Prop
  | text _ => True
  | type name _ => Parser.typeReference (v ++ after) = .ok ((), after) ∧
      ∃ u us, Parser.memberName after = .ok (u, us) ∧ u.text = name
  | value _ _ => (∃ a, before.getLast? = some a ∧ a.reads "=>" = true) ∧
      Ahead.reads ";" after = true

/-- A quote is taken from between two offsets of the source text `s`, which has the tokens
`ts`: from the start of a token to the end of one.  No blanks stand around what is quoted. -/
def Quote.TakenAt (s : String) (ts : List Token) (q : Quote) (p : Nat × Nat) : Prop :=
  p.1 < p.2 ∧ q.renders (String.ofList (slice s.toList p.1 p.2)) ∧
    Text.trim (String.ofList (slice s.toList p.1 p.2)) =
    String.ofList (slice s.toList p.1 p.2) ∧ ∃ before v after, ts = before ++ v ++ after ∧
      q.Fits before v after ∧ v.head?.map (fun u => u.place.offset) = some p.1 ∧
      v.getLast?.map Token.stop = some p.2

/-- The quotes are taken from the source text `s` in order and apart from one another. -/
def TakenInOrder (s : String) (ts : List Token) (qs : List Quote) : Prop :=
  ∃ ps, List.Forall₂ (Quote.TakenAt s ts) qs ps ∧ ps.Pairwise fun p p' => p.2 ≤ p'.1

section Quotes

variable {s : String} {t : Tokenized}

/-- Where a quote is taken from, for the tokens that it is made of. -/
theorem takenAt_of_tokens (h : tokenize s = .ok t) {before v after : List Token} {q : Quote}
    (ht : t.tokens = before ++ v ++ after) (hv : v ≠ []) (hq : q.renders (Token.spelling v))
    (hfits : q.Fits before v after) :
    ∃ p, q.TakenAt s t.tokens p ∧ (∀ u ∈ before, u.stop ≤ p.1) ∧
      ∃ last ∈ v, last.stop = p.2 := by
  obtain ⟨first, hfirst⟩ : ∃ first, v.head? = some first := ⟨_, List.head?_eq_some_head hv⟩
  obtain ⟨last, hlast⟩ : ∃ last, v.getLast? = some last :=
    ⟨_, List.getLast?_eq_some_getLast hv⟩
  have hslice :
      String.ofList (slice s.toList first.place.offset last.stop) = Token.spelling v := by
    rw [slice_eq_spelling h ht hfirst hlast, String.ofList_toList]
  have hlexed : Lexed v := by
    have := lexed_of_tokenize h
    rw [ht] at this
    exact this.of_append_left.of_append_right
  -- The stretch is not empty, since the source text of tokens has a first character.
  have hlt : first.place.offset < last.stop := by
    by_contra hle
    have hempty : slice s.toList first.place.offset last.stop = [] := by
      rw [slice, List.drop_eq_nil_iff, List.length_take]
      omega
    obtain ⟨⟨c, hc, -⟩, -⟩ := hlexed.solid_spelling hv
    rw [← slice_eq_spelling h ht hfirst hlast, hempty] at hc
    cases hc
  refine ⟨(first.place.offset, last.stop), ⟨hlt, ?_, ?_, before, v, after, ht, hfits, ?_, ?_⟩,
    ?_, last, List.mem_of_getLast? hlast, rfl⟩
  · rwa [hslice]
  · rw [hslice]
    exact hlexed.trim_spelling
  · rw [hfirst]
    rfl
  · rw [hlast]
    rfl
  · intro u hu
    have hordered := (lossless_of_tokenize h).ordered
    rw [ht, List.append_assoc] at hordered
    have hmem : first ∈ v ++ after := List.mem_append_left _ (List.mem_of_head? hfirst)
    exact (List.pairwise_append.mp hordered).2.2 u hu first hmem

/-- The quotes are taken from the text in order, and behind the tokens `before`. -/
def TakenBehind (s : String) (ts before : List Token) (qs : List Quote) : Prop :=
  ∃ ps, List.Forall₂ (Quote.TakenAt s ts) qs ps ∧ (ps.Pairwise fun p p' => p.2 ≤ p'.1) ∧
    ∀ p ∈ ps, ∀ u ∈ before, u.stop ≤ p.1

theorem TakenBehind.of_append {ts before v : List Token} {qs : List Quote}
    (h : TakenBehind s ts (before ++ v) qs) : TakenBehind s ts before qs := by
  obtain ⟨ps, htaken, hordered, hbehind⟩ := h
  exact ⟨ps, htaken, hordered, fun p hp u hu => hbehind p hp u (List.mem_append_left _ hu)⟩

/-- A quote, and those that are taken from behind it. -/
theorem TakenBehind.cons (h : tokenize s = .ok t) {before v after : List Token} {q : Quote}
    {qs : List Quote} (ht : t.tokens = before ++ v ++ after) (hv : v ≠ [])
    (hq : q.renders (Token.spelling v)) (hfits : q.Fits before v after)
    (hqs : TakenBehind s t.tokens (before ++ v) qs) :
    TakenBehind s t.tokens before (q :: qs) := by
  obtain ⟨ps, htaken, hordered, hbehind⟩ := hqs
  obtain ⟨p, hp, hbefore, last, hlast, hstop⟩ := takenAt_of_tokens h ht hv hq hfits
  refine ⟨p :: ps, .cons hp htaken, .cons (fun p' hp' => ?_) hordered, ?_⟩
  · rw [← hstop]
    exact hbehind p' hp' last (List.mem_append_right _ hlast)
  · rintro p' (_ | ⟨_, hp'⟩) u hu
    · exact hbefore u hu
    · exact hbehind p' hp' u (List.mem_append_left _ hu)

/-- Quotes that are taken from tokens in order are taken from their text in order. -/
theorem Cites.takenBehind {qs : List Quote} {ts rest : List Token} (h : Cites qs ts rest)
    (htokens : tokenize s = .ok t) {before : List Token} (ht : t.tokens = before ++ ts) :
    TakenBehind s t.tokens before qs := by
  -- What has been passed over grows to the right, and the quotes still to
  -- come stand behind it.
  induction h generalizing before with
  | nil => exact ⟨[], .nil, .nil, nofun⟩
  | @skip _ ts _ u _ ih =>
    have ht' : t.tokens = before ++ [u] ++ ts := by simpa using ht
    exact (ih ht').of_append
  | text hv _ ih =>
    rw [← List.append_assoc] at ht
    exact .cons htokens ht hv rfl trivial (ih ht)
  | type hv htype hname _ ih =>
    rw [← List.append_assoc] at ht
    exact .cons htokens ht hv rfl ⟨htype, _, _, hname, rfl⟩ (ih ht)
  | @value _ a v ts _ returns ha hv hts _ ih =>
    have ht' : t.tokens = before ++ [a] ++ v ++ ts := by simpa using ht
    have hvalue := TakenBehind.cons (q := .value returns _) htokens ht' hv rfl
      ⟨⟨a, by simp, ha⟩, hts⟩ (ih ht')
    exact hvalue.of_append

theorem Cites.takenInOrder {qs : List Quote} {rest : List Token} (h : Cites qs t.tokens rest)
    (htokens : tokenize s = .ok t) : TakenInOrder s t.tokens qs := by
  obtain ⟨ps, htaken, hordered, -⟩ := h.takenBehind htokens (List.nil_append _).symm
  exact ⟨ps, htaken, hordered⟩

end Quotes

/-- **No text is lost, doubled or moved in reading a source text.**  The quotes of the
declarations are taken from the source text in order, and so are the using directives. -/
theorem parse_quotes {s : String} {u : CompilationUnit} (h : parse s = .ok u) :
    ∃ t, tokenize s = .ok t ∧ (∃ qs, ItemsQuote u.items qs ∧ TakenInOrder s t.tokens qs) ∧
      TakenInOrder s t.tokens (u.usings.map .text) := by
  obtain ⟨t, qs, ht, ⟨⟨xs, hxs, hsub⟩, husings, -⟩, -, hcites⟩ := passage_of_parse h
  exact ⟨t, ht, ⟨xs, hxs, (hcites.sublist hsub).takenInOrder ht⟩,
    (hcites.sublist husings).takenInOrder ht⟩

/-- A class with an annotation that has an argument, a base, a default value, a body of one
expression and a field of two variables. -/
def annotatedClass : String :=
  "using A;[X( 1 )]class C: B<T>" ++ Text.braced "int f(int a=2)=>a ;int g=3, h;"

theorem parse_quotes_class :
    ∃ u, parse annotatedClass = .ok u ∧ ∃ t, tokenize annotatedClass = .ok t ∧
      (∃ qs, ItemsQuote u.items qs ∧ TakenInOrder annotatedClass t.tokens qs) ∧
      TakenInOrder annotatedClass t.tokens (u.usings.map .text) := by
  obtain ⟨u, hu⟩ := exists_parse_eq_ok (s := annotatedClass) (by decide +kernel)
  exact ⟨u, hu, parse_quotes hu⟩

end SharpScript
