import SharpScript.Proofs.Lexer.Lexeme

/-! # The source text of some tokens

The tokens of a text and the trivia around them make up the text again.  Where a text stands
and what gap comes before it matters to the places of its tokens and to the first gap, and to
nothing else.  The source text of some consecutive tokens is therefore cut into the same
tokens when it stands alone.

## Main Definitions

* `Token.content`: the kind and the text of a token;
* `Alike`: lists of tokens with the same contents;
* `Shifted`: the same tokens elsewhere in a source text;
* `Lexed`: consecutive tokens of some source text.

## Main Results

* `Cut.text_eq`: nothing of a text is lost;
* `Cut.regap`, `Cut.shift`: the gap and the place before a text;
* `Lexed.cut_gap`, `Lexed.cut`: **the text of consecutive tokens is cut into those tokens**;
* `Lexed.trim_spelling`: such a text has no blanks at its ends.
-/

namespace SharpScript

/-- The kind and the text of a token. -/
def Token.content (t : Token) : Kind × String := (t.kind, t.text)

/-- Two lists of tokens with the same kinds and texts. -/
def Alike (ts us : List Token) : Prop := ts.map Token.content = us.map Token.content

/-- The lexeme of a token depends on its kind and text alone. -/
theorem Token.lexeme_eq_of_content {t u : Token} (h : t.content = u.content) :
    t.lexeme = u.lexeme := by
  obtain ⟨hkind, htext⟩ := Prod.mk.inj h
  unfold Token.lexeme
  rw [hkind, htext]

namespace Alike

variable {ts us vs : List Token}

/-- Tokens are alike to themselves. -/
theorem refl (ts : List Token) : Alike ts ts := rfl

theorem symm (h : Alike ts us) : Alike us ts := Eq.symm h

theorem trans (h : Alike ts us) (h' : Alike us vs) : Alike ts vs := Eq.trans h h'

/-- There are as many tokens in both lists. -/
theorem length_eq (h : Alike ts us) : ts.length = us.length := by
  simpa using congrArg List.length h

/-- Neither list is empty if one is not. -/
theorem ne_nil (h : Alike ts us) (hts : ts ≠ []) : us ≠ [] := by
  rintro rfl
  exact hts (List.length_eq_zero_iff.mp h.length_eq)

theorem drop (h : Alike ts us) (n : Nat) : Alike (ts.drop n) (us.drop n) := by
  unfold Alike at h ⊢
  rw [List.map_drop, List.map_drop, h]

theorem take (h : Alike ts us) (n : Nat) : Alike (ts.take n) (us.take n) := by
  unfold Alike at h ⊢
  rw [List.map_take, List.map_take, h]

/-- Lists that are alike may be put together. -/
theorem append {ts' us' : List Token} (h : Alike ts us) (h' : Alike ts' us') :
    Alike (ts ++ ts') (us ++ us') := by
  unfold Alike at h h' ⊢
  rw [List.map_append, List.map_append, h, h']

/-- Tokens are alike one by one. -/
theorem cons_iff {t u : Token} :
    Alike (t :: ts) (u :: us) ↔ t.content = u.content ∧ Alike ts us := by
  unfold Alike
  rw [List.map_cons, List.map_cons, List.cons.injEq]

/-- Tokens that are alike have the same lexemes. -/
theorem lexemes_eq (h : Alike ts us) : ts.map Token.lexeme = us.map Token.lexeme := by
  induction ts generalizing us with
  | nil => cases us <;> first | rfl | cases h
  | cons t ts ih =>
    cases us with
    | nil => cases h
    | cons u us =>
      obtain ⟨hhead, htail⟩ := cons_iff.mp h
      rw [List.map_cons, List.map_cons, Token.lexeme_eq_of_content hhead, ih htail]

end Alike

namespace Token

/-- The tokens with the gaps before them, as characters. -/
def chars (ts : List Token) : List Char := ts.flatMap fun u => u.gap.toList ++ u.lexeme.toList

/-- The characters of tokens behind one another. -/
theorem chars_append (ts us : List Token) : chars (ts ++ us) = chars ts ++ chars us :=
  List.flatMap_append

/-- The source text of tokens starts with the lexeme of the first one: the gap before it does
not belong to the text. -/
theorem spelling_cons (t : Token) (ts : List Token) :
    (spelling (t :: ts)).toList = t.lexeme.toList ++ chars ts := by
  simp [spelling, chars, String.toList_join, List.flatMap_map]

/-- Tokens that are alike, with the same gaps before them, have the same characters. -/
theorem chars_congr {ts us : List Token} (h : Alike ts us)
    (hgap : ts.map Token.gap = us.map Token.gap) : chars ts = chars us := by
  have hpairs : ∀ vs : List Token, chars vs =
      (List.zipWith (fun g w => g.toList ++ w.toList) (vs.map gap)
        (vs.map lexeme)).flatten := by
    intro vs
    induction vs with
    | nil => rfl
    | cons v vs ih =>
      show (v.gap.toList ++ v.lexeme.toList) ++ chars vs = _
      rw [ih]
      rfl
  rw [hpairs ts, hpairs us, hgap, h.lexemes_eq]

end Token

/-- The same tokens elsewhere: the gap before the first one and the places may differ. -/
structure Shifted (ts us : List Token) : Prop where
  alike : Alike ts us
  gaps : ts.tail.map Token.gap = us.tail.map Token.gap

namespace Shifted

variable {ts us vs : List Token}

/-- Tokens may stay where they are. -/
theorem refl (ts : List Token) : Shifted ts ts := ⟨.refl ts, rfl⟩

theorem symm (h : Shifted ts us) : Shifted us ts := ⟨h.alike.symm, h.gaps.symm⟩

/-- Tokens may be moved more than once. -/
theorem trans (h : Shifted ts us) (h' : Shifted us vs) : Shifted ts vs :=
  ⟨h.alike.trans h'.alike, h.gaps.trans h'.gaps⟩

/-- What is behind the first `n` tokens is moved with them, and the gap before it is kept or
becomes the first. -/
theorem drop (h : Shifted ts us) (n : Nat) : Shifted (ts.drop n) (us.drop n) := by
  refine ⟨h.alike.drop n, ?_⟩
  have hdrop : ∀ vs : List Token, (vs.drop n).tail = vs.tail.drop n := fun vs => by
    rw [List.tail_drop, List.drop_tail]
  rw [hdrop, hdrop, List.map_drop, h.gaps, List.map_drop]

/-- The first tokens are moved too. -/
theorem take (h : Shifted ts us) (n : Nat) : Shifted (ts.take n) (us.take n) := by
  refine ⟨h.alike.take n, ?_⟩
  have htake : ∀ vs : List Token, (vs.take n).tail = vs.tail.take (n - 1) := fun vs => by
    rw [← List.drop_one, ← List.drop_one, List.drop_take]
  rw [htake, htake, List.map_take, h.gaps, List.map_take]

/-- The source text of tokens is determined by their contents and by the gaps between them. -/
theorem spelling_eq (h : Shifted ts us) : Token.spelling ts = Token.spelling us := by
  cases ts with
  | nil => rw [List.length_eq_zero_iff.mp h.alike.length_eq.symm]
  | cons t ts =>
    cases us with
    | nil => cases h.alike
    | cons u us =>
      obtain ⟨hhead, htail⟩ := Alike.cons_iff.mp h.alike
      apply String.toList_injective
      rw [Token.spelling_cons, Token.spelling_cons, Token.lexeme_eq_of_content hhead,
        Token.chars_congr htail h.gaps]

end Shifted

namespace Lexer

/-! ## Nothing is lost -/

/-- Every token of a text has the shape that its kind asks for. -/
theorem Cut.wellShaped {p : Place} {g cs : List Char} {t : Tokenized} (h : Cut p g cs t) :
    ∀ u ∈ t.tokens, WellShaped u := by
  induction h with
  | nil p g => exact fun u hu => nomatch hu
  | blank _ _ ih => exact ih
  | remark _ _ ih => exact ih
  | token hw _ ih =>
    intro u hu
    rcases List.mem_cons.mp hu with rfl | hu
    · exact wellShaped_token hw.shape _ _
    · exact ih u hu

/-- The tokens of a text with the gaps before them, and the last gap, make up the text. -/
theorem Cut.text_eq {p : Place} {g cs : List Char} {t : Tokenized} (h : Cut p g cs t) :
    g ++ cs = Token.chars t.tokens ++ t.gap.toList := by
  induction h with
  | nil p g => simp [Token.chars]
  | blank _ _ ih => simpa using ih
  | remark _ _ ih => simpa using ih
  | @token p g w r t k hw _ ih =>
    show g ++ (w ++ r) = ((Lexer.token k w g p).gap.toList ++
      (Lexer.token k w g p).lexeme.toList ++ Token.chars t.tokens) ++ t.gap.toList
    rw [lexeme_token hw.shape, String.toList_ofList, List.append_assoc, ← ih]
    simp [Lexer.token]

/-! ## What stands before a text -/

/-- A gap before a text becomes part of its first gap. -/
theorem Cut.regap {p : Place} {g cs : List Char} {t : Tokenized} (h : Cut p g cs t)
    (g' : List Char) : ∃ t', Cut p g' cs t' ∧ Alike t.tokens t'.tokens ∧
      t.tokens.tail = t'.tokens.tail ∧ (t.tokens ≠ [] → t.gap = t'.gap) ∧
      t.stop = t'.stop := by
  induction h generalizing g' with
  | nil p g => exact ⟨_, .nil p g', rfl, rfl, fun h => absurd rfl h, rfl⟩
  | @blank _ _ c _ _ hc _ ih =>
    obtain ⟨t', h', hrest⟩ := ih (g' ++ [c])
    exact ⟨t', .blank hc h', hrest⟩
  | @remark _ _ w _ _ hw _ ih =>
    obtain ⟨t', h', hrest⟩ := ih (g' ++ w)
    exact ⟨t', .remark hw h', hrest⟩
  | token hw h => exact ⟨_, .token hw h, rfl, rfl, fun _ => rfl, rfl⟩

/-- Whether a line is bare behind a text depends on whether it was before, and on the text. -/
theorem bare_after {p q : Place} (h : p.bare = q.bare) (cs : List Char) :
    (p.after cs).bare = (q.after cs).bare := by
  induction cs generalizing p q with
  | nil => exact h
  | cons c cs ih => exact ih (by simp [Place.step, h])

/-- No line is bare behind a character that is no blank. -/
theorem bare_step_of_isSolid {c : Char} (h : IsSolid c) (p : Place) :
    (p.step c).bare = false := by
  have hline : (c == '\n') = false ∧ (c == ' ') = false ∧ (c == '\t') = false := by
    refine ⟨?_, ?_, ?_⟩ <;> refine beq_eq_false_iff_ne.mpr ?_ <;> rintro rfl <;> cases h
  simp [Place.step, hline]

/-- Behind a text that ends with such a character it does not matter where the text stood. -/
theorem bare_after_of_solid {w : List Char} (h : Solid w) (p q : Place) :
    (p.after w).bare = (q.after w).bare := by
  obtain ⟨⟨c, hc, hsolid⟩, -⟩ := h
  obtain ⟨v, rfl⟩ := List.head?_eq_some_iff.mp hc
  exact bare_after
    ((bare_step_of_isSolid hsolid p).trans (bare_step_of_isSolid hsolid q).symm) v

/-- Where a text stands matters to the places of its tokens alone. -/
theorem Cut.shift {p : Place} {g cs : List Char} {t : Tokenized} (h : Cut p g cs t)
    {q : Place} (hq : p.bare = q.bare) : ∃ t', Cut q g cs t' ∧ Alike t.tokens t'.tokens ∧
      t.tokens.map Token.gap = t'.tokens.map Token.gap ∧ t.gap = t'.gap ∧
      t.stop.bare = t'.stop.bare := by
  induction h generalizing q with
  | nil p g => exact ⟨_, .nil q g, rfl, rfl, rfl, hq⟩
  | @blank _ _ c _ _ hc _ ih =>
    obtain ⟨t', h', hrest⟩ := ih (bare_after hq [c])
    exact ⟨t', .blank hc h', hrest⟩
  | @remark _ _ w _ _ hw _ ih =>
    obtain ⟨t', h', hrest⟩ := ih (bare_after hq w)
    exact ⟨t', .remark (hq ▸ hw) h', hrest⟩
  | @token _ _ w _ _ _ hw _ ih =>
    obtain ⟨t', h', halike, hgaps, hrest⟩ := ih (bare_after hq w)
    exact ⟨_, .token hw h', Alike.cons_iff.mpr ⟨rfl, halike⟩, congrArg (_ :: ·) hgaps, hrest⟩

end Lexer

/-! ## Consecutive tokens -/

/-- Consecutive tokens of some source text. -/
def Lexed (ts : List Token) : Prop := ∃ p cs q, Lexer.Cut p [] cs ⟨ts, "", q⟩

open Lexer

/-- No tokens are consecutive tokens. -/
theorem lexed_nil : Lexed [] := ⟨_, _, _, .nil .start []⟩

/-- The tokens of a text, whatever its place, are consecutive tokens. -/
theorem Lexer.Cut.lexed {p : Place} {cs : List Char} {t : Tokenized} (h : Cut p [] cs t) :
    Lexed t.tokens := by
  by_cases ht : t.tokens = []
  · rw [ht]
    exact lexed_nil
  · obtain ⟨cs₁, _, q, -, h₁, -⟩ := h.split (List.append_nil _).symm ht
    exact ⟨p, cs₁, q, h₁⟩

/-- So are those of a source text. -/
theorem lexed_of_tokenize {s : String} {t : Tokenized} (h : tokenize s = .ok t) :
    Lexed t.tokens :=
  (cut_of_pieces_eq h).lexed

namespace Lexed

variable {ts us : List Token}

/-- Consecutive tokens may be cut off at the end. -/
theorem of_append_left (h : Lexed (ts ++ us)) : Lexed ts := by
  by_cases hts : ts = []
  · rw [hts]
    exact lexed_nil
  · obtain ⟨p, cs, q, hcut⟩ := h
    obtain ⟨cs₁, _, q', -, h₁, -⟩ := hcut.split rfl hts
    exact ⟨p, cs₁, q', h₁⟩

/-- Consecutive tokens may be cut off at the start. -/
theorem of_append_right (h : Lexed (ts ++ us)) : Lexed us := by
  by_cases hts : ts = []
  · rwa [hts] at h
  · obtain ⟨p, cs, q, hcut⟩ := h
    obtain ⟨_, cs₂, q', -, -, h₂⟩ := hcut.split rfl hts
    exact ⟨q', cs₂, q, h₂⟩

theorem take (h : Lexed ts) (n : Nat) : Lexed (ts.take n) := by
  rw [← List.take_append_drop n ts] at h
  exact h.of_append_left

theorem drop (h : Lexed ts) (n : Nat) : Lexed (ts.drop n) := by
  rw [← List.take_append_drop n ts] at h
  exact h.of_append_right

/-- Consecutive tokens have the shapes that their kinds ask for. -/
theorem wellShaped (h : Lexed ts) : ∀ t ∈ ts, WellShaped t := by
  obtain ⟨p, cs, q, hcut⟩ := h
  exact hcut.wellShaped

/-- **The source text of consecutive tokens is cut into those tokens**, wherever it stands and
whatever gap comes before it.  That gap is the gap before the first token. -/
theorem cut_gap (h : Lexed ts) (hts : ts ≠ []) (p : Place) (g : List Char) :
    ∃ us q, Cut p g (Token.spelling ts).toList ⟨us, "", q⟩ ∧ Shifted ts us ∧
      us.head?.map Token.gap = some (String.ofList g) := by
  obtain ⟨t, ts, rfl⟩ := List.exists_cons_of_ne_nil hts
  obtain ⟨p₀, cs, q, hcut⟩ := h
  obtain ⟨v, k, w, r, rfl, hw, rfl, hrest⟩ := hcut.first rfl
  -- Behind the first lexeme the line is no longer bare, wherever the lexeme stands.
  have hbare : (p₀.after (v ++ w)).bare = (p.after w).bare := by
    rw [Place.after_append]
    exact bare_after_of_solid hw.shape.solid _ _
  obtain ⟨⟨us, gap, q'⟩, hcut', halike, hgaps, hgap, -⟩ := hrest.shift hbare
  obtain rfl : "" = gap := hgap
  have htext :
      (Token.spelling (Lexer.token k w ([] ++ v) (p₀.after v) :: ts)).toList = w ++ r := by
    have hr := hrest.text_eq
    rw [Token.spelling_cons, lexeme_token hw.shape, String.toList_ofList]
    simpa using hr.symm
  rw [htext]
  exact ⟨_, q', .token hw hcut', ⟨Alike.cons_iff.mpr ⟨rfl, halike⟩, hgaps⟩, rfl⟩

/-- The same, where the gap before the first token does not matter. -/
theorem cut (h : Lexed ts) (hts : ts ≠ []) (p : Place) (g : List Char) :
    ∃ us q, Cut p g (Token.spelling ts).toList ⟨us, "", q⟩ ∧ Shifted ts us := by
  obtain ⟨us, q, hcut, hshift, -⟩ := h.cut_gap hts p g
  exact ⟨us, q, hcut, hshift⟩

/-- The source text of consecutive tokens is a text of its own, with the same tokens. -/
theorem tokenize_spelling (h : Lexed ts) :
    ∃ us q, tokenize (Token.spelling ts) = .ok ⟨us, "", q⟩ ∧ Shifted ts us := by
  by_cases hts : ts = []
  · subst hts
    exact ⟨[], .start, rfl, .refl []⟩
  · obtain ⟨us, q, hcut, hrest⟩ := h.cut hts .start []
    exact ⟨us, q, hcut.pieces_eq, hrest⟩

/-- The source text of consecutive tokens neither starts nor ends with a blank. -/
theorem solid_spelling (h : Lexed ts) (hts : ts ≠ []) : Solid (Token.spelling ts).toList := by
  obtain ⟨t, us, rfl⟩ := List.exists_cons_of_ne_nil hts
  obtain ⟨⟨c, hc, hhead⟩, -⟩ := (h.wellShaped t List.mem_cons_self).solid
  obtain ⟨-, d, hd, hlast⟩ := (h.wellShaped _ (List.getLast_mem hts)).solid
  refine ⟨⟨c, ?_, hhead⟩, d, ?_, hlast⟩
  · rw [Token.spelling_cons, List.head?_append, hc, Option.some_or]
  · -- The last character is that of the last lexeme.
    rcases List.eq_nil_or_concat us with rfl | ⟨us, u, rfl⟩
    · simpa [Token.spelling_cons, Token.chars] using hd
    · have hu : u.lexeme.toList.getLast? = some d := by simpa using hd
      rw [Token.spelling_cons, List.concat_eq_append, Token.chars_append]
      simp [Token.chars, List.getLast?_append, hu]

/-- So nothing is trimmed off it. -/
theorem trim_spelling (h : Lexed ts) : Text.trim (Token.spelling ts) = Token.spelling ts := by
  by_cases hts : ts = []
  · subst hts
    rfl
  · exact trim_eq_self (h.solid_spelling hts)

end Lexed

end SharpScript
