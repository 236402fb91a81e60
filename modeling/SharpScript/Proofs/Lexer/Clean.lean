import SharpScript.Proofs.Lexer.Lines
import SharpScript.Proofs.Lexer.PaddedCut
import SharpScript.Proofs.Tree.Quotes

/-! # Texts put together from balanced pieces

A text that is put together from pieces need not be cut where the pieces meet: a word goes
on in a letter that follows it, and a comment in all that follows on its line.  So each
piece comes with what may follow it, and two pieces may be put together if the second one is
what the first one asks for.

## Main Definitions

* `Clean R s`: before a text as `R` says, `s` is cut into tokens whose
  brackets are well nested;
* `Anything`, `NonWord`: texts of any kind, and texts that do not go on with a word.

## Main Results

* `Clean.append`: pieces behind one another;
* `clean_word`, `clean_code`, `clean_comment`, `clean_literal`: the pieces;
* `clean_group`, `clean_joined`, `Clean.line`: brackets around a piece, commas between pieces,
  and a line end behind one;
* `Clean.tokenize`: **a clean text is cut into tokens whose brackets are well nested**.
-/

namespace SharpScript

open Lexer

/-- Before every text as `R` says, `s` is cut into tokens whose brackets are well nested. -/
def Clean (R : List Char → Prop) (s : String) : Prop :=
  ∀ (p : Place) (g r : List Char), R r → ∃ ts q g', Balanced ts ∧
    pieces p g 0 (s.toList ++ r) = (pieces q g' 0 r).map (prepend ts)

/-- Any text. -/
def Anything (_ : List Char) : Prop := True

/-- A text that does not go on with a word. -/
def NonWord (r : List Char) : Prop := ∀ d, r.head? = some d → isWordPart d = false

theorem nonWord_of_apart {r : List Char} (h : Apart r) : NonWord r := by
  intro d hd
  rw [Bool.eq_false_iff]
  intro hpart
  have := h d hd
  rw [isWordPart_not_isApart hpart] at this
  cases this

theorem map_prepend_append {e : Except Fault Tokenized} (ts us : List Token) :
    (e.map (prepend us)).map (prepend ts) = e.map (prepend (ts ++ us)) := by
  cases e with
  | error fault => rfl
  | ok t => simp [Except.map, prepend]

namespace Clean

variable {R R' : List Char → Prop} {a b s : String}

theorem mono (h : Clean R s) (hR : ∀ r, R' r → R r) : Clean R' s :=
  fun p g r hr => h p g r (hR r hr)

theorem apart (h : Clean Anything s) : Clean Apart s := h.mono fun _ _ => trivial

/-- **Pieces behind one another.** -/
theorem append (ha : Clean R a) (hb : Clean R' b) (hR : ∀ r, R' r → R (b.toList ++ r)) :
    Clean R' (a ++ b) := by
  intro p g r hr
  obtain ⟨ts, q, g', hts, hpieces⟩ := ha p g (b.toList ++ r) (hR r hr)
  obtain ⟨us, q', g'', hus, hpieces'⟩ := hb q g' r hr
  refine ⟨ts ++ us, q', g'', hts.append hus, ?_⟩
  rw [String.toList_append, List.append_assoc, hpieces, hpieces', map_prepend_append]

theorem behind (hb : Clean R b) (ha : Clean Anything a) : Clean R (a ++ b) :=
  ha.append hb fun _ _ => trivial

/-- A piece before one that begins with a sign or a blank. -/
theorem before (ha : Clean Apart a) (hb : Clean R b)
    (hhead : b.toList.head?.any isApart = true) : Clean R (a ++ b) := by
  refine ha.append hb fun r _ c hc => ?_
  cases hchars : b.toList with
  | nil =>
    rw [hchars] at hhead
    cases hhead
  | cons d v =>
    rw [hchars] at hhead hc
    cases hc
    exact hhead

/-- A clean text is cut into tokens whose brackets are well nested. -/
theorem tokenize (h : Clean R s) (hR : R []) :
    ∃ t, SharpScript.tokenize s = .ok t ∧ Balanced t.tokens := by
  obtain ⟨ts, q, g, hts, hpieces⟩ := h .start [] [] hR
  rw [List.append_nil] at hpieces
  refine ⟨_, hpieces, ?_⟩
  show Balanced (ts ++ [])
  rwa [List.append_nil]

end Clean

/-! ## Pieces -/

theorem clean_empty : Clean Anything "" := by
  intro p g r _
  refine ⟨[], p, g, .nil, ?_⟩
  show pieces p g 0 r = (pieces p g 0 r).map (prepend [])
  cases pieces p g 0 r <;> rfl

theorem clean_blanks {s : String} (hs : s.toList.all isBlank = true) : Clean Anything s := by
  have hblanks : ∀ (v : List Char), (∀ c ∈ v, isBlank c = true) →
      ∀ (p : Place) (g r : List Char), pieces p g 0 (v ++ r) =
      pieces (p.after v) (g ++ v) 0 r := by
    intro v
    induction v with
    | nil => simp
    | cons c v ih =>
      intro hv p g r
      rw [List.cons_append, pieces_blank (hv c List.mem_cons_self),
        ih (fun d hd => hv d (List.mem_cons_of_mem c hd))]
      simp
  intro p g r _
  refine ⟨[], p.after s.toList, g ++ s.toList, .nil, ?_⟩
  rw [hblanks _ (List.all_eq_true.mp hs)]
  cases pieces (p.after s.toList) (g ++ s.toList) 0 r <;> rfl

/-- One token that is no bracket. -/
theorem clean_munch {R : List Char → Prop} {s : String} {k : Kind}
    (hmunch : ∀ r, R r → Munch k s.toList r)
    (hsign : ∀ g p, (token k s.toList g p).sign? = none) :
    Clean R s :=
  fun p g r hr => ⟨_, _, [], balanced_single (hsign g p), pieces_munch (hmunch r hr)⟩

/-- A word is clean where it does not go on. -/
theorem clean_word {s : String} (h : IsWordText s) : Clean NonWord s := by
  obtain ⟨c, v, hchars, hc, hv⟩ := h
  have hkind : wordKind s.toList ≠ .operator := by
    unfold wordKind
    split <;> decide
  refine clean_munch (k := wordKind s.toList) (fun r hr => ?_) fun g p =>
    Token.sign?_of_kind hkind
  rw [hchars]
  exact munch_word hc hv hr

/-- Code is clean before what stands apart. -/
theorem clean_code {s : String} (h : IsCodeText s) : Clean Apart s := by
  obtain ⟨ts, hts, hlexed, hbalanced, rfl⟩ := h
  intro p g r hr
  obtain ⟨us, q, hcut, hshift⟩ := hlexed.cut hts p g
  refine ⟨us, q, [], ?_, hcut.pieces_append (.inr ⟨rfl, hr⟩)⟩
  unfold Balanced at hbalanced ⊢
  rwa [← hshift.alike.signs_eq]

/-- A text that is cut in every place is clean before a line end. -/
theorem clean_of_cut {s : String} (h : ∀ p g, ∃ t, Cut p g s.toList t ∧ Balanced t.tokens) :
    Clean LineEnd s := by
  intro p g r hr
  obtain ⟨t, hcut, hbalanced⟩ := h p g
  exact ⟨t.tokens, t.stop, t.gap.toList, hbalanced, hcut.pieces_append (.inl hr)⟩

/-- A comment is clean before a line end. -/
theorem clean_comment {s : String} (h : '\n' ∉ s.toList) : Clean LineEnd ("//" ++ s) := by
  refine clean_of_cut fun p g => ?_
  have hline : lineRest (s.toList ++ []) = s.toList.length :=
    lineRest_append (fun c hc => bne_iff_ne.mpr fun heq => h (heq ▸ hc)) nofun
  have hremark : Remark p.bare ("//" ++ s).toList [] := by
    rw [String.toList_append]
    refine ⟨'/', '/' :: s.toList, rfl, rfl, ?_⟩
    show Except.ok (some (2 + lineRest (s.toList ++ []))) = _
    rw [hline, Nat.add_comm]
    rfl
  have hcut := Cut.remark (g := g) hremark (.nil _ _)
  rw [List.append_nil] at hcut
  exact ⟨_, hcut, .nil⟩

/-- The text between the quotes of a literal that needs no escapes. -/
def IsQuotable (s : String) : Prop :=
  (∃ c ∈ s.toList.head?, c ≠ '"') ∧ ∀ c ∈ s.toList, c ≠ '"' ∧ c ≠ '\\' ∧ c ≠ '\n'

theorem quotedRest_append {v : List Char} (hv : ∀ c ∈ v, c ≠ '"' ∧ c ≠ '\\' ∧ c ≠ '\n')
    (r : List Char) : quotedRest '"' (v ++ '"' :: r) = some (v.length + 1) := by
  induction v with
  | nil => rfl
  | cons c v ih =>
    obtain ⟨hquote, hescape, hline⟩ := hv c List.mem_cons_self
    rw [List.cons_append, quotedRest_cons hescape, if_neg (by simpa using hline),
      if_neg (by simpa using hquote), ih fun d hd => hv d (List.mem_cons_of_mem c hd)]
    rfl

/-- A string literal without escapes. -/
theorem clean_literal {s : String} (h : IsQuotable s) :
    Clean Anything ("\"" ++ s ++ "\"") := by
  obtain ⟨⟨c, hc, hne⟩, hall⟩ := h
  obtain ⟨v, hchars⟩ := List.head?_eq_some_iff.mp hc
  have htext : ("\"" ++ s ++ "\"").toList = '"' :: (s.toList ++ ['"']) := by simp
  refine clean_munch (k := .string) (fun r _ => ?_) fun g p => Token.sign?_of_kind nofun
  rw [htext]
  refine ⟨'"', s.toList ++ ['"'], rfl, fun bare => piece_eq_token_iff.mpr ⟨?_, ?_⟩⟩
  · exact trivia_eq_none_iff.mpr (by simp [isBlank])
  · have hrun : run (· == '"') (s.toList ++ '"' :: r) = 0 := by
      rw [hchars, List.cons_append, run_cons, if_neg (by simpa using hne)]
    have hlength :
        stringLength ('"' :: (s.toList ++ '"' :: r)) = .ok (s.toList.length + 2) := by
      rw [← List.nil_append ('"' :: (s.toList ++ '"' :: r)), stringLength_eq (by simp),
        stringRest, hrun, if_neg (by decide), if_neg (by decide), if_neg (by decide),
        quotedRest_append hall]
      exact congrArg Except.ok (by simp; omega)
    have hstarts : startsString ('"' :: (s.toList ++ '"' :: r)) = true :=
      startsString_iff.mpr ⟨[], _, rfl, by simp, by decide⟩
    rw [List.append_assoc, List.singleton_append, tokenHead, if_pos hstarts, hlength]
    simp [bind, Except.bind, pure, Except.pure]

/-! ## Signs and brackets -/

/-- The characters that are operators and part of no longer one. -/
def loneChars : List Char := ['(', ')', '[', ']', '{', '}', ',', ';']

/-- A bracket, a comma or a semicolon is read alone, whatever follows it. -/
theorem munch_lone {c : Char} (hc : c ∈ loneChars) (r : List Char) :
    Munch .operator [c] r := by
  have hplain :
      (loneChars.all fun c =>
        !(isBlank c || isMark c || Text.isDigit c || isWordStart c ||
          ['/', '#', '"', '\'', '.', '@'].contains c)) = true := by decide +kernel
  have hoperator :
      (loneChars.all fun c => isApart c && operators.contains (String.ofList [c])) = true := by
    decide
  have hc' := List.all_eq_true.mp hplain c hc
  simp only [Bool.not_eq_true', Bool.or_eq_false_iff, List.contains_cons, List.contains_nil,
    beq_eq_false_iff_ne, Bool.or_false] at hc'
  obtain ⟨⟨⟨⟨hblank, hmark⟩, hdigit⟩, hword⟩, hslash, hsharp, hquote, hcharacter,
      hpoint, hat⟩ := hc'
  obtain ⟨hapart, hmem⟩ : isApart c = true ∧ String.ofList [c] ∈ operators := by
    simpa using List.all_eq_true.mp hoperator c hc
  -- A longer operator would have no character that stands apart.
  have hlength : operatorLength? (c :: r) = some 1 := by
    have hpre : (String.ofList [c]).toList <+: c :: r := by simp
    obtain ⟨n, hn⟩ := exists_operatorLength _ hmem hpre
    obtain ⟨op, hop, hhead, rfl, hpos⟩ := operator_of_length hn
    rw [hn, (operators_free op hop).resolve_right fun hfree => ?_]
    obtain ⟨d, u, hd⟩ := List.exists_cons_of_ne_nil hpos
    rw [hd] at hhead
    have hdc := hfree d (by rw [hd]; exact List.mem_cons_self)
    rw [(List.cons_prefix_cons.mp hhead).1, hapart] at hdc
    cases hdc
  refine ⟨c, [], rfl, fun bare => piece_eq_token_iff.mpr ⟨trivia_eq_none_iff.mpr ?_, ?_⟩⟩
  · simp [hblank, Ne.symm hslash, hsharp]
  · have hstring : startsString (c :: r) = false := by
      simp [startsString, hmark, hquote]
    have hnumber : startsNumber (c :: r) = false := by
      rw [startsNumber.eq_2 _ fun _ h => hpoint (List.cons.inj h).1]
      exact hdigit
    simp [tokenHead, hstring, hcharacter, hnumber, wordOrOperator, hword, hat, hlength]

/-- A comma or a semicolon. -/
theorem clean_sign {s : String} (hs : s ∈ [",", ";"]) : Clean Anything s := by
  simp only [List.mem_cons, List.not_mem_nil, or_false] at hs
  rcases hs with rfl | rfl
  · exact clean_munch (fun r _ => munch_lone (c := ',') (by decide) r) fun g p => rfl
  · exact clean_munch (fun r _ => munch_lone (c := ';') (by decide) r) fun g p => rfl

/-- Brackets around a piece. -/
theorem clean_group (b : Bracket) {s : String} (h : Clean Apart s) :
    Clean Anything (b.opening ++ s ++ b.closing) := by
  obtain ⟨c, d, hopening, hclosing, hc, hd, hapart⟩ : ∃ c d, b.opening.toList = [c] ∧
      b.closing.toList = [d] ∧ c ∈ loneChars ∧ d ∈ loneChars ∧ isApart d = true := by
    cases b
    · exact ⟨'(', ')', rfl, rfl, by decide⟩
    · exact ⟨'[', ']', rfl, rfl, by decide⟩
    · exact ⟨'{', '}', rfl, rfl, by decide⟩
  have hsigns : ∀ g p, (token .operator [c] g p).sign? = some (.opening b) ∧
      (token .operator [d] g p).sign? = some (.closing b) := by
    cases b <;> obtain rfl := List.singleton_inj.mp hopening <;>
      obtain rfl := List.singleton_inj.mp hclosing <;> exact fun g p => ⟨rfl, rfl⟩
  intro p g r _
  obtain ⟨ts, q, g', hts, hpieces⟩ := h (p.after [c]) [] ([d] ++ r) (apart_cons.mpr hapart)
  refine ⟨token .operator [c] g p :: (ts ++ [token .operator [d] g' q]),
    q.after [d], [], ?_, ?_⟩
  · unfold Balanced
    rw [signs_cons, (hsigns g p).1, signs_append, signs_cons, (hsigns g' q).2]
    exact .nest b hts .nil
  · rw [String.toList_append, String.toList_append, hopening, hclosing, List.append_assoc,
      List.append_assoc, pieces_munch (munch_lone hc _), hpieces,
      pieces_munch (munch_lone hd _), map_prepend_append, map_prepend_append]
    rfl

/-- A piece before brackets around another one. -/
theorem Clean.before_group {a s : String} (ha : Clean Apart a) (b : Bracket)
    (hs : Clean Apart s) :
    Clean Anything (a ++ (b.opening ++ s ++ b.closing)) := by
  refine ha.before (clean_group b hs) ?_
  rw [String.toList_append, String.toList_append]
  cases b <;> rfl

/-- A piece on a line. -/
theorem Clean.line {s : String} (h : Clean LineEnd s) : Clean Anything (s ++ "\n") :=
  h.append (clean_blanks (by decide)) fun r _ c hc => (Option.some.inj hc).symm

/-- Pieces with commas between them. -/
theorem clean_joined {ss : List String} (h : ∀ s ∈ ss, Clean Apart s) :
    Clean Apart (", ".intercalate ss) := by
  have hcomma : Clean Anything ("," ++ " ") :=
    (clean_blanks (by decide)).behind (clean_sign (by decide))
  induction ss with
  | nil => exact clean_empty.apart
  | cons s ss ih =>
    cases ss with
    | nil => simpa using h s List.mem_cons_self
    | cons s' ss =>
      rw [String.intercalate_cons_cons]
      refine (ih fun t ht => h t (List.mem_cons_of_mem s ht)).behind ?_
      exact (h s List.mem_cons_self).before hcomma (by decide)

end SharpScript
