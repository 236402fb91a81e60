import Mathlib.Data.List.Induction
import SharpScript.Proofs.Lexer.Slice
import SharpScript.Token.Display

/-! # Where the tokens of a text stand

The rows that a text is listed in are stretches of the text itself, in order and apart from one
another, and what stands between them is trivia.  What trivia is, is said here in terms of the
text alone and not of the lexer.

## Main Definitions

* `slice`: the characters between two offsets;
* `TriviaPiece`, `TriviaRun`: a blank, a comment or a directive between two
  texts, and any number of them;
* `Lossless`: the tokens and the trivia of a text from an offset on.

## Main Results

* `Cut.lossless`: what is cut is lossless;
* `tokenize_lossless`: **no character of a text is lost, and none is in two tokens**.
-/

namespace SharpScript

namespace Lexer

/-- The characters of `cs` from the offset `i` up to the offset `j`. -/
def slice (cs : List Char) (i j : Nat) : List Char := (cs.take j).drop i

theorem slice_append (a w b : List Char) :
    slice (a ++ (w ++ b)) a.length (a.length + w.length) = w := by
  rw [slice, ← List.append_assoc, ← List.length_append, List.take_left, List.drop_left]

/-! ## Trivia -/

/-- Behind the last line end of `before`, only spaces and tabs stand. -/
def BareLine (before : List Char) : Prop :=
  ∃ a b, before = a ++ b ∧ (a = [] ∨ a.getLast? = some '\n') ∧ ∀ c ∈ b, c = ' ' ∨ c = '\t'

/-- A blank, a comment or a directive, between the texts `before` and `after`. -/
inductive TriviaPiece (before after : List Char) : List Char → Prop
  | blank {c : Char} (hc : c ∈ [' ', '\t', '\r', '\n', '\ufeff']) :
      TriviaPiece before after [c]
  | lineComment {v : List Char} (hv : '\n' ∉ v) (hafter : LineEnd after) :
      TriviaPiece before after ('/' :: '/' :: v)
  | blockComment {v : List Char} (hv : ¬ ['*', '/'] <:+: v ++ ['*']) :
      TriviaPiece before after ('/' :: '*' :: (v ++ ['*', '/']))
  | directive {v : List Char} (hbefore : BareLine before) (hv : '\n' ∉ v)
      (hafter : LineEnd after) :
      TriviaPiece before after ('#' :: v)

/-- Nothing but trivia, between the texts `before` and `after`. -/
inductive TriviaRun (before : List Char) : List Char → List Char → Prop
  | nil (after : List Char) : TriviaRun before [] after
  | snoc {g w after : List Char} (h : TriviaRun before g (w ++ after))
      (hw : TriviaPiece (before ++ g) after w) : TriviaRun before (g ++ w) after

/-- The line of a place is bare if it is bare in the text before the place. -/
theorem bare_after_start_iff (cs : List Char) :
    (Place.start.after cs).bare = true ↔ BareLine cs := by
  induction cs using List.reverseRecOn with
  | nil => exact ⟨fun _ => ⟨[], [], rfl, .inl rfl, by simp⟩, fun _ => rfl⟩
  | append_singleton cs c ih =>
    have hstep : (Place.start.after (cs ++ [c])).bare = true ↔
        c = '\n' ∨ BareLine cs ∧ (c = ' ' ∨ c = '\t') := by
      rw [Place.after_append, ← ih]
      simp [Place.step]
    rw [hstep]
    constructor
    · rintro (rfl | ⟨⟨a, b, rfl, ha, hb⟩, hc⟩)
      · exact ⟨cs ++ ['\n'], [], by simp, .inr (by simp), by simp⟩
      · refine ⟨a, b ++ [c], by simp, ha, fun d hd => ?_⟩
        rcases List.mem_append.mp hd with hd | hd
        · exact hb d hd
        · rwa [List.mem_singleton.mp hd]
    · rintro ⟨a, b, heq, ha, hb⟩
      rcases List.eq_nil_or_concat b with rfl | ⟨b, d, rfl⟩
      · obtain rfl : a = cs ++ [c] := by simpa using heq.symm
        exact .inl (by simpa using ha)
      · rw [List.concat_eq_append, ← List.append_assoc] at heq
        obtain ⟨rfl, hcd⟩ := List.append_inj' heq rfl
        obtain rfl : c = d := by simpa using hcd
        exact .inr ⟨⟨a, b, rfl, ha, fun d hd => hb d (by simp [hd])⟩, hb c (by simp)⟩

/-- A block comment ends where `*/` comes first. -/
theorem commentRest_eq_length {v r : List Char} (h : commentRest (v ++ r) = some v.length) :
    ∃ u, v = u ++ ['*', '/'] ∧ ¬ ['*', '/'] <:+: u ++ ['*'] := by
  induction v with
  | nil =>
    have := commentRest_pos h
    simp at this
  | cons c v ih =>
    by_cases hend : c = '*' ∧ ∃ x, v ++ r = '/' :: x
    · obtain ⟨rfl, x, hx⟩ := hend
      rw [List.cons_append, hx] at h
      have hlen : v.length = 1 := by
        have : 2 = v.length + 1 := Option.some.inj h
        omega
      obtain ⟨d, rfl⟩ := List.length_eq_one_iff.mp hlen
      obtain ⟨rfl, -⟩ := List.cons.inj hx
      refine ⟨[], rfl, fun hinfix => ?_⟩
      simpa using hinfix.length_le
    · rw [List.cons_append, commentRest.eq_3 _ _ fun x hc hx => hend ⟨hc, x, hx⟩] at h
      obtain ⟨n, hn, hlen⟩ := Option.map_eq_some_iff.mp h
      obtain rfl : n = v.length := by simpa using hlen
      obtain ⟨u, rfl, hu⟩ := ih hn
      refine ⟨c :: u, rfl, fun hinfix => ?_⟩
      rcases List.infix_cons_iff.mp hinfix with hpre | hinfix
      · -- The sign at the head would have ended the comment.
        obtain ⟨hc, hpre⟩ := List.cons_prefix_cons.mp hpre
        cases u with
        | nil => simp at hpre
        | cons d u =>
          obtain ⟨hd, -⟩ := List.cons_prefix_cons.mp hpre
          exact hend ⟨hc.symm, u ++ ['*', '/'] ++ r, by rw [← hd]; rfl⟩
      · exact hu hinfix

/-- What the lexer takes for a comment or a directive is one. -/
theorem Remark.triviaPiece {bare : Bool} {w r before : List Char} (h : Remark bare w r)
    (hbare : bare = true → BareLine before) : TriviaPiece before r w := by
  obtain ⟨c, v, rfl, hblank, htrivia⟩ := h
  have hline : ∀ {v : List Char}, lineRest (v ++ r) = v.length → '\n' ∉ v ∧ LineEnd r := by
    intro v hv
    obtain ⟨hall, hend⟩ := lineEnd_of_lineRest_eq hv
    exact ⟨fun hmem => by simpa using hall _ hmem, hend⟩
  unfold trivia at htrivia
  split at htrivia
  · rename_i heq
    cases heq
  · rename_i cs heq
    obtain ⟨rfl, hcs⟩ := List.cons.inj heq
    simp only [Except.ok.injEq, Option.some.injEq, List.length_cons] at htrivia
    cases v with
    | nil => simp at htrivia; omega
    | cons d v =>
      obtain ⟨rfl, rfl⟩ := List.cons.inj hcs
      obtain ⟨hv, hr⟩ := hline (v := v) (by simp at htrivia; omega)
      exact .lineComment hv hr
  · rename_i cs heq
    obtain ⟨rfl, hcs⟩ := List.cons.inj heq
    split at htrivia
    · rename_i n hn
      simp only [Except.ok.injEq, Option.some.injEq, List.length_cons] at htrivia
      cases v with
      | nil => simp at htrivia; omega
      | cons d v =>
        obtain ⟨rfl, rfl⟩ := List.cons.inj hcs
        obtain rfl : n = v.length := by simp at htrivia; omega
        obtain ⟨u, rfl, hu⟩ := commentRest_eq_length hn
        exact .blockComment hu
    · cases htrivia
  · rename_i heq
    obtain ⟨rfl, rfl⟩ := List.cons.inj heq
    rw [if_neg (by simp [hblank])] at htrivia
    split at htrivia
    · rename_i hsharp
      obtain ⟨hc, hb⟩ := Bool.and_eq_true_iff.mp hsharp
      simp only [Except.ok.injEq, Option.some.injEq, List.length_cons] at htrivia
      obtain ⟨hv, hr⟩ := hline (v := v) (by omega)
      rw [beq_iff_eq.mp hc]
      exact .directive (hbare hb) hv hr
    · cases htrivia

/-! ## Spans -/

/-- Where the text of a row starts: an identifier that is written with `@`
has its text behind it. -/
def textStart (cs : List Char) (r : TokenRow) : Nat :=
  if r.label = "IDENT" ∧ cs[r.place.offset]? = some '@' then r.place.offset + 1
    else r.place.offset

/-- A row for some characters of `cs`. -/
structure Spans (cs : List Char) (r : TokenRow) : Prop where
  nonempty : r.place.offset < r.stop
  within : r.stop ≤ cs.length
  text : r.text.toList = slice cs (textStart cs r) r.stop

/-- Only trivia stands in `cs` from the offset `i` up to the offset `j`. -/
def TriviaBetween (cs : List Char) (i j : Nat) : Prop :=
  i ≤ j ∧ TriviaRun (cs.take i) (slice cs i j) (cs.drop j)

/-- The stretches between rows, the first of which starts at the offset `i`. -/
def gapsFrom (i : Nat) (rows : List TokenRow) : List (Nat × Nat) :=
  (i :: rows.map TokenRow.stop).zip (rows.map (·.place.offset))

theorem gapsFrom_cons (i : Nat) (r : TokenRow) (rows : List TokenRow) :
    gapsFrom i (r :: rows) = (i, r.place.offset) :: gapsFrom r.stop rows := rfl

/-- The tokens of the text `cs` from the offset `i` on, none of whose characters is lost. -/
structure Lossless (cs : List Char) (i : Nat) (t : Tokenized) : Prop where
  spans : ∀ u ∈ t.tokens, Spans cs u.row
  behind : ∀ u ∈ t.tokens, i ≤ u.place.offset
  ordered : t.tokens.Pairwise fun u v => u.stop ≤ v.place.offset
  finish : t.stop.offset = cs.length
  gaps : ∀ g ∈ gapsFrom i t.rows, TriviaBetween cs g.1 g.2

theorem triviaBetween_append {a g b : List Char} (h : TriviaRun a g b) :
    TriviaBetween (a ++ (g ++ b)) a.length (a.length + g.length) := by
  refine ⟨Nat.le_add_right _ _, ?_⟩
  rw [slice_append, List.take_left, ← List.append_assoc, ← List.length_append, List.drop_left]
  exact h

theorem stop_token {k : Kind} {w : List Char} (h : Shape k w) (g : List Char) (p : Place) :
    (token k w g p).stop = p.offset + w.length := by
  rw [Token.stop, lexeme_token h, String.length_ofList]
  rfl

/-- The row of a lexeme is made of its characters. -/
theorem Munch.spans {k : Kind} {w r : List Char} (h : Munch k w r) (a g : List Char)
    {p : Place} (hp : p.offset = a.length) : Spans (a ++ (w ++ r)) (token k w g p).row := by
  have hstop : (token k w g p).row.stop = a.length + w.length := by
    rw [← hp]
    exact stop_token h.shape g p
  have hstart : (token k w g p).row.place.offset = a.length := hp
  have hpos := List.length_pos_of_ne_nil h.ne_nil
  have hhead : (a ++ (w ++ r))[a.length]? = w.head? := by
    rw [List.getElem?_append_right (Nat.le_refl _), Nat.sub_self,
      List.getElem?_append_left hpos, List.head?_eq_getElem?]
  refine ⟨by omega, by simp [hstop], ?_⟩
  rw [textStart, hstop, hstart, hhead]
  have hlexeme := lexeme_token h.shape g p
  by_cases hk : k = .identifier true
  · subst hk
    have hw : w = '@' :: w.drop 1 := by
      have := congrArg String.toList hlexeme
      simpa [Token.lexeme, token] using this.symm
    rw [if_pos ⟨rfl, by rw [hw]; rfl⟩]
    have hdrop := slice_append (a ++ ['@']) (w.drop 1) r
    have hlen : (a ++ ['@']).length + (w.drop 1).length = a.length + w.length := by
      simp
      omega
    rw [hlen, List.append_assoc, ← List.append_assoc ['@'], List.singleton_append, ← hw,
      List.length_append, List.length_singleton] at hdrop
    rw [hdrop]
    simp [token, Token.row]
  · have htext : (token k w g p).row.text.toList = w := by simp [token, Token.row, hk]
    rw [if_neg, slice_append, htext]
    rintro ⟨hlabel, hat⟩
    have hshaped := wellShaped_token h.shape g p
    cases k with
    | identifier b =>
      rw [← String.toList_ofList (l := w), ← hlexeme, hshaped.lexeme_head rfl] at hat
      exact hk (congrArg Kind.identifier hat)
    | keyword =>
      have hmem := hshaped.label_mem rfl
      rw [show (token .keyword w g p).label = "IDENT" from hlabel] at hmem
      revert hmem
      decide
    | _ => simp [Token.row, Token.label, token] at hlabel

theorem offset_start {p : Place} {before g : List Char}
    (hp : p = Place.start.after (before ++ g)) : p.offset = before.length + g.length := by
  rw [hp, Place.offset_after, List.length_append]
  exact Nat.zero_add _

/-- **What is cut is lossless.** -/
theorem Cut.lossless {p : Place} {g cs : List Char} {t : Tokenized} (h : Cut p g cs t)
    (before : List Char) (hp : p = Place.start.after (before ++ g))
    (hg : TriviaRun before g cs) :
    Lossless (before ++ (g ++ cs)) before.length t := by
  induction h generalizing before with
  | nil p g =>
    refine ⟨by simp, by simp, .nil, by simp [offset_start hp], fun q hq => ?_⟩
    obtain rfl : q = (before.length, before.length + g.length) := by
      simpa [gapsFrom, Tokenized.rows, TokenRow.finish, offset_start hp] using hq
    exact triviaBetween_append hg
  | @blank p g c cs t hc _ ih =>
    have hmem : c ∈ [' ', '\t', '\r', '\n', '\ufeff'] := by simpa [isBlank, or_assoc] using hc
    have := ih before (by simp [hp, Place.after_append])
      (.snoc hg (.blank hmem))
    simpa using this
  | @remark p g w r t hw _ ih =>
    have := ih before (by rw [hp, ← List.append_assoc, ← Place.after_append])
      (.snoc hg (hw.triviaPiece fun hb => (bare_after_start_iff _).mp (hp ▸ hb)))
    simpa using this
  | @token p g w r t k hw h ih =>
    have hrest := ih (before ++ g ++ w) (by simp [hp, Place.after_append])
      (.nil r)
    have hwhole : before ++ g ++ w ++ ([] ++ r) = before ++ (g ++ (w ++ r)) := by simp
    rw [hwhole] at hrest
    have hspan :=
      hw.spans (before ++ g) g (p := p) (by rw [offset_start hp, List.length_append])
    have hstop : (Lexer.token k w g p).stop = (before ++ g ++ w).length := by
      rw [stop_token hw.shape, offset_start hp, List.length_append, List.length_append]
    refine ⟨?_, ?_, ?_, hrest.finish, ?_⟩
    · rintro u (_ | ⟨_, hu⟩)
      · simpa using hspan
      · exact hrest.spans u hu
    · rintro u (_ | ⟨_, hu⟩)
      · show before.length ≤ p.offset
        rw [offset_start hp]
        omega
      · have := hrest.behind u hu
        simp only [List.length_append] at this
        omega
    · exact .cons (fun v hv => by rw [hstop]; exact hrest.behind v hv) hrest.ordered
    · intro q hq
      have hrows :
          (prepend [Lexer.token k w g p] t).rows = (Lexer.token k w g p).row :: t.rows := rfl
      rw [hrows, gapsFrom_cons] at hq
      rcases List.mem_cons.mp hq with rfl | hq
      · show TriviaBetween _ before.length p.offset
        rw [offset_start hp]
        exact triviaBetween_append hg
      · rw [show (Lexer.token k w g p).row.stop = _ from hstop] at hq
        exact hrest.gaps q hq

end Lexer

open Lexer

theorem lossless_of_tokenize {s : String} {t : Tokenized} (h : tokenize s = .ok t) :
    Lossless s.toList 0 t :=
  (cut_of_pieces_eq h).lossless [] rfl (.nil _)

/-- A token is never listed as the end of a text. -/
theorem Lexer.WellShaped.label_ne_eof {u : Token} (h : WellShaped u) : u.label ≠ "EOF" := by
  cases hk : u.kind with
  | keyword =>
    intro hlabel
    have := h.label_mem hk
    rw [hlabel] at this
    revert this
    decide
  | _ => simp [Token.label, hk]

/-- **No character of a text is lost, and none is in two tokens.**  The rows of a text are
stretches of it, in order and apart from one another, and the last one is the end of the text.
Only trivia stands before, between and behind the tokens. -/
theorem tokenize_lossless {s : String} {t : Tokenized} (h : tokenize s = .ok t) :
    ∃ rows p, t.rows = rows ++ [⟨"EOF", "", p, s.length⟩] ∧ p.offset = s.length ∧
      (∀ r ∈ rows, r.label ≠ "EOF" ∧ Spans s.toList r) ∧
      rows.Pairwise (fun r r' => r.stop ≤ r'.place.offset) ∧
      ∀ g ∈ gapsFrom 0 t.rows, TriviaBetween s.toList g.1 g.2 := by
  have hlossless := lossless_of_tokenize h
  have hfinish : t.stop.offset = s.length := hlossless.finish.trans String.length_toList
  refine ⟨t.tokens.map Token.row, t.stop, ?_, hfinish, ?_, ?_, hlossless.gaps⟩
  · rw [Tokenized.rows, TokenRow.finish, hfinish]
  · intro r hr
    obtain ⟨u, hu, rfl⟩ := List.mem_map.mp hr
    exact ⟨((lexed_of_tokenize h).wellShaped u hu).label_ne_eof, hlossless.spans u hu⟩
  · exact List.pairwise_map.mpr hlossless.ordered

theorem tokenize_lossless_remarks :
    ∃ t, tokenize " #if A\n/* * // */@class x;// y" = .ok t ∧
      t.rows.map TokenRow.text = ["class", "x", ";", ""] ∧
      ∃ rows p, t.rows = rows ++ [⟨"EOF", "", p, 30⟩] ∧ p.offset = 30 ∧
        (∀ r ∈ rows, r.label ≠ "EOF" ∧ Spans " #if A\n/* * // */@class x;// y".toList r) ∧
        rows.Pairwise (fun r r' => r.stop ≤ r'.place.offset) ∧
        ∀ g ∈ gapsFrom 0 t.rows,
        TriviaBetween " #if A\n/* * // */@class x;// y".toList g.1 g.2 :=
  ⟨_, rfl, rfl, tokenize_lossless (s := " #if A\n/* * // */@class x;// y") rfl⟩

end SharpScript
