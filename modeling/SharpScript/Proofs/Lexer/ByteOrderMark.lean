import SharpScript.Proofs.Lexer.LineBreaks

/-! # The byte-order mark

A byte-order mark before a text is a blank, so it moves what stands on the first line by a
column and all else by a character.  It also stands on the first line, and a line with more
than spaces and tabs before a `#` has no directive.  A text that opens with a directive can
therefore not be read behind the mark; every other text is read as it is without it.

## Main Definitions

* `Place.behindMark`: the place of a character when a mark is put before the text;
* `opensWithDirective`: whether a directive is the first thing in a text.

## Main Results

* `relocates_behindMark`: behind a mark a text is cut alike, unless it opens with a directive;
* `tokenize_mark`: **a byte-order mark is transparent, but for a directive on the first line**.
-/

namespace SharpScript

/-- The place of a character when a byte-order mark is put before the text: a character further
on, and on the first line a column further on.  The first line is bare no longer. -/
def Place.behindMark (p : Place) : Place where
  offset := p.offset + 1
  line := p.line
  col := if p.line = 1 then p.col + 1 else p.col
  bare := p.bare && p.line != 1

namespace Lexer

/-- A space or a tab. -/
def isIndent (c : Char) : Bool := c == ' ' || c == '\t'

/-- Whether `#` comes next, behind spaces and tabs. -/
def sharpNext (cs : List Char) : Bool := (cs.dropWhile isIndent).head? == some '#'

end Lexer

/-- Whether a directive is the first thing in a text. -/
def opensWithDirective (s : String) : Bool := Lexer.sharpNext s.toList

open Lexer

/-! ## Places -/

theorem Place.step_behindMark {p : Place} (hp : 1 ≤ p.line) (c : Char) :
    p.behindMark.step c = (p.step c).behindMark := by
  simp only [Place.step, Place.behindMark, Place.mk.injEq, true_and]
  by_cases hc : c = '\n'
  · have hline : p.line ≠ 0 := by omega
    simp [hc, hline]
  · by_cases hline : p.line = 1 <;>
      simp [beq_eq_false_iff_ne.mpr hc, hline, Bool.and_right_comm]

theorem Place.line_le_after (p : Place) (cs : List Char) : p.line ≤ (p.after cs).line := by
  rw [Place.line_after]
  exact Nat.le_add_right _ _

theorem Place.after_behindMark {p : Place} (hp : 1 ≤ p.line) (cs : List Char) :
    p.behindMark.after cs = (p.after cs).behindMark := by
  induction cs generalizing p with
  | nil => rfl
  | cons c cs ih =>
    have hstep : 1 ≤ (p.step c).line := Nat.le_trans hp (p.line_le_after [c])
    rw [Place.after_cons, Place.after_cons, Place.step_behindMark hp, ih hstep]

/-- Where the first line is still bare, it has been so from the start, and only spaces
and tabs have been read. -/
theorem Place.indented_of_bare {p : Place} (hp : 1 ≤ p.line) {cs : List Char}
    (hline : (p.after cs).line = 1) (hbare : (p.after cs).bare = true) :
    p.line = 1 ∧ p.bare = true ∧ ∀ c ∈ cs, isIndent c = true := by
  induction cs generalizing p with
  | nil => exact ⟨hline, hbare, nofun⟩
  | cons c cs ih =>
    have hstep : 1 ≤ (p.step c).line := Nat.le_trans hp (p.line_le_after [c])
    obtain ⟨hline', hbare', hcs⟩ := ih hstep hline hbare
    have hc : c ≠ '\n' := by
      rintro rfl
      simp only [Place.step, beq_self_eq_true, if_true] at hline'
      omega
    simp only [Place.step, beq_eq_false_iff_ne.mpr hc, Bool.false_or, Bool.and_eq_true]
      at hline' hbare'
    refine ⟨hline', hbare'.1, fun d hd => ?_⟩
    rcases List.mem_cons.mp hd with rfl | hd
    · simpa [isIndent] using hbare'.2
    · exact hcs d hd

namespace Lexer

/-! ## Pieces -/

/-- Whether its line is bare matters to a `#` alone. -/
theorem piece_of_ne_sharp {c : Char} (hc : c ≠ '#') (bare bare' : Bool) (cs : List Char) :
    piece bare c cs = piece bare' c cs := by
  have hsharp : ∀ b, (c == '#' && b) = false := by simp [hc]
  have htrivia : trivia bare (c :: cs) = trivia bare' (c :: cs) := by
    unfold trivia
    split <;> simp_all
  rw [piece_eq, piece_eq, htrivia]

theorem piece_sharp (cs : List Char) :
    piece false '#' cs = .error ⟨0, .unexpectedCharacter '#'⟩ := rfl

theorem pieces_blanks {v : List Char} (hv : ∀ c ∈ v, isBlank c = true) (p : Place)
    (g cs : List Char) : pieces p g 0 (v ++ cs) = pieces (p.after v) (g ++ v) 0 cs := by
  induction v generalizing p g with
  | nil => simp
  | cons c v ih =>
    rw [List.cons_append, pieces_blank (hv c List.mem_cons_self),
      ih fun d hd => hv d (List.mem_cons_of_mem c hd)]
    simp

/-- Behind a mark a text is cut alike, as long as no directive stands on the first line. -/
theorem relocates_behindMark : Relocates Place.behindMark 1 fun p cs =>
    1 ≤ p.line ∧ (p.line = 1 → p.bare = true → sharpNext cs = false) where
  after {p w r} h := by
    refine ⟨Place.after_behindMark h.1 w, Nat.le_trans h.1 (p.line_le_after w),
      fun hline hbare => ?_⟩
    obtain ⟨hline', hbare', hw⟩ := Place.indented_of_bare h.1 hline hbare
    have hsharp := h.2 hline' hbare'
    rwa [sharpNext, List.dropWhile_append_of_pos hw] at hsharp
  offset _ := rfl
  piece {p c cs} h := by
    by_cases hfirst : p.line = 1 ∧ p.bare = true
    · refine piece_of_ne_sharp ?_ _ _ cs
      rintro rfl
      exact absurd (h.2 hfirst.1 hfirst.2) (by simp [sharpNext, isIndent])
    · have hbare : p.behindMark.bare = p.bare := by
        cases hb : p.bare <;> simp_all [Place.behindMark]
      rw [hbare]

end Lexer

/-! ## Source texts -/

/-- What is known of two texts when the rows and the fault of one are told
from those of the other. -/
theorem listing_outcome {e e' : Except Fault Tokenized} {F : List TokenRow → List TokenRow}
    {G : Fault → Fault}
    (h : Tokenized.listing e' = ((Tokenized.listing e).map F).mapError G) :
    ((∃ t', e' = .ok t') ↔ ∃ t, e = .ok t) ∧
      (∀ t t', e = .ok t → e' = .ok t' → t'.rows = F t.rows) ∧
      ∀ f f', e = .error f → e' = .error f' → f' = G f := by
  cases e with
  | ok t =>
    cases e' with
    | error f => cases h
    | ok t' =>
      refine ⟨by simp, ?_, nofun⟩
      rintro _ _ ⟨⟩ ⟨⟩
      exact Except.ok.inj h
  | error f =>
    cases e' with
    | ok t' => cases h
    | error f' =>
      refine ⟨by simp, nofun, ?_⟩
      rintro _ _ ⟨⟩ ⟨⟩
      exact Except.error.inj h

theorem tokenize_mark_eq (s : String) :
    tokenize ("\ufeff" ++ s) = pieces Place.start.behindMark ['\ufeff'] 0 s.toList := by
  have hchars : ("\ufeff" ++ s).toList = '\ufeff' :: s.toList := by simp
  rw [tokenize, hchars, pieces_blank rfl]
  rfl

/-- Spaces and tabs do not end a line. -/
theorem line_after_indent (s : String) :
    (Place.start.after (s.toList.takeWhile isIndent)).line = 1 := by
  have hcount : (s.toList.takeWhile isIndent).count '\n' = 0 := by
    refine List.count_eq_zero.mpr fun h => ?_
    exact absurd (List.mem_takeWhile_imp h) (by decide)
  rw [Place.line_after, hcount]
  rfl

/-- The `#` that a text opens with is no token, and behind a mark it starts no directive. -/
theorem tokenize_mark_of_directive {s : String} (h : opensWithDirective s = true) :
    tokenize ("\ufeff" ++ s) = .error ⟨.unexpectedCharacter '#',
      (Place.start.after (s.toList.takeWhile isIndent)).behindMark⟩ := by
  have hblank : ∀ c ∈ s.toList.takeWhile isIndent, isBlank c = true := by
    intro c hc
    have hindent := List.mem_takeWhile_imp hc
    rcases Bool.or_eq_true _ _ ▸ hindent with hc | hc <;> simp [isBlank, hc]
  obtain ⟨r, hr⟩ := List.head?_eq_some_iff.mp (beq_iff_eq.mp h)
  have hsplit : s.toList = s.toList.takeWhile isIndent ++ '#' :: r := by
    rw [← hr, List.takeWhile_append_dropWhile]
  have hbare : (Place.start.after (s.toList.takeWhile isIndent)).behindMark.bare = false := by
    simp [Place.behindMark, line_after_indent]
  rw [tokenize_mark_eq, hsplit, pieces_blanks hblank, Place.after_behindMark (Nat.le_refl 1),
    pieces, hbare, piece_sharp, ← hsplit]
  rfl

/-- **A byte-order mark is transparent, but for a directive on the first line.**  If a text
does not open with a directive, it is cut behind a mark just when it is without one.  Its rows
and its fault are then the same, a character further on, and those of the first line a column
further on.  A text that opens with a directive is never cut behind a mark. -/
theorem tokenize_mark (s : String) :
    (opensWithDirective s = false →
      ((∃ t', tokenize ("\ufeff" ++ s) = .ok t') ↔ ∃ t, tokenize s = .ok t) ∧
      (∀ t t', tokenize s = .ok t → tokenize ("\ufeff" ++ s) = .ok t' →
        t'.rows = t.rows.map fun r =>
          { label := r.label
            text := r.text
            place := r.place.behindMark
            stop := r.stop + 1 }) ∧
      (∀ f f', tokenize s = .error f → tokenize ("\ufeff" ++ s) = .error f' →
        f'.flaw = f.flaw ∧ f'.place = f.place.behindMark)) ∧
    (opensWithDirective s = true →
      ∃ f, tokenize ("\ufeff" ++ s) = .error f ∧ f.flaw = .unexpectedCharacter '#' ∧
        f.place.line = 1) := by
  constructor
  · intro h
    have hrows : Tokenized.listing (tokenize ("\ufeff" ++ s)) =
        ((Tokenized.listing (tokenize s)).map
          (List.map (TokenRow.relocated Place.behindMark 1))).mapError (Fault.relocated
          Place.behindMark) := by
      rw [tokenize_mark_eq, tokenize]
      exact rows_pieces_relocated relocates_behindMark [] ['\ufeff']
        ⟨Nat.le_refl 1, fun _ _ => h⟩
    obtain ⟨hiff, hok, herror⟩ := listing_outcome hrows
    refine ⟨hiff, hok, fun f f' hf hf' => ?_⟩
    obtain rfl := herror f f' hf hf'
    exact ⟨rfl, rfl⟩
  · intro h
    exact ⟨_, tokenize_mark_of_directive h, rfl, line_after_indent s⟩

/-- A directive on the second line, behind a mark on the first. -/
theorem tokenize_mark_secondLine :
    let s := "x\n#if\ny"
    opensWithDirective s = false ∧ ∃ t t', tokenize s = .ok t ∧
      tokenize ("\ufeff" ++ s) = .ok t' ∧ t'.rows = t.rows.map fun r =>
        { label := r.label
          text := r.text
          place := r.place.behindMark
          stop := r.stop + 1 } := by
  have hs : opensWithDirective "x\n#if\ny" = false := by decide +kernel
  obtain ⟨hiff, hrows, -⟩ := (tokenize_mark "x\n#if\ny").1 hs
  obtain ⟨t, ht⟩ : ∃ t, tokenize "x\n#if\ny" = .ok t := ⟨_, rfl⟩
  obtain ⟨t', ht'⟩ := hiff.mpr ⟨t, ht⟩
  exact ⟨hs, t, t', ht, ht', hrows t t' ht ht'⟩

/-- A directive that is read alone and not behind a mark. -/
theorem tokenize_mark_region :
    (∃ t, tokenize "#region\n" = .ok t) ∧ ∃ f, tokenize ("\ufeff" ++ "#region\n") = .error f ∧
      f.flaw = .unexpectedCharacter '#' ∧ f.place.pos = ⟨1, 2⟩ :=
  ⟨⟨_, rfl⟩, _, rfl, rfl, rfl⟩

end SharpScript
