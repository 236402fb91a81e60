import Mathlib.Data.List.Induction
import SharpScript.Proofs.Lexer.InterpolatedStrings
import SharpScript.Proofs.Lexer.LineBreaks

/-! # Lines and columns

A place is carried along while a text is cut, and its line and column are counted on
character by character.  They are those that can be counted in the text itself, for every
token, for the end of the text and for a fault.  A fault is reported where the text has
what the fault is about.

## Main Definitions

* `lineColumn`: the line and column of an offset, counted in the text before it;
* `Flaw.OpensAt`: what a text begins with where a flaw is reported.

## Main Results

* `Place.pos_after_start`: counting character by character is counting in the text;
* `Lexer.Cut.place_eq`: a token starts behind the characters before its lexeme;
* `Lexer.piece_eq_error`, `Lexer.pieces_eq_error`: where the fault of a piece
  and of a text is reported;
* `tokenize_lineColumn`: **the lines and columns of tokens and faults are right**.
-/

namespace SharpScript

/-! ## Counting -/

/-- The line and column of the offset `n`.  The line is one more than the line ends before the
offset, and the column one more than the characters behind the last of them. -/
def lineColumn (s : String) (n : Nat) : Pos where
  line := 1 + (s.toList.take n).count '\n'
  col := 1 + ((s.toList.take n).reverse.takeWhile (· != '\n')).length

theorem Place.col_after_start (cs : List Char) :
    (Place.start.after cs).col = 1 + (cs.reverse.takeWhile (· != '\n')).length := by
  induction cs using List.reverseRecOn with
  | nil => rfl
  | append_singleton cs c ih =>
    have hstep : (Place.start.after (cs ++ [c])).col =
        if c == '\n' then 1 else (Place.start.after cs).col + 1 := by
      rw [Place.after_append]
      rfl
    rw [hstep, List.reverse_concat, ih]
    by_cases hc : c = '\n'
    · simp [hc]
    · simp [hc]
      omega

theorem Place.offset_start (cs : List Char) : (Place.start.after cs).offset = cs.length := by
  rw [Place.offset_after]
  exact Nat.zero_add _

/-- The place behind the characters `cs` has the line and the column
that are counted in them. -/
theorem Place.pos_after_start {s : String} {cs r : List Char} (h : s.toList = cs ++ r) :
    (Place.start.after cs).pos = lineColumn s (Place.start.after cs).offset := by
  have htake : s.toList.take cs.length = cs := by rw [h, List.take_left]
  unfold lineColumn
  rw [Place.pos, Place.offset_start, htake, Place.line_after, Place.col_after_start]
  rfl

/-- What a text begins with where the flaw is reported. -/
def Flaw.OpensAt : Flaw → List Char → Prop
  | unterminatedComment, cs => ['/', '*'] <+: cs
  | unterminatedString, cs =>
    ∃ marks, (∀ c ∈ marks, Lexer.isMark c = true) ∧ marks.length ≤ 2 ∧ marks ++ ['"'] <+: cs
  | unterminatedRawString, cs =>
    ∃ marks, (∀ c ∈ marks, Lexer.isMark c = true) ∧ marks.length ≤ 2 ∧
      marks ++ ['"', '"', '"'] <+: cs
  | unterminatedCharacter, cs => ['\''] <+: cs
  | unexpectedCharacter c, cs => [c] <+: cs

namespace Lexer

/-! ## Tokens -/

/-- A token starts behind the characters before its lexeme. -/
theorem Cut.place_eq {p : Place} {g cs : List Char} {t : Tokenized} (h : Cut p g cs t) :
    ∀ u ∈ t.tokens, ∃ v r, cs = v ++ (u.lexeme.toList ++ r) ∧ u.place = p.after v := by
  induction h with
  | nil p g => simp
  | @blank p g c cs t hc _ ih =>
    intro u hu
    obtain ⟨v, r, rfl, hplace⟩ := ih u hu
    exact ⟨c :: v, r, rfl, hplace⟩
  | @remark p g w r t hw _ ih =>
    intro u hu
    obtain ⟨v, r, rfl, hplace⟩ := ih u hu
    exact ⟨w ++ v, r, by rw [List.append_assoc], by rw [hplace, Place.after_append]⟩
  | @token p g w r t k hw _ ih =>
    intro u hu
    rcases List.mem_cons.mp hu with rfl | hu
    · exact ⟨[], r, by rw [lexeme_token hw.shape, String.toList_ofList, List.nil_append], rfl⟩
    · obtain ⟨v, r, rfl, hplace⟩ := ih u hu
      exact ⟨w ++ v, r, by rw [List.append_assoc], by rw [hplace, Place.after_append]⟩

/-! ## Faults -/

/-- An interpolated string that does not end is reported itself, or a literal
in one of its holes is. -/
theorem interpolatedRest_eq_error {verbatim : Bool} {depth skip n : Nat} {cs : List Char}
    {snag : Snag} (h : interpolatedRest verbatim depth skip n cs = .error snag) :
    snag = ⟨0, .unterminatedString⟩ ∨ ∃ v q r, cs = v ++ q :: r ∧ (q = '"' ∨ q = '\'') ∧
      snag = ⟨n + v.length, unterminated q⟩ := by
  -- What is reported behind a character that is passed over is reported one
  -- character further on.
  have hnext : ∀ {n : Nat} {c : Char} {cs : List Char}, (snag = ⟨0, .unterminatedString⟩ ∨
        ∃ v q r, cs = v ++ q :: r ∧ (q = '"' ∨ q = '\'') ∧
          snag = ⟨n + 1 + v.length, unterminated q⟩) →
      snag = ⟨0, .unterminatedString⟩ ∨ ∃ v q r, c :: cs = v ++ q :: r ∧ (q = '"' ∨ q = '\'') ∧
        snag = ⟨n + v.length, unterminated q⟩ := by
    rintro n c cs (h | ⟨v, q, r, rfl, hq, rfl⟩)
    · exact .inl h
    · exact .inr ⟨c :: v, q, r, rfl, hq,
        by rw [List.length_cons, Nat.add_assoc, Nat.add_comm 1]⟩
  fun_induction interpolatedRest verbatim depth skip n cs with
  | case1 | case3 =>
    cases h
    exact .inl rfl
  | case8 => cases h
  | case13 depth n c cs _ _ hquote _ =>
    cases h
    exact .inr ⟨[], c, cs, rfl, by simpa using hquote, rfl⟩
  | _ =>
    rename_i ih
    exact hnext (ih h)

/-- A literal in a hole opens where its flaw is reported. -/
theorem unterminated_opensAt {q : Char} (hq : q = '"' ∨ q = '\'') (cs : List Char) :
    (unterminated q).OpensAt (q :: cs) := by
  rcases hq with rfl | rfl
  · exact ⟨[], by simp, by simp, cs, rfl⟩
  · exact ⟨cs, rfl⟩

theorem stringRest_eq_error {marks rest : List Char} (hmarks : ∀ c ∈ marks, isMark c = true)
    (hlength : marks.length ≤ 2) {snag : Snag} (h : stringRest marks rest = .error snag) :
    snag.flaw.OpensAt ((marks ++ '"' :: rest).drop snag.offset) := by
  have hstring : Flaw.unterminatedString.OpensAt (marks ++ '"' :: rest) :=
    ⟨marks, hmarks, hlength, rest, by simp⟩
  unfold stringRest at h
  split at h
  · rename_i hraw
    obtain ⟨rest, rfl⟩ := two_le_run_quotes.mp hraw
    split at h
    · cases h
    · cases h
      exact ⟨marks, hmarks, hlength, rest, by simp⟩
  · split at h
    · rcases interpolatedRest_eq_error h with rfl | ⟨v, q, r, rfl, hq, rfl⟩
      · exact hstring
      · have hdrop :
            (marks ++ '"' :: (v ++ q :: r)).drop (marks.length + 1 + v.length) = q :: r := by
          rw [show marks ++ '"' :: (v ++ q :: r) = (marks ++ '"' :: v) ++ q :: r by simp]
          exact List.drop_left' (by simp only [List.length_append, List.length_cons]; omega)
        rw [hdrop]
        exact unterminated_opensAt hq r
    · split at h
      · cases h
      · cases h
        exact hstring

theorem trivia_eq_error {bare : Bool} {cs : List Char} {snag : Snag}
    (h : trivia bare cs = .error snag) : snag.flaw.OpensAt (cs.drop snag.offset) := by
  unfold trivia at h
  split at h
  · cases h
  · cases h
  · rename_i cs
    split at h
    · cases h
    · cases h
      exact ⟨cs, rfl⟩
  · split at h
    · cases h
    · split at h <;> cases h

theorem wordOrOperator_eq_error {c : Char} {cs : List Char} {snag : Snag}
    (h : wordOrOperator c cs = .error snag) : snag = ⟨0, .unexpectedCharacter c⟩ := by
  unfold wordOrOperator at h
  split at h
  · cases h
  · split at h
    · cases h
    · split at h
      · cases h
      · cases h
        rfl

theorem tokenHead_eq_error {c : Char} {cs : List Char} {snag : Snag}
    (h : tokenHead c cs = .error snag) : snag.flaw.OpensAt ((c :: cs).drop snag.offset) := by
  unfold tokenHead at h
  split at h
  · rename_i hstarts
    obtain ⟨marks, rest, hcs, hmarks, hlength⟩ := startsString_iff.mp hstarts
    rw [hcs, stringLength_eq hmarks] at h
    rw [hcs]
    cases hrest : stringRest marks rest with
    | ok n =>
      rw [hrest] at h
      cases h
    | error snag =>
      rw [hrest] at h
      cases h
      exact stringRest_eq_error hmarks hlength hrest
  · split at h
    · rename_i hquote
      unfold characterLength at h
      cases hrest : quotedRest '\'' cs with
      | some n =>
        rw [hrest] at h
        cases h
      | none =>
        rw [hrest] at h
        cases h
        exact ⟨cs, by rw [beq_iff_eq.mp hquote]; rfl⟩
    · split at h
      · cases h
      · rw [wordOrOperator_eq_error h]
        exact ⟨cs, rfl⟩

/-- **Where the text has a flaw, it has what the flaw is about.** -/
theorem piece_eq_error {bare : Bool} {c : Char} {cs : List Char} {snag : Snag}
    (h : piece bare c cs = .error snag) : snag.flaw.OpensAt ((c :: cs).drop snag.offset) := by
  rw [piece_eq] at h
  split at h
  · rename_i htrivia
    cases h
    exact trivia_eq_error htrivia
  · cases h
  · exact tokenHead_eq_error h

/-- What is wrong with a text is wrong with the piece at some place of it. -/
theorem pieces_eq_error {p : Place} {g cs : List Char} {f : Fault}
    (h : pieces p g 0 cs = .error f) :
    ∃ v c r snag, cs = v ++ c :: r ∧ piece (p.after v).bare c r = .error snag ∧
      f = snag.fault (p.after v) (c :: r) := by
  -- A piece is cut off the text, and the fault stands in the rest.
  have hbehind : ∀ {p : Place} {w r : List Char}, (∃ v c r' snag, r = v ++ c :: r' ∧
        piece ((p.after w).after v).bare c r' = .error snag ∧
          f = snag.fault ((p.after w).after v) (c :: r')) →
      ∃ v c r' snag, w ++ r = v ++ c :: r' ∧ piece (p.after v).bare c r' = .error snag ∧
        f = snag.fault (p.after v) (c :: r') := by
    rintro p w _ ⟨v, c, r', snag, rfl, hpiece, hf⟩
    rw [← Place.after_append] at hpiece hf
    exact ⟨w ++ v, c, r', snag, by rw [List.append_assoc], hpiece, hf⟩
  induction hn : cs.length using Nat.strong_induction_on generalizing p g cs with
  | _ n ih =>
    subst hn
    cases cs with
    | nil => cases h
    | cons c cs =>
      cases hpiece : piece p.bare c cs with
      | error snag =>
        rw [pieces, hpiece] at h
        cases h
        exact ⟨[], c, cs, snag, rfl, hpiece, rfl⟩
      | ok q =>
        rcases piece_cases hpiece with hc | ⟨v, r, rfl, hremark⟩ | ⟨k, v, r, rfl, hmunch⟩
        · rw [pieces_blank hc] at h
          exact hbehind (w := [c]) (ih _ (by simp) h rfl)
        · rw [← List.cons_append, pieces_remark hremark] at h
          exact hbehind (w := c :: v)
            (ih _ (by rw [List.length_cons, List.length_append]; omega) h rfl)
        · rw [← List.cons_append, pieces_munch hmunch] at h
          cases hrest : pieces (p.after (c :: v)) [] 0 r with
          | ok t =>
            rw [hrest] at h
            cases h
          | error fault =>
            rw [hrest] at h
            cases h
            exact hbehind (w := c :: v)
              (ih _ (by rw [List.length_cons, List.length_append]; omega) hrest rfl)

end Lexer

theorem Flaw.OpensAt.ne_nil {f : Flaw} {cs : List Char} (h : f.OpensAt cs) : cs ≠ [] := by
  rintro rfl
  cases f <;> simp [Flaw.OpensAt] at h

/-- A place behind some of the characters of a text has the line and column counted there, and
what follows it is the rest of the text. -/
theorem Place.pos_of_toList_eq {s : String} {v r : List Char} (h : s.toList = v ++ r)
    {p : Place} (hp : p = Place.start.after v) :
    p.pos = lineColumn s p.offset ∧ s.toList.drop p.offset = r := by
  subst hp
  refine ⟨Place.pos_after_start h, ?_⟩
  rw [Place.offset_start, h, List.drop_left]

/-- **The lines and columns of tokens and faults are right.**  They are those of the offset,
where the lexeme of the token stands, or what the flaw of the fault is about; the end of the
text has the line and column of its length. -/
theorem tokenize_lineColumn (s : String) :
    (∀ t, tokenize s = .ok t →
      (∀ u ∈ t.tokens, u.place.pos = lineColumn s u.place.offset ∧
        u.lexeme.toList <+: s.toList.drop u.place.offset) ∧
      t.stop.offset = s.length ∧ t.stop.pos = lineColumn s s.length) ∧
    ∀ f, tokenize s = .error f →
      f.place.pos = lineColumn s f.place.offset ∧ f.place.offset < s.length ∧
        f.flaw.OpensAt (s.toList.drop f.place.offset) := by
  constructor
  · intro t ht
    have hcut := Lexer.cut_of_pieces_eq ht
    refine ⟨fun u hu => ?_, ?_⟩
    · obtain ⟨v, r, hs, hplace⟩ := hcut.place_eq u hu
      obtain ⟨hpos, hdrop⟩ := Place.pos_of_toList_eq hs hplace
      exact ⟨hpos, by rw [hdrop]; exact List.prefix_append _ r⟩
    · have hoffset : t.stop.offset = s.length := by
        rw [hcut.stop_eq, Place.offset_start, String.length_toList]
      have hpos := (Place.pos_of_toList_eq (List.append_nil _).symm hcut.stop_eq).1
      exact ⟨hoffset, by rw [hpos, hoffset]⟩
  · intro f hf
    obtain ⟨v, c, r, snag, hs, hpiece, rfl⟩ := Lexer.pieces_eq_error hf
    have hopens := Lexer.piece_eq_error hpiece
    obtain ⟨hpos, hdrop⟩ := Place.pos_of_toList_eq (r := (c :: r).drop snag.offset)
      (p := (snag.fault (Place.start.after v) (c :: r)).place)
      (v := v ++ (c :: r).take snag.offset)
      (by rw [hs, List.append_assoc, List.take_append_drop]) (by rw [Place.after_append]; rfl)
    rw [← hdrop] at hopens
    refine ⟨hpos, ?_, hopens⟩
    rw [← String.length_toList]
    exact Nat.lt_of_not_le fun hle => hopens.ne_nil (List.drop_eq_nil_iff.mpr hle)

/-- A token behind a string of two lines, and a character literal that does not end in a hole
of a string on the second line. -/
theorem tokenize_lineColumn_nested :
    (∃ t, tokenize "@\"a\nb\" c" = .ok t ∧ t.tokens.map (·.place.pos) = [⟨1, 1⟩, ⟨2, 4⟩] ∧
      ∀ u ∈ t.tokens, u.place.pos = lineColumn "@\"a\nb\" c" u.place.offset) ∧
    ∃ f, tokenize "x;\n  $\"\x7b f('" = .error f ∧ f.flaw = .unterminatedCharacter ∧
      f.place.pos = ⟨2, 9⟩ ∧ f.place.pos = lineColumn "x;\n  $\"\x7b f('" f.place.offset := by
  refine ⟨⟨_, rfl, rfl, fun u hu => ?_⟩, ⟨_, rfl, rfl, rfl, ?_⟩⟩
  · exact (((tokenize_lineColumn "@\"a\nb\" c").1 _ rfl).1 u hu).1
  · exact ((tokenize_lineColumn "x;\n  $\"\x7b f('").2 _ rfl).1

end SharpScript
