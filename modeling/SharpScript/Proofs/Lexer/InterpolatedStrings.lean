import SharpScript.Proofs.Lexer.VerbatimStrings

/-! # Interpolated strings

An interpolated string is text with holes in it.  In a hole braces nest, and a quote of either
sort starts a literal of one line, whatever marks stand before it.  So a literal in a hole is
read as text with such literals in it, and not by the rules for its own form.

## Main Definitions

* `QuotedContent`, `HoleText`, `InterpolatedContent`: what may stand in a literal of one line,
  in a hole and in an interpolated string;
* `OpensWith`: a string with given marks that is not raw;
* `IsStringLiteral`: a text that is a string literal and nothing else;
* `nested`: an interpolated string that is a hole with a given text in it.

## Main Results

* `Lexer.quotedRest_eq_some`, `Lexer.interpolatedRest_hole`, `Lexer.interpolatedRest_eq_ok`:
  the scanners accept what the grammar allows and nothing else;
* `tokenize_nested`: **which literals may stand in a hole**: all regular ones, the verbatim
  ones without backslashes and the ones of any form without quotes inside, and of the others
  just those that `InterpolatedContent` allows;
* `nested_misread`: a verbatim string, an interpolated one and a raw one that may not.
-/

namespace SharpScript

/-! ## The grammar -/

/-- What may stand in a literal of one line: characters other than its quote, and a backslash
with any character behind it. -/
inductive QuotedContent (quote : Char) : List Char → Prop
  | nil : QuotedContent quote []
  | char {c : Char} {cs : List Char} (hc : c ∉ [quote, '\\', '\n'])
      (h : QuotedContent quote cs) :
      QuotedContent quote (c :: cs)
  | escape (c : Char) {cs : List Char} (h : QuotedContent quote cs) :
      QuotedContent quote ('\\' :: c :: cs)

/-- The signs that mean something in a hole. -/
def holeSigns : List Char := ['{', '}', '"', '\'']

/-- What may stand in a hole: literals of one line, braces that belong together, and all other
characters. -/
inductive HoleText : List Char → Prop
  | nil : HoleText []
  | char {c : Char} {cs : List Char} (hc : c ∉ holeSigns) (h : HoleText cs) :
      HoleText (c :: cs)
  | literal {quote : Char} {v cs : List Char} (hquote : quote ∈ ['"', '\''])
      (hv : QuotedContent quote v) (h : HoleText cs) : HoleText (quote :: (v ++ quote :: cs))
  | braces {v cs : List Char} (hv : HoleText v) (h : HoleText cs) :
      HoleText ('{' :: (v ++ '}' :: cs))

/-- Two characters of an interpolated string that stand for one: a doubled brace, and a
backslash with any character behind it, or a doubled quote where the string is verbatim. -/
def IsPair (verbatim : Bool) (c d : Char) : Prop :=
  (c = '{' ∧ d = '{') ∨ (verbatim = false ∧ c = '\\') ∨ (verbatim = true ∧ c = '"' ∧ d = '"')

/-- What may stand in an interpolated string: pairs of characters that stand for one, holes,
and other characters on the same line, or on any line where the string is verbatim. -/
inductive InterpolatedContent (verbatim : Bool) : List Char → Prop
  | nil : InterpolatedContent verbatim []
  | char {c : Char} {cs : List Char} (hc : c ∉ ['{', '"'])
      (hplain : verbatim = false → c ∉ ['\\', '\n']) (h : InterpolatedContent verbatim cs) :
      InterpolatedContent verbatim (c :: cs)
  | pair {c d : Char} {cs : List Char} (hpair : IsPair verbatim c d)
      (h : InterpolatedContent verbatim cs) : InterpolatedContent verbatim (c :: d :: cs)
  | hole {v cs : List Char} (hfirst : v.head? ≠ some '{') (hv : HoleText v)
      (h : InterpolatedContent verbatim cs) :
      InterpolatedContent verbatim ('{' :: (v ++ '}' :: cs))

theorem QuotedContent.append {quote : Char} {v w : List Char} (hv : QuotedContent quote v)
    (hw : QuotedContent quote w) : QuotedContent quote (v ++ w) := by
  induction hv with
  | nil => exact hw
  | char hc _ ih => exact .char hc ih
  | escape c _ ih => exact .escape c ih

namespace HoleText

theorem append {v w : List Char} (hv : HoleText v) (hw : HoleText w) : HoleText (v ++ w) := by
  induction hv with
  | nil => exact hw
  | char hc _ ih => exact .char hc ih
  | literal hquote hcontent _ ih =>
    rw [List.cons_append, List.append_assoc]
    exact .literal hquote hcontent ih
  | braces hinner _ _ ih =>
    rw [List.cons_append, List.append_assoc]
    exact .braces hinner ih

theorem of_plain {v : List Char} (h : ∀ c ∈ v, c ∉ holeSigns) : HoleText v := by
  induction v with
  | nil => exact .nil
  | cons c v ih =>
    exact .char (h c List.mem_cons_self) (ih fun d hd => h d (List.mem_cons_of_mem c hd))

end HoleText

namespace Lexer

/-! ## Literals of one line -/

theorem quotedRest_content {q : Char} (hq : q ∉ ['\\', '\n']) {v : List Char}
    (h : QuotedContent q v) (r : List Char) :
    quotedRest q (v ++ q :: r) = some (v.length + 1) := by
  simp only [List.mem_cons, List.not_mem_nil, or_false, not_or] at hq
  induction h with
  | nil =>
    rw [List.nil_append, quotedRest_cons hq.1, if_neg (by simpa using hq.2),
      if_pos (beq_self_eq_true q)]
    rfl
  | @char c cs hc _ ih =>
    simp only [List.mem_cons, List.not_mem_nil, or_false, not_or] at hc
    rw [List.cons_append, quotedRest_cons hc.2.1, if_neg (by simpa using hc.2.2),
      if_neg (by simpa using hc.1), ih]
    rfl
  | escape c _ ih =>
    rw [List.cons_append, List.cons_append, quotedRest.eq_2, ih]
    rfl

/-- A literal of one line ends where the grammar says that it does. -/
theorem quotedRest_eq_some {q : Char} {cs : List Char} {n : Nat}
    (h : quotedRest q cs = some n) :
    ∃ v r, QuotedContent q v ∧ cs = v ++ q :: r ∧ n = v.length + 1 := by
  fun_induction quotedRest q cs generalizing n with
  | case1 => cases h
  | case2 c cs ih =>
    obtain ⟨m, hm, rfl⟩ := Option.map_eq_some_iff.mp h
    obtain ⟨v, r, hv, rfl, rfl⟩ := ih hm
    exact ⟨'\\' :: c :: v, r, .escape c hv, rfl, rfl⟩
  | case3 => cases h
  | case4 c cs _ _ hquote =>
    cases h
    exact ⟨[], cs, .nil, by rw [beq_iff_eq.mp hquote]; rfl, rfl⟩
  | case5 c cs hback hline hquote ih =>
    obtain ⟨m, hm, rfl⟩ := Option.map_eq_some_iff.mp h
    obtain ⟨v, r, hv, rfl, rfl⟩ := ih hm
    -- A backslash here would have a character behind it.
    have hc : c ≠ '\\' := by
      rintro rfl
      cases v with
      | nil => exact hback q r rfl rfl
      | cons d v => exact hback d (v ++ q :: r) rfl rfl
    refine ⟨c :: v, r, .char ?_ hv, rfl, rfl⟩
    simpa [hc] using And.intro hquote hline

/-! ## Holes -/

section Holes

variable {verbatim : Bool}

theorem interpolatedRest_skip (depth skip n : Nat) (cs : List Char) :
    interpolatedRest verbatim depth skip n cs =
      interpolatedRest verbatim depth 0 (n + skip) (cs.drop skip) := by
  induction cs generalizing skip n with
  | nil => cases skip <;> rfl
  | cons c cs ih =>
    cases skip with
    | zero => rfl
    | succ skip =>
      rw [interpolatedRest, ih, List.drop_succ_cons, Nat.add_right_comm, Nat.add_assoc]

theorem interpolatedRest_literal {depth n : Nat} {q : Char} (hq : q ∈ ['"', '\''])
    (cs : List Char) : interpolatedRest verbatim (depth + 1) 0 n (q :: cs) =
      match quotedRest q cs with
      | some m => interpolatedRest verbatim (depth + 1) 0 (n + 1 + m) (cs.drop m)
      | none => .error ⟨n, unterminated q⟩ := by
  have hbraces : (q == '{') = false ∧ (q == '}') = false ∧ (q == '"' || q == '\'') = true := by
    simp only [List.mem_cons, List.not_mem_nil, or_false] at hq
    rcases hq with rfl | rfl <;> decide
  rw [interpolatedRest, hbraces.1, hbraces.2.1, hbraces.2.2]
  simp only [Bool.false_eq_true, if_false, if_true]
  cases quotedRest q cs with
  | none => rfl
  | some m => exact interpolatedRest_skip (depth + 1) m (n + 1) cs

/-- A literal in a hole is passed over. -/
theorem interpolatedRest_quoted {q : Char} (hq : q ∈ ['"', '\'']) {v : List Char}
    (hv : QuotedContent q v) (depth n : Nat) (cs : List Char) :
    interpolatedRest verbatim (depth + 1) 0 n (q :: (v ++ q :: cs)) =
      interpolatedRest verbatim (depth + 1) 0 (n + (v.length + 2)) cs := by
  have hplain : q ∉ ['\\', '\n'] := by
    simp only [List.mem_cons, List.not_mem_nil, or_false] at hq
    rcases hq with rfl | rfl <;> decide
  have hdrop : (v ++ q :: cs).drop (v.length + 1) = cs := by
    rw [← List.drop_drop, List.drop_left, List.drop_one, List.tail_cons]
  rw [interpolatedRest_literal hq, quotedRest_content hplain hv]
  simp only [hdrop, Nat.add_assoc, Nat.add_comm 1]

/-- A quote in a hole that can be read has a literal behind it. -/
theorem exists_quoted {depth n m : Nat} {q : Char} (hq : q ∈ ['"', '\'']) {cs : List Char}
    (h : interpolatedRest verbatim (depth + 1) 0 n (q :: cs) = .ok m) :
    ∃ v r, QuotedContent q v ∧ cs = v ++ q :: r := by
  rw [interpolatedRest_literal hq] at h
  cases hrest : quotedRest q cs with
  | none =>
    rw [hrest] at h
    cases h
  | some k =>
    obtain ⟨v, r, hv, hcs, -⟩ := quotedRest_eq_some hrest
    exact ⟨v, r, hv, hcs⟩

theorem interpolatedRest_plain {depth n : Nat} {c : Char} (hc : c ∉ holeSigns)
    (cs : List Char) :
    interpolatedRest verbatim (depth + 1) 0 n (c :: cs) =
      interpolatedRest verbatim (depth + 1) 0 (n + 1) cs := by
  simp only [holeSigns, List.mem_cons, List.not_mem_nil, or_false, not_or] at hc
  simp [interpolatedRest, hc]

/-- What may stand in a hole is passed over, and the hole goes on. -/
theorem interpolatedRest_append {h : List Char} (hh : HoleText h) (depth n : Nat)
    (cs : List Char) :
    interpolatedRest verbatim (depth + 1) 0 n (h ++ cs) =
      interpolatedRest verbatim (depth + 1) 0 (n + h.length) cs := by
  induction hh generalizing depth n cs with
  | nil => rfl
  | @char c v hc _ ih =>
    rw [List.cons_append, interpolatedRest_plain hc, ih, List.length_cons, Nat.add_right_comm,
      Nat.add_assoc]
  | literal hq hv _ ih =>
    rw [List.cons_append, List.append_assoc, List.cons_append,
      interpolatedRest_quoted hq hv, ih]
    congr 1
    simp only [List.length_cons, List.length_append]
    omega
  | @braces v w _ _ ihv ih =>
    have hopen : interpolatedRest verbatim (depth + 1) 0 n ('{' :: (v ++ '}' :: (w ++ cs))) =
        interpolatedRest verbatim (depth + 2) 0 (n + 1) (v ++ '}' :: (w ++ cs)) := rfl
    have hclose :
        interpolatedRest verbatim (depth + 2) 0 (n + 1 + v.length) ('}' :: (w ++ cs)) =
          interpolatedRest verbatim (depth + 1) 0 (n + 1 + v.length + 1) (w ++ cs) := rfl
    rw [List.cons_append, List.append_assoc, List.cons_append, hopen, ihv, hclose, ih]
    congr 1
    simp only [List.length_cons, List.length_append]
    omega

/-- **A hole ends where the grammar says that it does.** -/
theorem interpolatedRest_hole {depth n m : Nat} {cs : List Char}
    (h : interpolatedRest verbatim (depth + 1) 0 n cs = .ok m) :
    ∃ v r k, HoleText v ∧ cs = v ++ '}' :: r ∧ k = n + v.length + 1 ∧
      interpolatedRest verbatim depth 0 k r = .ok m := by
  induction hlength : cs.length using Nat.strong_induction_on generalizing depth n cs with
  | _ l ih =>
    subst hlength
    cases cs with
    | nil => cases h
    | cons c cs =>
      by_cases hopen : c = '{'
      · -- Braces in the hole are closed first, and then the hole itself is.
        subst hopen
        have hinner : interpolatedRest verbatim (depth + 2) 0 (n + 1) cs = .ok m := h
        obtain ⟨v, r, _, hv, rfl, rfl, hr⟩ := ih cs.length (Nat.lt_succ_self _) hinner rfl
        obtain ⟨w, s, _, hw, rfl, rfl, hs⟩ := ih r.length (by grind) hr rfl
        exact ⟨'{' :: (v ++ '}' :: w), s, _, .braces hv hw, by simp, by grind, hs⟩
      by_cases hclose : c = '}'
      · subst hclose
        exact ⟨[], cs, _, .nil, rfl, rfl, h⟩
      by_cases hquote : c ∈ ['"', '\'']
      · obtain ⟨v, r, hv, rfl⟩ := exists_quoted hquote h
        rw [interpolatedRest_quoted hquote hv] at h
        obtain ⟨w, s, _, hw, rfl, rfl, hs⟩ := ih r.length (by grind) h rfl
        exact ⟨c :: (v ++ c :: w), s, _, .literal hquote hv hw, by simp, by grind, hs⟩
      · have hplain : c ∉ holeSigns := by
          simp only [List.mem_cons, List.not_mem_nil, or_false, not_or] at hquote
          simp [holeSigns, hopen, hclose, hquote]
        rw [interpolatedRest_plain hplain] at h
        obtain ⟨v, r, _, hv, rfl, rfl, hr⟩ := ih cs.length (Nat.lt_succ_self _) h rfl
        exact ⟨c :: v, r, _, .char hplain hv, rfl, by grind, hr⟩

end Holes

/-! ## Interpolated strings -/

section Contents

variable {verbatim : Bool}

theorem interpolatedRest_pair {c d : Char} (h : IsPair verbatim c d) (n : Nat)
    (cs : List Char) :
    interpolatedRest verbatim 0 0 n (c :: d :: cs) =
      interpolatedRest verbatim 0 0 (n + 2) cs := by
  rcases h with ⟨rfl, rfl⟩ | ⟨rfl, rfl⟩ | ⟨rfl, rfl, rfl⟩ <;> rfl

theorem interpolatedRest_char {c : Char} (hc : c ∉ ['{', '"'])
    (hplain : verbatim = false → c ∉ ['\\', '\n']) (n : Nat) (cs : List Char) :
    interpolatedRest verbatim 0 0 n (c :: cs) = interpolatedRest verbatim 0 0 (n + 1) cs := by
  simp only [List.mem_cons, List.not_mem_nil, or_false, not_or] at hc
  have hskip : (c == '\n' && !verbatim) = false ∧ (c == '\\' && !verbatim) = false := by
    cases verbatim with
    | true => simp
    | false => simpa [and_comm] using hplain rfl
  rw [interpolatedRest, hskip.1, hskip.2]
  simp only [Bool.false_eq_true, if_false, beq_iff_eq, hc.1, hc.2]

theorem interpolatedRest_opens {cs : List Char} (h : cs.head? ≠ some '{') (n : Nat) :
    interpolatedRest verbatim 0 0 n ('{' :: cs) =
      interpolatedRest verbatim 1 0 (n + 1) cs := by
  have hsingle : (cs.head? == some '{') = false := beq_eq_false_iff_ne.mpr h
  simp [interpolatedRest, hsingle]

/-- An interpolated string ends behind its content, unless the quote there is doubled. -/
theorem interpolatedRest_content {cs r : List Char} (h : InterpolatedContent verbatim cs)
    (hr : verbatim = true → r.head? ≠ some '"') (n : Nat) :
    interpolatedRest verbatim 0 0 n (cs ++ '"' :: r) = .ok (n + cs.length + 1) := by
  induction h generalizing n with
  | nil =>
    have hsingle : (verbatim && r.head? == some '"') = false := by
      cases verbatim with
      | false => rfl
      | true => simpa using hr rfl
    simp [interpolatedRest, hsingle]
  | char hc hplain _ ih =>
    rw [List.cons_append, interpolatedRest_char hc hplain, ih, List.length_cons]
    congr 1
    omega
  | pair hpair _ ih =>
    rw [List.cons_append, List.cons_append, interpolatedRest_pair hpair, ih, List.length_cons,
      List.length_cons]
    congr 1
    omega
  | @hole v cs hfirst hv _ ih =>
    have hopen : (v ++ '}' :: (cs ++ '"' :: r)).head? ≠ some '{' := by
      cases v with
      | nil => simp
      | cons d v => exact hfirst
    have hclose : interpolatedRest verbatim 1 0 (n + 1 + v.length) ('}' :: (cs ++ '"' :: r)) =
        interpolatedRest verbatim 0 0 (n + 1 + v.length + 1) (cs ++ '"' :: r) := rfl
    rw [List.cons_append, List.append_assoc, List.cons_append, interpolatedRest_opens hopen,
      interpolatedRest_append hv, hclose, ih, List.length_cons, List.length_append,
      List.length_cons]
    congr 1
    omega

/-- What an interpolated string goes on with: its last quote, or what the grammar says. -/
theorem interpolatedRest_cases {n m : Nat} {c : Char} {cs : List Char}
    (h : interpolatedRest verbatim 0 0 n (c :: cs) = .ok m) :
    (c = '"' ∧ m = n + 1) ∨ (∃ d ds, cs = d :: ds ∧ IsPair verbatim c d) ∨
      (c = '{' ∧ cs.head? ≠ some '{') ∨
      (c ∉ ['{', '"'] ∧ (verbatim = false → c ∉ ['\\', '\n'])) := by
  rw [interpolatedRest] at h
  split at h
  · cases h
  rename_i hline
  split at h
  · rename_i hbrace
    obtain rfl := beq_iff_eq.mp hbrace
    by_cases hdouble : cs.head? = some '{'
    · obtain ⟨ds, rfl⟩ := List.head?_eq_some_iff.mp hdouble
      exact .inr (.inl ⟨'{', ds, rfl, .inl ⟨rfl, rfl⟩⟩)
    · exact .inr (.inr (.inl ⟨rfl, hdouble⟩))
  rename_i hbrace
  split at h
  · rename_i hescape
    obtain ⟨hback, hplain⟩ := Bool.and_eq_true_iff.mp hescape
    cases cs with
    | nil => cases h
    | cons d ds =>
      exact .inr (.inl ⟨d, ds, rfl, .inr (.inl ⟨by simpa using hplain, beq_iff_eq.mp hback⟩)⟩)
  rename_i hescape
  split at h
  · rename_i hquote
    split at h
    · rename_i hdouble
      obtain ⟨hverbatim, hnext⟩ := Bool.and_eq_true_iff.mp hdouble
      obtain ⟨ds, rfl⟩ := List.head?_eq_some_iff.mp (beq_iff_eq.mp hnext)
      exact .inr (.inl ⟨'"', ds, rfl, .inr (.inr ⟨hverbatim, beq_iff_eq.mp hquote, rfl⟩)⟩)
    · exact .inl ⟨beq_iff_eq.mp hquote, (Except.ok.inj h).symm⟩
  · rename_i hquote
    refine .inr (.inr (.inr ⟨by simpa using And.intro hbrace hquote, fun hplain => ?_⟩))
    subst hplain
    simpa using And.intro hescape hline

/-- **An interpolated string ends where the grammar says that it does.** -/
theorem interpolatedRest_eq_ok {n m : Nat} {cs : List Char}
    (h : interpolatedRest verbatim 0 0 n cs = .ok m) :
    ∃ v r, InterpolatedContent verbatim v ∧ cs = v ++ '"' :: r ∧ m = n + v.length + 1 := by
  induction hlength : cs.length using Nat.strong_induction_on generalizing n cs with
  | _ l ih =>
    subst hlength
    cases cs with
    | nil => cases h
    | cons c cs =>
      rcases interpolatedRest_cases h with ⟨rfl, rfl⟩ | ⟨d, ds, rfl, hpair⟩ |
        ⟨rfl, hfirst⟩ | ⟨hc, hplain⟩
      · exact ⟨[], cs, .nil, rfl, rfl⟩
      · rw [interpolatedRest_pair hpair] at h
        obtain ⟨v, r, hv, rfl, rfl⟩ := ih ds.length (by grind) h rfl
        exact ⟨c :: d :: v, r, .pair hpair hv, rfl, by grind⟩
      · rw [interpolatedRest_opens hfirst] at h
        obtain ⟨v, r, _, hv, rfl, rfl, hr⟩ := interpolatedRest_hole h
        obtain ⟨w, s, hw, rfl, rfl⟩ := ih r.length (by grind) hr rfl
        refine ⟨'{' :: (v ++ '}' :: w), s, .hole ?_ hv hw, by simp, by grind⟩
        intro hopen
        obtain ⟨v, rfl⟩ := List.head?_eq_some_iff.mp hopen
        exact hfirst rfl
      · rw [interpolatedRest_char hc hplain] at h
        obtain ⟨v, r, hv, rfl, rfl⟩ := ih cs.length (Nat.lt_succ_self _) h rfl
        exact ⟨c :: v, r, .char hc hplain hv, rfl, by grind⟩

end Contents

/-! ## String literals -/

/-- The string `w` has the marks `marks`, and no three quotes behind them. -/
def OpensWith (marks w : List Char) : Prop := ∃ v, w = marks ++ '"' :: v ∧ ¬ ['"', '"'] <+: v

theorem two_le_run_quotes {v : List Char} : 2 ≤ run (· == '"') v ↔ ['"', '"'] <+: v := by
  match v with
  | [] => simp
  | [c] => by_cases hc : c = '"' <;> simp [run_cons, hc]
  | c :: d :: v =>
    by_cases hc : c = '"'
    · by_cases hd : d = '"'
      · simp [run_cons, hc, hd]
      · simp [run_cons, hc, hd, Ne.symm hd]
    · simp [run_cons, hc, Ne.symm hc]

/-- The rest of a string that is not raw. -/
theorem OpensWith.stringRest_eq {marks w : List Char} (h : OpensWith marks w)
    (hmarks : ∀ c ∈ marks, isMark c = true) (hlength : marks.length ≤ 2)
    (hw : Munch .string w []) :
    ∃ v, w = marks ++ '"' :: v ∧ stringRest marks v = .ok (marks.length + 1 + v.length) ∧
      ¬ 2 ≤ run (· == '"') v := by
  obtain ⟨v, rfl, hquotes⟩ := h
  have hrest := (munch_string hmarks hlength).mp hw
  rw [List.append_nil] at hrest
  exact ⟨v, rfl, hrest, two_le_run_quotes.not.mpr hquotes⟩

/-- What is read to its end ends there. -/
theorem eq_append_of_length {v w r : List Char} {c : Char} (h : v = w ++ c :: r)
    (hlength : v.length = w.length + 1) : v = w ++ [c] := by
  have hr : r = [] := by
    rw [h, List.length_append, List.length_cons] at hlength
    exact List.length_eq_zero_iff.mp (by omega)
  rw [h, hr]

/-- A regular string is read alike in a hole. -/
theorem holeText_of_regular {w : List Char} (hw : Munch .string w []) (h : OpensWith [] w) :
    HoleText w := by
  obtain ⟨v, rfl, hrest, hquotes⟩ := h.stringRest_eq nofun (Nat.zero_le 2) hw
  rw [stringRest, if_neg hquotes] at hrest
  cases hquoted : quotedRest '"' v with
  | none =>
    simp [hquoted] at hrest
  | some n =>
    obtain ⟨u, r, hu, hv, rfl⟩ := quotedRest_eq_some hquoted
    have hlength : v.length = u.length + 1 := by simpa [hquoted, eq_comm] using hrest
    rw [eq_append_of_length hv hlength]
    exact .literal (by simp) hu .nil

/-- A doubled quote ends a literal of one line and starts the next one, so it is passed over in
a hole as it is in a verbatim string. -/
theorem holeText_of_verbatimContent {v c : List Char} (hv : QuotedContent '"' v)
    (hc : VerbatimContent c) (hplain : ∀ d ∈ c, d ∉ ['\\', '\n']) :
    HoleText ('"' :: (v ++ (c ++ ['"']))) := by
  induction hc generalizing v with
  | nil => exact .literal (by simp) hv .nil
  | @char d c hd _ ih =>
    have hv' : QuotedContent '"' (v ++ [d]) := hv.append (.char (by simp [hd, hplain d]) .nil)
    simpa using ih hv' fun e he => hplain e (List.mem_cons_of_mem d he)
  | quotes _ ih =>
    exact .literal (by simp) hv (ih .nil fun e he => hplain e (by simp [he]))

/-- A verbatim string without backslashes that stands on one line is read alike in a hole. -/
theorem holeText_of_verbatim {w : List Char} (hw : Munch .string w []) (h : OpensWith ['@'] w)
    (hplain : ∀ d ∈ w, d ∉ ['\\', '\n']) : HoleText w := by
  obtain ⟨v, rfl, hrest, hquotes⟩ := h.stringRest_eq (by simp [isMark]) (by simp) hw
  rw [stringRest, if_neg hquotes] at hrest
  cases hverbatim : verbatimRest v with
  | none =>
    simp [hverbatim] at hrest
  | some n =>
    obtain ⟨c, r, hc, hv, rfl⟩ := verbatimRest_eq_some hverbatim
    have hlength : v.length = c.length + 1 := by simpa [hverbatim, eq_comm] using hrest
    obtain rfl := eq_append_of_length hv hlength
    refine .char (by simp [holeSigns]) (holeText_of_verbatimContent .nil hc fun d hd => ?_)
    exact hplain d (by simp [hd])

theorem not_mem_holeSigns_of_isMark {c : Char} (h : isMark c = true) : c ∉ holeSigns := by
  intro hsign
  simp only [holeSigns, List.mem_cons, List.not_mem_nil, or_false] at hsign
  rcases hsign with rfl | rfl | rfl | rfl <;> cases h

/-- A literal of one line is read alike in a hole, with or without marks. -/
theorem holeText_of_marked {marks v : List Char} (hmarks : ∀ c ∈ marks, isMark c = true)
    (hv : QuotedContent '"' v) : HoleText (marks ++ '"' :: (v ++ ['"'])) :=
  (HoleText.of_plain fun c hc => not_mem_holeSigns_of_isMark (hmarks c hc)).append
    (.literal (by simp) hv .nil)

/-- A literal with nothing before it but blanks and its marks does not open a brace. -/
theorem head?_ne_brace {g marks v : List Char} (hg : ∀ c ∈ g, c ∉ holeSigns)
    (hmarks : ∀ c ∈ marks, isMark c = true) : (g ++ marks ++ '"' :: v).head? ≠ some '{' := by
  have hplain : ∀ c ∈ g ++ marks, c ∉ holeSigns := fun c hc =>
    (List.mem_append.mp hc).elim (hg c) fun h => not_mem_holeSigns_of_isMark (hmarks c h)
  cases hcs : g ++ marks with
  | nil => simp
  | cons c cs =>
    intro hhead
    obtain rfl : c = '{' := Option.some.inj hhead
    exact hplain '{' (by simp [hcs]) (by simp [holeSigns])

end Lexer

open Lexer

/-- The text is a string literal and nothing else. -/
def IsStringLiteral (s : String) : Prop :=
  ∃ t u, tokenize s = .ok t ∧ t.tokens = [u] ∧ u.kind = .string ∧ u.span s = s

theorem isStringLiteral_iff {s : String} : IsStringLiteral s ↔ Munch .string s.toList [] := by
  constructor
  · rintro ⟨t, u, ht, htokens, hkind, hspan⟩
    have hlexeme : u.lexeme = s := by
      have hmap := map_span ht
      rw [htokens, List.map_singleton, List.map_singleton, hspan] at hmap
      exact (List.cons.inj hmap).1.symm
    have hmunch := (cut_of_pieces_eq ht).munch_alone u (by simp [htokens])
    rwa [hkind, hlexeme] at hmunch
  · intro h
    have hcut := Cut.token (p := .start) (g := []) h (.nil _ _)
    rw [List.append_nil] at hcut
    have ht : tokenize s = .ok _ := hcut.pieces_eq
    refine ⟨_, _, ht, rfl, rfl, ?_⟩
    rw [(List.cons.inj (map_span ht)).1, lexeme_token h.shape, String.ofList_toList]

theorem not_isStringLiteral {s : String} {f : Fault} (h : tokenize s = .error f) :
    ¬ IsStringLiteral s := by
  rintro ⟨t, u, ht, -⟩
  rw [h] at ht
  cases ht

/-- An interpolated string that is a hole with `s` in it. -/
def nested (s : String) : String := "$\"" ++ Text.braced s ++ "\""

theorem isStringLiteral_nested {s : String} :
    IsStringLiteral (nested s) ↔ InterpolatedContent false ('{' :: (s.toList ++ ['}'])) := by
  have hchars : (nested s).toList = ['$'] ++ '"' :: ('{' :: (s.toList ++ ['}']) ++ ['"']) := by
    simp [nested, Text.braced]
  rw [isStringLiteral_iff, hchars, munch_string (by simp [isMark]) (by simp), List.append_nil,
    stringRest, if_neg (by simp [run_cons]), if_pos (by simp)]
  constructor
  · intro h
    obtain ⟨v, r, hv, hcs, hlength⟩ := interpolatedRest_eq_ok h
    have hend := eq_append_of_length hcs (by omega)
    rwa [List.append_cancel_right hend]
  · intro h
    have hcontent := interpolatedRest_content h (r := []) (by simp) (['$'].length + 1)
    simpa [Nat.add_assoc] using hcontent

/-- **Which string literals may stand in a hole**: those whose text the grammar allows there.
These are all regular strings, the verbatim strings without backslashes, and the strings of any
form that have no quotes inside. -/
theorem tokenize_nested {s : String} {t : Tokenized} {u : Token} (hline : '\n' ∉ s.toList)
    (ht : tokenize s = .ok t) (hu : t.tokens = [u]) (hkind : u.kind = .string) :
    (IsStringLiteral (nested s) ↔ InterpolatedContent false ('{' :: (s.toList ++ ['}']))) ∧
    ((∀ c ∈ u.gap.toList ++ t.gap.toList, c ∉ holeSigns) →
      (OpensWith [] u.lexeme.toList ∨
        (OpensWith ['@'] u.lexeme.toList ∧ '\\' ∉ u.lexeme.toList) ∨
        ∃ marks v, (∀ c ∈ marks, isMark c = true) ∧ QuotedContent '"' v ∧
          u.lexeme.toList = marks ++ '"' :: (v ++ ['"'])) →
      IsStringLiteral (nested s)) := by
  have hcut := cut_of_pieces_eq ht
  have hchars : s.toList = u.gap.toList ++ u.lexeme.toList ++ t.gap.toList := by
    simpa [hu, Token.chars] using hcut.text_eq
  have hmunch : Munch .string u.lexeme.toList [] := hkind ▸ hcut.munch_alone u (by simp [hu])
  refine ⟨isStringLiteral_nested, fun hgaps hform => isStringLiteral_nested.mpr ?_⟩
  obtain ⟨hlexeme, marks, v, hmarks, hshape⟩ : HoleText u.lexeme.toList ∧
      ∃ marks v, (∀ c ∈ marks, isMark c = true) ∧ u.lexeme.toList = marks ++ '"' :: v := by
    rcases hform with hregular | ⟨hverbatim, hslash⟩ | ⟨marks, v, hmarks, hv, hshape⟩
    · obtain ⟨v, hv, -⟩ := id hregular
      exact ⟨holeText_of_regular hmunch hregular, [], v, by simp, hv⟩
    · obtain ⟨v, hv, -⟩ := id hverbatim
      refine ⟨holeText_of_verbatim hmunch hverbatim fun d hd => ?_, ['@'], v,
        by simp [isMark], hv⟩
      have hd' : d ∈ s.toList := by simp [hchars, hd]
      simp only [List.mem_cons, List.not_mem_nil, or_false, not_or]
      exact ⟨ne_of_mem_of_not_mem hd hslash, ne_of_mem_of_not_mem hd' hline⟩
    · exact ⟨hshape ▸ holeText_of_marked hmarks hv, marks, _, hmarks, hshape⟩
  have hgap := fun c hc => hgaps c (List.mem_append_left t.gap.toList hc)
  have hgap' := fun c hc => hgaps c (List.mem_append_right u.gap.toList hc)
  refine .hole ?_ ?_ .nil
  · rw [hchars, hshape]
    simpa using head?_ne_brace (v := v ++ t.gap.toList) hgap hmarks
  · rw [hchars]
    exact ((HoleText.of_plain hgap).append hlexeme).append (.of_plain hgap')

/-- An escaped quote, braces and a quote of the other sort in a regular string, with blanks
before and behind it. -/
theorem tokenize_nested_regular :
    ∃ t u, tokenize " \"\x7b'\\\"\" " = .ok t ∧ t.tokens = [u] ∧ u.kind = .string ∧
      OpensWith [] u.lexeme.toList ∧ IsStringLiteral (nested " \"\x7b'\\\"\" ") := by
  obtain ⟨t, u, ht, hu, hkind, hgaps, hform⟩ : ∃ t u, tokenize " \"\x7b'\\\"\" " = .ok t ∧
      t.tokens = [u] ∧ u.kind = .string ∧ u.gap.toList ++ t.gap.toList = [' ', ' '] ∧
      OpensWith [] u.lexeme.toList :=
    ⟨_, _, rfl, rfl, rfl, rfl, _, rfl, by decide⟩
  have hplain : ∀ c ∈ u.gap.toList ++ t.gap.toList, c ∉ holeSigns := by simp [hgaps, holeSigns]
  exact ⟨t, u, ht, hu, hkind, hform,
    (tokenize_nested (by decide) ht hu hkind).2 hplain (.inl hform)⟩

/-- A backslash in a verbatim string hides the quote that ends it, a brace between the quotes
of an inner hole is taken for one that opens another, and three quotes are taken for an empty
string and the start of the next. -/
theorem nested_misread :
    (IsStringLiteral "@\"\\\"" ∧ ¬ IsStringLiteral (nested "@\"\\\"")) ∧
    (IsStringLiteral (nested "\"\x7b\"") ∧ ¬ IsStringLiteral (nested (nested "\"\x7b\""))) ∧
    IsStringLiteral "\"\"\"a\"b\"\"\"" ∧ ¬ IsStringLiteral (nested "\"\"\"a\"b\"\"\"") :=
  ⟨⟨⟨_, _, rfl, rfl, rfl, rfl⟩, not_isStringLiteral rfl⟩,
    ⟨⟨_, _, rfl, rfl, rfl, rfl⟩, not_isStringLiteral rfl⟩,
    ⟨_, _, rfl, rfl, rfl, rfl⟩, not_isStringLiteral rfl⟩

end SharpScript
