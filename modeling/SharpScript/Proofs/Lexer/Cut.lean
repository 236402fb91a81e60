import SharpScript.Proofs.Lexer.Boundary

/-! # Cutting a text, piece by piece

The lexer is followed step by step: a blank, a comment or directive, or a token stands at the
head of a text, and the rest is cut alike.  Blanks are taken one by one here, since a run of
them may be continued by the text that follows.

## Main Definitions

* `Munch`: a lexeme that is read whole before a text;
* `Remark`: a comment or a directive that is read whole before a text;
* `Cut`: a text and the tokens that it is cut into, as an inductive relation.

## Main Results

* `pieces_eq_ok_iff`: the relation is what the lexer computes;
* `Cut.pieces_append`: a text that is cut is cut alike before a text that stands apart from it;
* `Cut.split`: the text of the first tokens is cut into just those tokens;
* `Cut.first`: what stands before the first token is trivia.
-/

namespace SharpScript.Lexer

open Text (isDigit isLetter)

/-! ## Lengths -/

/-- No scanner leaves its text: what it answers is at most the length of the text. -/
theorem quotedRest_le {q : Char} {cs : List Char} {n : Nat} (h : quotedRest q cs = some n) :
    n ≤ cs.length := by
  fun_induction quotedRest q cs generalizing n <;> grind [Option.map_eq_some_iff]

theorem verbatimRest_le {cs : List Char} {n : Nat} (h : verbatimRest cs = some n) :
    n ≤ cs.length := by
  fun_induction verbatimRest cs generalizing n <;> grind [Option.map_eq_some_iff]

theorem commentRest_le {cs : List Char} {n : Nat} (h : commentRest cs = some n) :
    n ≤ cs.length := by
  fun_induction commentRest cs generalizing n <;> grind [Option.map_eq_some_iff]

theorem rawRest_le {k : Nat} {cs : List Char} {n : Nat} (h : rawRest k cs = some n) :
    n ≤ cs.length := by
  fun_induction rawRest k cs generalizing n with
  | case1 => cases h
  | case2 c cs hpre =>
    cases h
    simpa using (List.isPrefixOf_iff_prefix.mp hpre).length_le
  | case3 c cs hpre ih =>
    obtain ⟨m, hm, rfl⟩ := Option.map_eq_some_iff.mp h
    simpa using ih hm

theorem interpolatedRest_le {v : Bool} {depth skip n m : Nat} {cs : List Char}
    (h : interpolatedRest v depth skip n cs = .ok m) : m ≤ n + cs.length := by
  fun_induction interpolatedRest v depth skip n cs <;> grind

/-- Two lengths behind one another stay in the text if each of them does. -/
theorem andThen_le {g h : List Char → Nat} (hg : ∀ cs, g cs ≤ cs.length)
    (hh : ∀ cs, h cs ≤ cs.length) (cs : List Char) : andThen g h cs ≤ cs.length := by
  have h1 := hg cs
  have h2 := hh (cs.drop (g cs))
  rw [List.length_drop] at h2
  unfold andThen
  omega

theorem fractionLength_le (cs : List Char) : fractionLength cs ≤ cs.length := by
  unfold fractionLength
  split
  · rename_i cs
    have := run_le_length isDigitPart cs
    split
    · rw [List.length_cons]
      omega
    · omega
  · omega

theorem exponentLength_le (cs : List Char) : exponentLength cs ≤ cs.length := by
  unfold exponentLength
  have := run_le_length isDigit
  grind

/-- A number stays in its text. -/
theorem numberLength_le (cs : List Char) : numberLength cs ≤ cs.length := by
  have hdecimal : decimalLength cs ≤ cs.length :=
    andThen_le (andThen_le (andThen_le (run_le_length _) fractionLength_le) exponentLength_le)
      (run_le_length _) cs
  unfold numberLength
  split
  · rename_i b ds
    have := run_le_length isWordPart ds
    split
    · simp
      omega
    · exact hdecimal
  · exact hdecimal

/-- Where a number begins, it has a character at least. -/
theorem numberLength_pos {cs : List Char} (h : startsNumber cs = true) :
    0 < numberLength cs := by
  unfold startsNumber at h
  split at h
  · have := two_le_numberLength_of_point h
    omega
  · obtain ⟨d, ds, rfl, hd⟩ := digitNext_iff.mp h
    have hwhole : run isDigitPart (d :: ds) = run isDigitPart ds + 1 := by
      rw [run_cons, if_pos (by simp [isDigitPart, hd])]
    have hdecimal : 0 < decimalLength (d :: ds) := by
      simp only [decimalLength, hwhole]
      omega
    unfold numberLength
    split
    · split
      · omega
      · exact hdecimal
    · exact hdecimal

/-- A string is not empty and stays in its text. -/
theorem stringLength_le {cs : List Char} (hs : startsString cs = true) {n : Nat}
    (h : stringLength cs = .ok n) : 0 < n ∧ n ≤ cs.length := by
  obtain ⟨marks, rest, rfl, hmarks, -⟩ := startsString_iff.mp hs
  rw [stringLength_eq hmarks] at h
  have hlt := lt_stringRest h
  refine ⟨by omega, ?_⟩
  have hrun := run_le_length (· == '"') rest
  unfold stringRest at h
  simp only [List.length_append, List.length_cons]
  split at h
  · split at h
    · rename_i m hm
      cases h
      have := rawRest_le hm
      rw [List.length_drop] at this
      omega
    · cases h
  · split at h
    · have := interpolatedRest_le h
      omega
    · split at h
      · rename_i m hm
        cases h
        have : m ≤ rest.length := by
          split at hm
          · exact verbatimRest_le hm
          · exact quotedRest_le hm
        omega
      · cases h

/-- An operator is not empty and stays in its text. -/
theorem operatorLength?_le {cs : List Char} {n : Nat} (h : operatorLength? cs = some n) :
    0 < n ∧ n ≤ cs.length := by
  obtain ⟨op, hop, rfl⟩ := Option.map_eq_some_iff.mp h
  have hmem := List.mem_of_find?_eq_some hop
  have hpre := List.find?_some hop
  rw [List.isPrefixOf_iff_prefix] at hpre
  have hpos : ∀ op ∈ operators, 0 < op.length := by decide
  refine ⟨hpos op hmem, ?_⟩
  rw [← String.length_toList]
  exact hpre.length_le

/-- What is passed over is not empty and stays in its text. -/
theorem trivia_length {bare : Bool} {cs : List Char} {n : Nat}
    (h : trivia bare cs = .ok (some n)) : 0 < n ∧ n ≤ cs.length := by
  unfold trivia at h
  split at h
  · cases h
  · rename_i cs
    cases h
    have := run_le_length (· != '\n') cs
    simp only [lineRest, List.length_cons]
    omega
  · split at h
    · rename_i m hm
      cases h
      have := commentRest_le hm
      simp only [List.length_cons]
      omega
    · cases h
  · rename_i c cs _ _
    have hblank := run_le_length isBlank cs
    have hline := run_le_length (· != '\n') cs
    split at h
    · cases h
      simp only [List.length_cons]
      omega
    · split at h
      · cases h
        simp only [lineRest, List.length_cons]
        omega
      · cases h

/-- A word or an operator is a token, which is not empty and stays in its text. -/
theorem wordOrOperator_length {c : Char} {cs : List Char} {q : Piece}
    (h : wordOrOperator c cs = .ok q) :
    ∃ k n, q = .token k n ∧ 0 < n ∧ n ≤ cs.length + 1 := by
  have hword := run_le_length isWordPart cs
  unfold wordOrOperator at h
  split at h
  · cases h
    exact ⟨_, _, rfl, by omega, by omega⟩
  · split at h
    · cases h
      exact ⟨_, _, rfl, by omega, by omega⟩
    · split at h
      · rename_i n hn
        cases h
        have := operatorLength?_le hn
        exact ⟨_, _, rfl, this.1, by simpa using this.2⟩
      · cases h

/-- A token has a length that the text has room for. -/
theorem tokenHead_length {c : Char} {cs : List Char} {q : Piece} (h : tokenHead c cs = .ok q) :
    ∃ k n, q = .token k n ∧ 0 < n ∧ n ≤ cs.length + 1 := by
  unfold tokenHead at h
  split at h
  · rename_i hs
    cases hlen : stringLength (c :: cs) with
    | error snag => rw [hlen] at h; cases h
    | ok n =>
      rw [hlen] at h
      cases h
      have := stringLength_le hs hlen
      exact ⟨_, _, rfl, this.1, by simpa using this.2⟩
  · split at h
    · unfold characterLength at h
      cases hrest : quotedRest '\'' cs with
      | none => rw [hrest] at h; cases h
      | some n =>
        rw [hrest] at h
        cases h
        have := quotedRest_le hrest
        exact ⟨_, _, rfl, by omega, by omega⟩
    · split at h
      · rename_i hnumber
        cases h
        exact ⟨_, _, rfl, numberLength_pos hnumber, by simpa using numberLength_le (c :: cs)⟩
      · exact wordOrOperator_length h

/-! ## Pieces -/

/-- A text that is empty or starts a new line. -/
def LineEnd (r : List Char) : Prop := ∀ c, r.head? = some c → c = '\n'

/-- What begins with the end of a line does not go on with a word. -/
theorem LineEnd.apart {r : List Char} (h : LineEnd r) : Apart r := by
  intro c hc
  rw [h c hc]
  decide

/-- The lexeme `w` of a token of kind `k` is read whole before `r`. -/
def Munch (k : Kind) (w r : List Char) : Prop :=
  ∃ c v, w = c :: v ∧ ∀ bare, piece bare c (v ++ r) = .ok (.token k w.length)

/-- The comment or directive `w` is read whole before `r`, where `bare` says that
its line is bare so far. -/
def Remark (bare : Bool) (w r : List Char) : Prop :=
  ∃ c v, w = c :: v ∧ isBlank c = false ∧ trivia bare (c :: (v ++ r)) = .ok (some w.length)

/-- A lexeme is read whole before any text that it goes on with no more than with the one
behind it. -/
theorem Munch.milder {k : Kind} {w x z : List Char} (h : Munch k w x) (hm : Milder z x) :
    Munch k w z := by
  obtain ⟨c, v, rfl, hpiece⟩ := h
  exact ⟨c, v, rfl, fun bare => piece_milder hm (hpiece bare)⟩

theorem commentRest_pos {cs : List Char} {n : Nat} (h : commentRest cs = some n) : 2 ≤ n := by
  fun_induction commentRest cs generalizing n with
  | case1 => cases h
  | case2 => cases h; omega
  | case3 c cs hend ih =>
    obtain ⟨m, hm, rfl⟩ := Option.map_eq_some_iff.mp h
    have := ih hm
    omega

/-- Where a comment ends depends on its own characters alone. -/
theorem commentRest_local {w x : List Char} (z : List Char) {n : Nat}
    (h : commentRest (w ++ x) = some n) (hn : n ≤ w.length) :
    commentRest (w ++ z) = some n := by
  have htwo := commentRest_pos h
  generalize hl : w ++ x = l at h
  fun_induction commentRest l generalizing w n with
  | case1 => cases h
  | case2 tail =>
    cases h
    match w, hn, hl with
    | c :: d :: w, _, hl =>
      obtain ⟨rfl, rfl, -⟩ := by simpa using hl
      rfl
  | case3 c cs hend ih =>
    obtain ⟨m, hm, rfl⟩ := Option.map_eq_some_iff.mp h
    have hm2 := commentRest_pos hm
    match w, hn, hl with
    | [], hn, _ => simp at hn
    | [d], hn, _ => simp at hn; omega
    | d :: e :: w, hn, hl =>
      obtain ⟨rfl, rfl⟩ := by simpa using hl
      rw [List.cons_append, commentRest.eq_3, ih (by simpa using hn) hm2 rfl hm]
      · rfl
      · rintro tail rfl h'
        exact hend (w ++ x) rfl (by simpa using (List.cons.inj h').1)

/-- A comment without the end of a line in it goes up to where its line ends. -/
theorem lineRest_append {v r : List Char} (hv : ∀ c ∈ v, (c != '\n') = true) (hr : LineEnd r) :
    lineRest (v ++ r) = v.length := by
  unfold lineRest run
  rw [List.takeWhile_append_of_pos hv]
  cases r with
  | nil => simp
  | cons c r => simp [hr c rfl]

theorem lineEnd_of_lineRest_eq {v x : List Char} (h : lineRest (v ++ x) = v.length) :
    (∀ c ∈ v, (c != '\n') = true) ∧ LineEnd x := by
  have htake := takeWhile_of_run_eq h
  have hall : ∀ c ∈ v, (c != '\n') = true := by
    intro c hc
    rw [← htake] at hc
    exact List.mem_takeWhile_imp (p := (· != '\n')) hc
  refine ⟨hall, fun c hc => ?_⟩
  obtain ⟨y, rfl⟩ := List.head?_eq_some_iff.mp hc
  rw [List.takeWhile_append_of_pos hall] at htake
  by_contra hne
  simp [hne] at htake

/-- What follows a comment or directive decides nothing, unless it would continue its line. -/
theorem Remark.transfer {bare : Bool} {w x z : List Char} (h : Remark bare w x)
    (hz : LineEnd z ∨ z.head? = x.head?) : Remark bare w z := by
  obtain ⟨c, v, rfl, hblank, htrivia⟩ := h
  refine ⟨c, v, rfl, hblank, ?_⟩
  have hend : LineEnd x → LineEnd z := fun hx => hz.elim id fun h c hc => hx c (h ▸ hc)
  unfold trivia at htrivia
  split at htrivia
  · rename_i heq
    cases heq
  · rename_i cs heq
    obtain ⟨rfl, hcs⟩ := List.cons.inj heq
    simp only [Except.ok.injEq, Option.some.injEq, List.length_cons] at htrivia
    cases v with
    | nil => simp at htrivia; omega
    | cons d v =>
      obtain ⟨rfl, rfl⟩ := List.cons.inj hcs
      have hline := lineEnd_of_lineRest_eq (v := v) (x := x) (by simp at htrivia; omega)
      show Except.ok (some (2 + lineRest (v ++ z))) = _
      rw [lineRest_append hline.1 (hend hline.2)]
      simp only [List.length_cons]
      congr 2
      omega
  · rename_i cs heq
    obtain ⟨rfl, hcs⟩ := List.cons.inj heq
    split at htrivia
    · rename_i n hn
      simp only [Except.ok.injEq, Option.some.injEq, List.length_cons] at htrivia
      cases v with
      | nil => simp at htrivia; omega
      | cons d v =>
        obtain ⟨rfl, rfl⟩ := List.cons.inj hcs
        have hrest := commentRest_local z hn (by simp at htrivia; omega)
        simp only [List.cons_append, trivia, hrest, List.length_cons] at htrivia ⊢
        rw [htrivia]
    · cases htrivia
  · rename_i heq
    obtain ⟨rfl, rfl⟩ := List.cons.inj heq
    rw [if_neg (by simp [hblank])] at htrivia
    split at htrivia
    · rename_i hsharp
      have hc : c = '#' := beq_iff_eq.mp (Bool.and_eq_true_iff.mp hsharp).1
      simp only [Except.ok.injEq, Option.some.injEq, List.length_cons] at htrivia
      have hline := lineEnd_of_lineRest_eq (v := v) (x := x) (by omega)
      subst hc
      rw [trivia.eq_4 _ _ _ (by simp) (by simp), if_neg (by decide), if_pos hsharp,
        lineRest_append hline.1 (hend hline.2), List.length_cons, Nat.add_comm]
    · cases htrivia

/-! ## Steps of the lexer -/

/-- The tokens `ts` before those of a text. -/
def prepend (ts : List Token) (t : Tokenized) : Tokenized :=
  { t with tokens := ts ++ t.tokens }

/-- One step over something that is no token: it is added to what stands before the next one.
-/
theorem pieces_trivia {p : Place} {g : List Char} {c : Char} {v r : List Char}
    (h : piece p.bare c (v ++ r) = .ok (.trivia (v.length + 1))) :
    pieces p g 0 (c :: (v ++ r)) = pieces (p.after (c :: v)) (g ++ c :: v) 0 r := by
  have htake : (c :: (v ++ r)).take (v.length + 1) = c :: v := by simp
  rw [pieces, h]
  simp only [htake, Nat.add_sub_cancel]
  rw [pieces_skip]
  simp

/-- Trivia that is no blank goes into the gap. -/
theorem pieces_remark {p : Place} {g w r : List Char} (h : Remark p.bare w r) :
    pieces p g 0 (w ++ r) = pieces (p.after w) (g ++ w) 0 r := by
  obtain ⟨c, v, rfl, -, htrivia⟩ := h
  apply pieces_trivia
  rw [piece_eq, htrivia]
  rfl

/-- A lexeme becomes a token, which the gap stands before. -/
theorem pieces_munch {p : Place} {g w r : List Char} {k : Kind} (h : Munch k w r) :
    pieces p g 0 (w ++ r) = (pieces (p.after w) [] 0 r).map (prepend [token k w g p]) := by
  obtain ⟨c, v, rfl, hpiece⟩ := h
  have htake : (c :: (v ++ r)).take (v.length + 1) = c :: v := by simp
  rw [List.cons_append, pieces, hpiece p.bare]
  simp only [List.length_cons, htake, Nat.add_sub_cancel]
  rw [pieces_skip]
  simp only [List.drop_left]
  cases pieces (p.after (c :: v)) [] 0 r <;> rfl

/-- A blank is passed over together with all blanks behind it. -/
theorem piece_blank {bare : Bool} {c : Char} (hc : isBlank c = true) (cs : List Char) :
    piece bare c cs = .ok (.trivia (run isBlank cs + 1)) := by
  have hslash : c ≠ '/' := by
    rintro rfl
    simp [isBlank] at hc
  rw [piece_eq, trivia.eq_4 _ _ _ (fun _ h _ => hslash h) (fun _ h _ => hslash h), if_pos hc,
    Nat.add_comm]

/-- A blank goes into the gap, whatever follows it. -/
theorem pieces_blank {p : Place} {g : List Char} {c : Char} (hc : isBlank c = true)
    (cs : List Char) : pieces p g 0 (c :: cs) = pieces (p.step c) (g ++ [c]) 0 cs := by
  have hrun : ∀ (q : Place) (h : List Char) (d : Char), isBlank d = true → ∀ ds : List Char,
      pieces q h 0 (d :: ds) = pieces (q.after (d :: ds.takeWhile isBlank))
        (h ++ d :: ds.takeWhile isBlank) 0 (ds.dropWhile isBlank) := by
    intro q h d hd ds
    have := pieces_trivia (p := q) (g := h) (c := d) (v := ds.takeWhile isBlank)
      (r := ds.dropWhile isBlank) (by
        rw [List.takeWhile_append_dropWhile]
        exact piece_blank hd ds)
    rwa [List.takeWhile_append_dropWhile] at this
  rw [hrun p g c hc cs]
  -- The run behind the first blank is the run that starts at the next one.
  cases cs with
  | nil => rfl
  | cons d ds =>
    cases hd : isBlank d with
    | true =>
      rw [hrun _ _ d hd ds, List.takeWhile_cons_of_pos hd, List.dropWhile_cons_of_pos hd]
      simp
    | false =>
      rw [List.takeWhile_cons_of_neg (by simp [hd]), List.dropWhile_cons_of_neg (by simp [hd])]
      rfl

/-! ## The relation -/

/-- The text `cs` from the place `p` on, behind the trivia `g`, is cut into `t`. -/
inductive Cut : Place → List Char → List Char → Tokenized → Prop
  | nil (p : Place) (g : List Char) : Cut p g [] ⟨[], String.ofList g, p⟩
  | blank {p : Place} {g : List Char} {c : Char} {cs : List Char} {t : Tokenized}
      (hc : isBlank c = true) (h : Cut (p.step c) (g ++ [c]) cs t) : Cut p g (c :: cs) t
  | remark {p : Place} {g w r : List Char} {t : Tokenized} (hw : Remark p.bare w r)
      (h : Cut (p.after w) (g ++ w) r t) : Cut p g (w ++ r) t
  | token {p : Place} {g w r : List Char} {t : Tokenized} {k : Kind} (hw : Munch k w r)
      (h : Cut (p.after w) [] r t) : Cut p g (w ++ r) (prepend [token k w g p] t)

/-- What the relation says is what the lexer does. -/
theorem Cut.pieces_eq {p : Place} {g cs : List Char} {t : Tokenized} (h : Cut p g cs t) :
    pieces p g 0 cs = .ok t := by
  induction h with
  | nil p g => rfl
  | blank hc _ ih => rw [pieces_blank hc, ih]
  | remark hw _ ih => rw [pieces_remark hw, ih]
  | token hw _ ih =>
    rw [pieces_munch hw, ih]
    rfl

/-- What stands at the head of a text is a blank, a remark or a lexeme, unless the text has a
flaw there. -/
theorem piece_cases {bare : Bool} {c : Char} {cs : List Char} {q : Piece}
    (h : piece bare c cs = .ok q) :
    isBlank c = true ∨ (∃ v r, cs = v ++ r ∧ Remark bare (c :: v) r) ∨
      ∃ k v r, cs = v ++ r ∧ Munch k (c :: v) r := by
  have hsplit : ∀ n, 0 < n → n ≤ cs.length + 1 →
      cs = cs.take (n - 1) ++ cs.drop (n - 1) ∧ (c :: cs.take (n - 1)).length = n := by
    intro n h0 hn
    refine ⟨(List.take_append_drop (n - 1) cs).symm, ?_⟩
    rw [List.length_cons, List.length_take]
    omega
  rw [piece_eq] at h
  split at h
  · cases h
  · rename_i n htrivia
    cases hblank : isBlank c with
    | true => exact .inl rfl
    | false =>
      obtain ⟨h0, hn⟩ := trivia_length htrivia
      obtain ⟨hcs, hlen⟩ := hsplit n h0 (by simpa using hn)
      refine .inr (.inl ⟨_, _, hcs, c, _, rfl, hblank, ?_⟩)
      rw [← hcs, htrivia, hlen]
  · rename_i htrivia
    obtain ⟨k, n, rfl, h0, hn⟩ := tokenHead_length h
    obtain ⟨hcs, hlen⟩ := hsplit n h0 hn
    refine .inr (.inr ⟨k, _, _, hcs, c, _, rfl, fun b => ?_⟩)
    have hpiece : piece bare c (cs.take (n - 1) ++ cs.drop (n - 1)) =
        .ok (.token k ((cs.take (n - 1)).length + 1)) := by
      rw [← hcs, ← List.length_cons (a := c), hlen]
      exact piece_eq_token_iff.mpr ⟨htrivia, h⟩
    exact piece_milder (.refl _) hpiece

/-- What the lexer does is what the relation says: one case for each step. -/
theorem cut_of_pieces_eq {p : Place} {g cs : List Char} {t : Tokenized}
    (h : pieces p g 0 cs = .ok t) : Cut p g cs t := by
  induction hn : cs.length using Nat.strong_induction_on generalizing p g cs t with
  | _ n ih =>
    subst hn
    cases cs with
    | nil =>
      cases h
      exact .nil p g
    | cons c cs =>
      cases hpiece : piece p.bare c cs with
      | error snag =>
        rw [pieces, hpiece] at h
        cases h
      | ok q =>
        rcases piece_cases hpiece with hc | ⟨v, r, rfl, hremark⟩ | ⟨k, v, r, rfl, hmunch⟩
        · rw [pieces_blank hc] at h
          exact .blank hc (ih _ (by simp) h rfl)
        · rw [← List.cons_append, pieces_remark hremark] at h
          exact .remark hremark
            (ih _ (by rw [List.length_cons, List.length_append]; omega) h rfl)
        · rw [← List.cons_append, pieces_munch hmunch] at h
          cases hrest : pieces (p.after (c :: v)) [] 0 r with
          | error fault => rw [hrest] at h; cases h
          | ok t' =>
            rw [hrest] at h
            cases h
            exact .token hmunch
              (ih _ (by rw [List.length_cons, List.length_append]; omega) hrest rfl)

/-- The relation is what the lexer computes. -/
theorem pieces_eq_ok_iff {p : Place} {g cs : List Char} {t : Tokenized} :
    pieces p g 0 cs = .ok t ↔ Cut p g cs t :=
  ⟨cut_of_pieces_eq, Cut.pieces_eq⟩

/-! ## Texts behind one another -/

theorem Remark.ne_nil {bare : Bool} {w r : List Char} (h : Remark bare w r) : w ≠ [] := by
  obtain ⟨c, v, rfl, -⟩ := h
  exact List.cons_ne_nil c v

theorem Munch.ne_nil {k : Kind} {w r : List Char} (h : Munch k w r) : w ≠ [] := by
  obtain ⟨c, v, rfl, -⟩ := h
  exact List.cons_ne_nil c v

/-- At the end of a text there is no token, and all that is passed over stands behind the last
one. -/
theorem Cut.eq_of_nil {p : Place} {g : List Char} {t : Tokenized} (h : Cut p g [] t) :
    t = ⟨[], String.ofList g, p⟩ := by
  have := h.pieces_eq
  cases this
  rfl

/-- **A text that is cut is cut alike before a text that stands apart from it.**  A gap at its
end must not be continued: it is empty, or what follows starts a new line. -/
theorem Cut.pieces_append {p : Place} {g cs : List Char} {t : Tokenized} (h : Cut p g cs t)
    {r : List Char} (hr : LineEnd r ∨ (t.gap = "" ∧ Apart r)) :
    pieces p g 0 (cs ++ r) = (pieces t.stop t.gap.toList 0 r).map (prepend t.tokens) := by
  have hmilder : ∀ x, Milder (x ++ r) x :=
    Milder.append_apart (hr.elim LineEnd.apart fun h => h.2)
  induction h with
  | nil p g =>
    rw [List.nil_append, String.toList_ofList]
    cases pieces p g 0 r <;> rfl
  | blank hc _ ih => rw [List.cons_append, pieces_blank hc, ih hr]
  | @remark p g w r₀ t hw h ih =>
    -- A remark at the very end would leave a gap there, so then a new line follows it.
    have htransfer : LineEnd (r₀ ++ r) ∨ (r₀ ++ r).head? = r₀.head? := by
      cases r₀ with
      | cons c r₀ => exact .inr rfl
      | nil =>
        rcases hr with hr | ⟨hgap, -⟩
        · exact .inl hr
        · rw [h.eq_of_nil, String.ofList_eq_empty_iff] at hgap
          exact absurd hgap (by simp [hw.ne_nil])
    rw [List.append_assoc, pieces_remark (hw.transfer htransfer), ih hr]
  | @token p g w r₀ t k hw h ih =>
    rw [List.append_assoc, pieces_munch (hw.milder (hmilder r₀)), ih hr]
    show _ = (pieces t.stop t.gap.toList 0 r).map _
    cases pieces t.stop t.gap.toList 0 r <;> rfl

/-- **The text of the first tokens is cut into just those tokens,** and the text
behind it into the others. -/
theorem Cut.split {p : Place} {g cs : List Char} {t : Tokenized} (h : Cut p g cs t)
    {ts us : List Token} (ht : t.tokens = ts ++ us) (hts : ts ≠ []) :
    ∃ cs₁ cs₂ q, cs = cs₁ ++ cs₂ ∧ Cut p g cs₁ ⟨ts, "", q⟩ ∧
      Cut q [] cs₂ ⟨us, t.gap, t.stop⟩ := by
  induction h generalizing ts with
  | nil p g => exact absurd (List.append_eq_nil_iff.mp ht.symm).1 hts
  | blank hc _ ih =>
    obtain ⟨cs₁, cs₂, q, rfl, h₁, h₂⟩ := ih ht hts
    exact ⟨_, cs₂, q, rfl, .blank hc h₁, h₂⟩
  | @remark p g w r t hw h ih =>
    obtain ⟨cs₁, cs₂, q, rfl, h₁, h₂⟩ := ih ht hts
    have hne : cs₁ ≠ [] := by
      rintro rfl
      exact hts (congrArg Tokenized.tokens h₁.eq_of_nil)
    have hhead : cs₁.head? = (cs₁ ++ cs₂).head? := by
      obtain ⟨c, cs₁, rfl⟩ := List.exists_cons_of_ne_nil hne
      rfl
    exact ⟨w ++ cs₁, cs₂, q, by simp, .remark (hw.transfer (.inr hhead)) h₁, h₂⟩
  | @token p g w r t k hw h ih =>
    obtain ⟨u, ts, rfl⟩ := List.exists_cons_of_ne_nil hts
    obtain ⟨rfl, ht' : t.tokens = ts ++ us⟩ := List.cons.inj ht
    by_cases hts' : ts = []
    · subst hts'
      refine ⟨w, r, p.after w, rfl, ?_, ?_⟩
      · have := Cut.token (g := g) (hw.milder (.shorter List.nil_prefix)) (.nil (p.after w) [])
        rwa [List.append_nil] at this
      · obtain rfl : t.tokens = us := ht'
        exact h
    · obtain ⟨cs₁, cs₂, q, rfl, h₁, h₂⟩ := ih ht' hts'
      refine ⟨w ++ cs₁, cs₂, q, by simp, ?_, h₂⟩
      exact .token (hw.milder (.shorter (List.prefix_append _ _))) h₁

/-- What stands before the first token is trivia, and goes into its gap. -/
theorem Cut.first {p : Place} {g cs : List Char} {t : Tokenized} (h : Cut p g cs t)
    {u : Token} {us : List Token} (ht : t.tokens = u :: us) :
    ∃ v k w r, cs = v ++ (w ++ r) ∧ Munch k w r ∧ u = Lexer.token k w (g ++ v) (p.after v) ∧
      Cut (p.after (v ++ w)) [] r ⟨us, t.gap, t.stop⟩ := by
  induction h with
  | nil p g => cases ht
  | @blank p g c cs t hc _ ih =>
    obtain ⟨v, k, w, r, rfl, hw, rfl, hr⟩ := ih ht
    exact ⟨c :: v, k, w, r, rfl, hw, by simp, by simpa using hr⟩
  | @remark p g w₀ r₀ t hw₀ _ ih =>
    obtain ⟨v, k, w, r, rfl, hw, rfl, hr⟩ := ih ht
    refine ⟨w₀ ++ v, k, w, r, by simp, hw, ?_, ?_⟩
    · rw [List.append_assoc, Place.after_append]
    · rwa [List.append_assoc, Place.after_append]
  | @token p g w r t k hw h _ =>
    obtain ⟨rfl, rfl : t.tokens = us⟩ := List.cons.inj ht
    exact ⟨[], k, w, r, rfl, hw, by simp, h⟩

end SharpScript.Lexer
