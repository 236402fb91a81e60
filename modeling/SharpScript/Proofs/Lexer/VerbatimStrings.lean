import SharpScript.Proofs.Lexer.ByteOrderMark
import SharpScript.Proofs.Lexer.Respacing

/-! # Verbatim strings

A verbatim string ends at the first quote that is not doubled, whatever stands behind it.
Which form a string has is decided before its content is looked at, though: three quotes in a
row open a raw string, and a content that begins with a doubled quote makes three of them.
Such a string ends at its last quote only if the content ends as it begins.

## Main Definitions

* `VerbatimContent`: what may stand in a verbatim string;
* `RawContent`: what makes a raw string of a verbatim one;
* `verbatimString`: the string with a given content.

## Main Results

* `Lexer.munch_string`: a string is read whole if its form says that it ends there;
* `Lexer.rawRest_eq_some_iff`: a raw string ends where its quotes stand
  again for the first time;
* `Lexer.munch_verbatim_iff`: which verbatim strings are read whole;
* `Lexer.Cut.move`: a text that does not open with a directive is cut alike on
  a line that is not bare;
* `tokenize_verbatim`: **a verbatim string is one token**, before every text that can be cut
  there, if its content begins with no quote or makes a raw string of it, and not otherwise;
* `tokenize_verbatim_raw`: one whose content begins with a doubled quote.
-/

namespace SharpScript

/-- What may stand in a verbatim string: characters that are no quotes, and
quotes that are doubled. -/
inductive VerbatimContent : List Char → Prop
  | nil : VerbatimContent []
  | char {c : Char} {cs : List Char} (hc : c ≠ '"') (h : VerbatimContent cs) :
      VerbatimContent (c :: cs)
  | quotes {cs : List Char} (h : VerbatimContent cs) : VerbatimContent ('"' :: '"' :: cs)

/-- Contents that begin with quotes and end with as many, with no longer row of quotes between
them.  Together with the quotes around the content they open and close a raw string. -/
inductive RawContent : List Char → Prop
  | intro {q : Nat} {v : List Char} (hq : 0 < q) (hne : v ≠ []) (hfirst : v.head? ≠ some '"')
      (hlast : v.getLast? ≠ some '"') (hinside : ¬ List.replicate (q + 1) '"' <:+: v) :
      RawContent (List.replicate q '"' ++ (v ++ List.replicate q '"'))

/-- The verbatim string with the content `cs`. -/
def verbatimString (cs : List Char) : String := String.ofList ('@' :: '"' :: (cs ++ ['"']))

theorem RawContent.exists_ne {c : List Char} (h : RawContent c) : ∃ d ∈ c, d ≠ '"' := by
  obtain ⟨-, hne, hfirst, -, -⟩ := h
  obtain ⟨d, v, rfl⟩ := List.exists_cons_of_ne_nil hne
  exact ⟨d, by simp, fun h => hfirst (congrArg some h)⟩

namespace Lexer

/-! ## Strings of all forms -/

/-- Neither a mark nor a quote is passed over. -/
theorem trivia_quote {c : Char} {marks v w : List Char} (hmarks : ∀ c ∈ marks, isMark c = true)
    (hw : c :: w = marks ++ '"' :: v) (bare : Bool) : trivia bare (c :: w) = .ok none := by
  have hfirst : c = '$' ∨ c = '@' ∨ c = '"' := by
    cases marks with
    | nil => exact .inr (.inr (List.cons.inj hw).1)
    | cons d marks =>
      obtain rfl := (List.cons.inj hw).1
      have hmark := hmarks c List.mem_cons_self
      simp only [isMark, Bool.or_eq_true, beq_iff_eq] at hmark
      rcases hmark with rfl | rfl <;> simp
  refine trivia_eq_none_iff.mpr ?_
  rcases hfirst with rfl | rfl | rfl <;> simp [isBlank]

/-- A lexeme with a quote behind up to two marks is a string, and it is read whole just when
its form says that it ends there. -/
theorem munch_quote {k : Kind} {marks v r : List Char} (hmarks : ∀ c ∈ marks, isMark c = true)
    (hlength : marks.length ≤ 2) : Munch k (marks ++ '"' :: v) r ↔
      k = .string ∧ stringRest marks (v ++ r) = .ok (marks.length + 1 + v.length) := by
  obtain ⟨c, w, hw⟩ : ∃ c w, marks ++ '"' :: v = c :: w :=
    List.exists_cons_of_ne_nil (List.append_ne_nil_of_right_ne_nil _ (List.cons_ne_nil _ _))
  have hwhole : c :: (w ++ r) = marks ++ '"' :: (v ++ r) := by
    rw [← List.cons_append, ← hw]
    simp
  have hstarts : startsString (c :: (w ++ r)) = true :=
    startsString_iff.mpr ⟨marks, v ++ r, hwhole, hmarks, hlength⟩
  have hhead : tokenHead c (w ++ r) = (stringRest marks (v ++ r)).map (.token .string) := by
    rw [tokenHead, if_pos hstarts, hwhole, stringLength_eq hmarks]
    cases stringRest marks (v ++ r) <;> rfl
  have hcount : (marks ++ '"' :: v).length = marks.length + 1 + v.length := by
    simp only [List.length_append, List.length_cons]
    omega
  constructor
  · rintro ⟨c', w', hw', hpiece⟩
    obtain ⟨rfl, rfl⟩ := List.cons.inj (hw.symm.trans hw')
    have hread := (piece_eq_token_iff.mp (hpiece true)).2
    rw [hhead, hcount] at hread
    cases hrest : stringRest marks (v ++ r) with
    | error snag =>
      rw [hrest] at hread
      cases hread
    | ok n =>
      rw [hrest] at hread
      cases hread
      exact ⟨rfl, rfl⟩
  · rintro ⟨rfl, hrest⟩
    refine ⟨c, w, hw, fun bare => piece_eq_token_iff.mpr ⟨trivia_quote hmarks hwhole bare, ?_⟩⟩
    rw [hhead, hrest, hcount]
    rfl

/-- A string is read whole just when its form says that it ends there. -/
theorem munch_string {marks v r : List Char} (hmarks : ∀ c ∈ marks, isMark c = true)
    (hlength : marks.length ≤ 2) :
    Munch .string (marks ++ '"' :: v) r ↔
      stringRest marks (v ++ r) = .ok (marks.length + 1 + v.length) := by
  rw [munch_quote hmarks hlength, and_iff_right rfl]

/-! ## Lines that are not bare -/

theorem isBlank_of_isIndent {c : Char} (h : isIndent c = true) : isBlank c = true := by
  rcases Bool.or_eq_true _ _ ▸ h with h | h <;> simp [isBlank, h]

theorem sharpNext_cons (c : Char) (cs : List Char) :
    sharpNext (c :: cs) = if isIndent c then sharpNext cs else c == '#' := by
  cases hc : isIndent c <;> simp [sharpNext, hc]

/-- A space or a tab leaves a bare line bare, and behind any other character it is the same for
all lines whether they are bare. -/
theorem bare_step (p q : Place) (c : Char) :
    (p.step c).bare = (q.step c).bare ∨ isIndent c = true := by
  cases hc : isIndent c with
  | true => exact .inr rfl
  | false =>
    simp only [isIndent, Bool.or_eq_false_iff] at hc
    exact .inl (by simp [Place.step, hc])

/-- A remark that is no directive is one on every line. -/
theorem Remark.on_line {bare : Bool} {w r : List Char} (h : Remark bare w r)
    (hsharp : w.head? ≠ some '#') (bare' : Bool) : Remark bare' w r ∧ w.head? = some '/' := by
  obtain ⟨c, v, rfl, hblank, htrivia⟩ := h
  have hc : (c == '#') = false := beq_eq_false_iff_ne.mpr fun h => hsharp (congrArg some h)
  unfold trivia at htrivia
  split at htrivia
  · cases htrivia
  · rename_i h
    obtain ⟨rfl, h⟩ := List.cons.inj h
    exact ⟨⟨'/', v, rfl, hblank, by rw [h]; exact htrivia⟩, rfl⟩
  · rename_i h
    obtain ⟨rfl, h⟩ := List.cons.inj h
    exact ⟨⟨'/', v, rfl, hblank, by rw [h]; exact htrivia⟩, rfl⟩
  · rename_i h
    obtain ⟨rfl, rfl⟩ := List.cons.inj h
    simp [hblank, hc] at htrivia

/-- A text that does not open with a directive is cut alike on lines that
are bare and on others. -/
theorem Cut.move {p : Place} {g cs : List Char} {t : Tokenized} (h : Cut p g cs t)
    (hsharp : sharpNext cs = false) (q : Place) :
      ∃ t', Cut q g cs t' ∧ Alike t.tokens t'.tokens ∧
        t.tokens.map Token.gap = t'.tokens.map Token.gap := by
  have hshift : ∀ {p q : Place} {g cs : List Char} {t : Tokenized}, Cut p g cs t →
      p.bare = q.bare → ∃ t', Cut q g cs t' ∧ Alike t.tokens t'.tokens ∧
        t.tokens.map Token.gap = t'.tokens.map Token.gap := by
    intro p q g cs t h hbare
    obtain ⟨t', h', halike, hgaps, -⟩ := h.shift hbare
    exact ⟨t', h', halike, hgaps⟩
  induction h generalizing q with
  | nil p g => exact ⟨_, .nil q g, .refl [], rfl⟩
  | @blank p g c cs t hc h ih =>
    obtain ⟨t', h', hsame⟩ : ∃ t', Cut (q.step c) (g ++ [c]) cs t' ∧ Alike t.tokens t'.tokens ∧
        t.tokens.map Token.gap = t'.tokens.map Token.gap := by
      rcases bare_step p q c with hbare | hindent
      · exact hshift h hbare
      · rw [sharpNext_cons, if_pos hindent] at hsharp
        exact ih hsharp (q.step c)
    exact ⟨t', .blank hc h', hsame⟩
  | @remark p g w r t hw h _ =>
    have hne : w.head? ≠ some '#' := by
      intro hhead
      obtain ⟨v, rfl⟩ := List.head?_eq_some_iff.mp hhead
      exact absurd hsharp (by simp [sharpNext, isIndent])
    obtain ⟨hw', hhead⟩ := hw.on_line hne q.bare
    obtain ⟨v, rfl⟩ := List.head?_eq_some_iff.mp hhead
    obtain ⟨t', h', hsame⟩ :=
      hshift (q := q.after ('/' :: v)) h (bare_after (by simp [Place.step]) v)
    exact ⟨t', .remark hw' h', hsame⟩
  | @token p g w r t k hw h _ =>
    obtain ⟨t', h', halike, hgaps⟩ := hshift h (bare_after_of_solid hw.shape.solid p q)
    exact ⟨_, .token hw h', Alike.cons_iff.mpr ⟨rfl, halike⟩, congrArg (_ :: ·) hgaps⟩

/-- On a line that is not bare, the `#` that a text opens with is no token. -/
theorem pieces_sharp {p : Place} (hp : p.bare = false) (g : List Char) {cs : List Char}
    (h : sharpNext cs = true) :
    ∃ q, pieces p g 0 cs = .error ⟨.unexpectedCharacter '#', q⟩ := by
  induction cs generalizing p g with
  | nil => cases h
  | cons c cs ih =>
    rw [sharpNext_cons] at h
    split at h
    · rename_i hindent
      have hbare : (p.step c).bare = false := by
        have hline : (c == '\n') = false := by
          refine beq_eq_false_iff_ne.mpr ?_
          rintro rfl
          cases hindent
        simp [Place.step, hline, hp]
      rw [pieces_blank (isBlank_of_isIndent hindent)]
      exact ih hbare (g ++ [c]) h
    · obtain rfl := beq_iff_eq.mp h
      rw [pieces, hp, piece_sharp]
      exact ⟨_, rfl⟩

/-! ## Verbatim strings -/

/-- A verbatim string ends at the first quote that is not doubled. -/
theorem verbatimRest_append {cs r : List Char} (h : VerbatimContent cs)
    (hr : r.head? ≠ some '"') :
    verbatimRest (cs ++ '"' :: r) = some (cs.length + 1) := by
  induction h with
  | nil =>
    refine verbatimRest.eq_3 r fun ds hds => hr ?_
    rw [hds]
    rfl
  | @char c cs hc _ ih =>
    rw [List.cons_append, verbatimRest.eq_4 _ _ (fun _ h _ => hc h) hc, ih]
    rfl
  | quotes _ ih =>
    rw [List.cons_append, List.cons_append, verbatimRest.eq_2, ih]
    rfl

/-- What stands before the last quote of a verbatim string is its content. -/
theorem verbatimRest_eq_some {cs : List Char} {n : Nat} (h : verbatimRest cs = some n) :
    ∃ v r, VerbatimContent v ∧ cs = v ++ '"' :: r ∧ n = v.length + 1 := by
  fun_induction verbatimRest cs generalizing n with
  | case1 => cases h
  | case2 cs ih =>
    obtain ⟨m, hm, rfl⟩ := Option.map_eq_some_iff.mp h
    obtain ⟨v, r, hv, rfl, rfl⟩ := ih hm
    exact ⟨'"' :: '"' :: v, r, .quotes hv, rfl, rfl⟩
  | case3 cs _ =>
    cases h
    exact ⟨[], cs, .nil, rfl, rfl⟩
  | case4 c cs _ hquote ih =>
    obtain ⟨m, hm, rfl⟩ := Option.map_eq_some_iff.mp h
    obtain ⟨v, r, hv, rfl, rfl⟩ := ih hm
    exact ⟨c :: v, r, .char hquote hv, rfl, rfl⟩

theorem toList_verbatimString (c : List Char) :
    (verbatimString c).toList = ['@'] ++ '"' :: (c ++ ['"']) := by
  simp [verbatimString]

/-- Before a text that begins with no quote, a content that begins with none has at most one
quote before it that is not its own. -/
theorem munch_verbatim {c r : List Char} (h : VerbatimContent c) (hfirst : c.head? ≠ some '"')
    (hr : r.head? ≠ some '"') : Munch .string (verbatimString c).toList r := by
  have hrun : ¬ 2 ≤ run (· == '"') (c ++ '"' :: r) := by
    cases c with
    | nil =>
      cases r with
      | nil => simp [run_cons]
      | cons d r =>
        have hd : d ≠ '"' := fun h => hr (congrArg some h)
        simp [run_cons, hd]
    | cons d c =>
      have hd : d ≠ '"' := fun h => hfirst (congrArg some h)
      simp [run_cons, hd]
  rw [toList_verbatimString]
  refine (munch_string (by simp [isMark]) (by simp)).mpr ?_
  rw [List.append_assoc, List.singleton_append, stringRest, if_neg hrun, if_neg (by simp),
    if_pos (by simp), verbatimRest_append h hr]
  simp

/-- Where no trivia comes next, a token is cut off. -/
theorem Cut.munch {p : Place} {g cs : List Char} {t : Tokenized} (h : Cut p g cs t)
    (hne : cs ≠ []) (htrivia : ∀ bare, trivia bare cs = .ok none) :
    ∃ k w r t', cs = w ++ r ∧ Munch k w r ∧ t = prepend [Lexer.token k w g p] t' := by
  cases h with
  | nil => exact absurd rfl hne
  | blank hc _ =>
    have hblank := (trivia_eq_none_iff.mp (htrivia true)).2.2.1
    rw [hc] at hblank
    cases hblank
  | remark hw _ =>
    obtain ⟨d, v, rfl, -, hremark⟩ := hw
    rw [← List.cons_append, htrivia] at hremark
    cases hremark
  | token hw _ => exact ⟨_, _, _, _, rfl, hw, rfl⟩

/-! ## Raw strings -/

/-- A raw string ends where its quotes stand again for the first time. -/
theorem rawRest_eq_some_iff {k n : Nat} (hk : 0 < k) {cs : List Char} : rawRest k cs = some n ↔
    ∃ v r, cs = v ++ (List.replicate k '"' ++ r) ∧ n = v.length + k ∧
      ∀ v' r', cs = v' ++ (List.replicate k '"' ++ r') → v.length ≤ v'.length := by
  induction cs generalizing n with
  | nil =>
    constructor
    · intro h
      cases h
    · rintro ⟨v, r, h, -⟩
      have hlength := congrArg List.length h
      simp only [List.length_nil, List.length_append, List.length_replicate] at hlength
      omega
  | cons c cs ih =>
    rw [rawRest]
    by_cases hhere : (List.replicate k '"').isPrefixOf (c :: cs) = true
    · obtain ⟨r, hr⟩ := List.isPrefixOf_iff_prefix.mp hhere
      rw [if_pos hhere]
      constructor
      · rintro ⟨⟩
        exact ⟨[], r, hr.symm, (Nat.zero_add k).symm, fun _ _ _ => Nat.zero_le _⟩
      · rintro ⟨v, r', h, rfl, hleast⟩
        obtain rfl :
            v = [] := List.length_eq_zero_iff.mp (Nat.le_zero.mp (hleast [] r hr.symm))
        rw [List.length_nil, Nat.zero_add]
    · have hlater : ∀ r', c :: cs ≠ [] ++ (List.replicate k '"' ++ r') := fun r' h =>
        hhere (List.isPrefixOf_iff_prefix.mpr ⟨r', h.symm⟩)
      rw [if_neg hhere]
      constructor
      · intro h
        obtain ⟨m, hm, rfl⟩ := Option.map_eq_some_iff.mp h
        obtain ⟨v, r, rfl, rfl, hleast⟩ := ih.mp hm
        refine ⟨c :: v, r, rfl, by rw [List.length_cons]; omega, fun v' r' h' => ?_⟩
        cases v' with
        | nil => exact absurd h' (hlater r')
        | cons d v' => exact Nat.succ_le_succ (hleast v' r' (List.cons.inj h').2)
      · rintro ⟨v, r, h, rfl, hleast⟩
        cases v with
        | nil => exact absurd h (hlater r)
        | cons d v =>
          obtain ⟨rfl, rfl⟩ := List.cons.inj h
          have hrest := ih.mpr ⟨v, r, rfl, rfl, fun v' r' h' =>
            Nat.le_of_succ_le_succ (hleast (c :: v') r' (congrArg (c :: ·) h'))⟩
          rw [hrest, Option.map_some, List.length_cons]
          congr 1
          omega

/-- The quotes that close a raw string stand nowhere before. -/
theorem rawRest_append {q : Nat} {v : List Char} (hlast : v.getLast? ≠ some '"')
    (hinside : ¬ List.replicate (q + 1) '"' <:+: v) (r : List Char) :
    rawRest (q + 1) (v ++ (List.replicate (q + 1) '"' ++ r)) = some (v.length + (q + 1)) := by
  refine (rawRest_eq_some_iff (Nat.succ_pos q)).mpr ⟨v, r, rfl, rfl, fun v' r' h => ?_⟩
  by_contra hlt
  obtain ⟨w, rfl, hw⟩ : ∃ w, v = v' ++ w ∧
      List.replicate (q + 1) '"' ++ r' = w ++ (List.replicate (q + 1) '"' ++ r) := by
    rcases List.append_eq_append_iff.mp h with ⟨w, rfl, -⟩ | h
    · simp at hlt
    · exact h
  rcases List.append_eq_append_iff.mp hw with ⟨u, rfl, -⟩ | ⟨u, hu, -⟩
  · exact hinside ⟨v', u, by simp⟩
  · -- Fewer quotes are left in `v` than a raw string is closed with, so `v` ends with one of
    -- them.
    refine hlast ?_
    have hne : w ≠ [] := by
      rintro rfl
      simp at hlt
    have hquote : w.getLast hne = '"' := by
      refine List.eq_of_mem_replicate (n := q + 1) ?_
      rw [hu]
      exact List.mem_append_left _ (List.getLast_mem hne)
    rw [List.getLast?_append_of_ne_nil _ hne, List.getLast?_eq_getLast_of_ne_nil hne, hquote]

theorem run_quotes {w : List Char} (hw : w.head? ≠ some '"') (q : Nat) :
    run (· == '"') (List.replicate q '"' ++ w) = q := by
  induction q with
  | zero =>
    cases w with
    | nil => rfl
    | cons d w =>
      have hd : d ≠ '"' := fun h => hw (congrArg some h)
      simp [run_cons, hd]
  | succ q ih =>
    rw [List.replicate_succ, List.cons_append, run_cons, if_pos (beq_self_eq_true _), ih]

/-- A content begins with quotes, with something else behind them. -/
theorem exists_quotes (c : List Char) :
    ∃ q w, c = List.replicate q '"' ++ w ∧ w.head? ≠ some '"' := by
  induction c with
  | nil => exact ⟨0, [], rfl, by simp⟩
  | cons d c ih =>
    by_cases hd : d = '"'
    · obtain ⟨q, w, rfl, hw⟩ := ih
      exact ⟨q + 1, w, by rw [hd, List.replicate_succ, List.cons_append], hw⟩
    · exact ⟨0, d :: c, rfl, by simpa using hd⟩

/-- Behind an opening quote, two or more quotes open a raw string. -/
theorem stringRest_quotes {q n : Nat} (hq : 2 ≤ q) {w : List Char} (hw : w.head? ≠ some '"')
    (marks : List Char) : stringRest marks (List.replicate q '"' ++ w) = .ok n ↔
      ∃ m, rawRest (q + 1) w = some m ∧ n = marks.length + (q + 1) + m := by
  rw [stringRest, run_quotes hw, if_pos hq, List.drop_left' List.length_replicate,
    Nat.add_comm 1 q]
  cases rawRest (q + 1) w with
  | none => simp
  | some m => simp [eq_comm]

/-- A raw string that ends with the last quote of a verbatim one ends as it begins. -/
theorem rawContent_of_rawRest {q : Nat} (hq : 0 < q) {w r : List Char}
    (hw : w.head? ≠ some '"') (h : rawRest (q + 1) (w ++ '"' :: r) = some (w.length + 1)) :
    RawContent (List.replicate q '"' ++ w) := by
  obtain ⟨v, r', hsplit, hlength, hleast⟩ := (rawRest_eq_some_iff (Nat.succ_pos q)).mp h
  obtain ⟨rfl, rfl⟩ : w = v ++ List.replicate q '"' ∧ r = r' := by
    have hcons : w ++ '"' :: r = (w ++ ['"']) ++ r := by simp
    have hquotes : v ++ (List.replicate (q + 1) '"' ++ r') =
        (v ++ List.replicate q '"' ++ ['"']) ++ r' := by
      simp [List.replicate_succ']
    have hcount : (w ++ ['"']).length = (v ++ List.replicate q '"' ++ ['"']).length := by
      simp only [List.length_append, List.length_replicate, List.length_singleton]
      omega
    rw [hcons, hquotes] at hsplit
    obtain ⟨hw, hr⟩ := List.append_inj hsplit hcount
    exact ⟨List.append_cancel_right hw, hr⟩
  have hv : v ≠ [] := by
    rintro rfl
    obtain ⟨q, rfl⟩ := Nat.exists_eq_add_of_lt hq
    exact hw (by simp [List.replicate_succ])
  refine .intro hq hv ?_ (fun hlast => ?_) fun hinside => ?_
  · rwa [List.head?_append_of_ne_nil _ hv] at hw
  · obtain ⟨v₀, rfl⟩ := List.getLast?_eq_some_iff.mp hlast
    have hbefore := hleast v₀ ('"' :: r) (by simp [List.replicate_succ])
    rw [List.length_append, List.length_singleton] at hbefore
    omega
  · obtain ⟨v₁, v₂, hinside⟩ := hinside
    have hbefore := hleast v₁ (v₂ ++ (List.replicate (q + 1) '"' ++ r)) (by
      rw [hsplit, ← hinside]
      simp)
    have hcount := congrArg List.length hinside
    simp only [List.length_append, List.length_replicate] at hcount
    omega

/-- A content that ends as it begins makes a raw string that ends with the last quote. -/
theorem rawRest_of_rawContent {q : Nat} {w : List Char} (hw : w.head? ≠ some '"')
    (h : RawContent (List.replicate q '"' ++ w)) (r : List Char) :
    rawRest (q + 1) (w ++ '"' :: r) = some (w.length + 1) := by
  generalize hc : List.replicate q '"' ++ w = c at h
  obtain @⟨q', v, hq', hv, hfirst, hlast, hinside⟩ := h
  have hhead : (v ++ List.replicate q' '"').head? ≠ some '"' := by
    rwa [List.head?_append_of_ne_nil _ hv]
  obtain rfl : q = q' := by
    have hrun := congrArg (run (· == '"')) hc
    rwa [run_quotes hw, run_quotes hhead] at hrun
  obtain rfl := List.append_cancel_left hc
  have hraw := rawRest_append hlast hinside r
  simpa [List.replicate_succ', Nat.add_assoc] using hraw

/-- **A verbatim string ends at its last quote** just when its content begins with no quote, or
ends with the quotes of a raw string. -/
theorem munch_verbatim_iff {c r : List Char} (h : VerbatimContent c)
    (hr : r.head? ≠ some '"') :
    Munch .string (verbatimString c).toList r ↔ c.head? ≠ some '"' ∨ RawContent c := by
  by_cases hfirst : c.head? = some '"'
  · rw [or_iff_right (not_not.mpr hfirst), toList_verbatimString,
      munch_string (by simp [isMark]) (by simp), List.append_assoc, List.singleton_append]
    have htwo : 2 ≤ run (· == '"') c := by
      cases h with
      | nil => cases hfirst
      | char hc _ => exact absurd (Option.some.inj hfirst) hc
      | quotes _ => simp [run_cons]
    obtain ⟨q, w, rfl, hw⟩ := exists_quotes c
    rw [run_quotes hw] at htwo
    by_cases hne : w = []
    · -- All quotes open a raw string, so that it would have to end before the last one of
      -- them.
      subst hne
      refine iff_of_false (fun hrest => ?_) fun hraw => ?_
      · have hquotes : List.replicate q '"' ++ [] ++ '"' :: r =
            List.replicate (q + 1) '"' ++ r := by
          simp [List.replicate_succ']
        rw [hquotes, stringRest_quotes (by omega) hr] at hrest
        obtain ⟨m, hm, hlength⟩ := hrest
        have hpos := rawRest_pos (by omega) hm
        simp only [List.append_nil, List.length_append, List.length_replicate,
          List.length_singleton] at hlength
        omega
      · obtain ⟨d, hd, hquote⟩ := hraw.exists_ne
        rw [List.append_nil] at hd
        exact hquote (List.eq_of_mem_replicate hd)
    · have hhead : (w ++ '"' :: r).head? ≠ some '"' := by
        rwa [List.head?_append_of_ne_nil _ hne]
      rw [List.append_assoc, stringRest_quotes htwo hhead]
      simp only [List.length_append, List.length_replicate, List.length_singleton]
      constructor
      · rintro ⟨m, hm, hlength⟩
        obtain rfl : m = w.length + 1 := by omega
        exact rawContent_of_rawRest (by omega) hw hm
      · intro hraw
        exact ⟨_, rawRest_of_rawContent hw hraw r, by omega⟩
  · exact iff_of_true (munch_verbatim h hfirst hr) (.inl hfirst)

end Lexer

open Lexer

/-- **A verbatim string is one token, and the text behind it is cut as it is alone**, if its
content begins with no quote or makes a raw string of it, and if the text behind it begins with
no quote.  Only a directive cannot follow it, since it would have to begin a line.  With any
other content the first token is not the verbatim string. -/
theorem tokenize_verbatim {c : List Char} {r : String} {t : Tokenized} (hc : VerbatimContent c)
    (hr : r.toList.head? ≠ some '"') (ht : tokenize r = .ok t) :
    (c.head? ≠ some '"' ∨ RawContent c →
      (opensWithDirective r = false → ∃ t' u us, tokenize (verbatimString c ++ r) = .ok t' ∧
        t'.tokens = u :: us ∧ u.kind = .string ∧ u.place = .start ∧
        u.span (verbatimString c ++ r) = verbatimString c ∧ Shifted t.tokens us) ∧
      (opensWithDirective r = true → ∃ f, tokenize (verbatimString c ++ r) = .error f ∧
        f.flaw = .unexpectedCharacter '#')) ∧
    (¬ (c.head? ≠ some '"' ∨ RawContent c) → ∀ t' u us,
      tokenize (verbatimString c ++ r) = .ok t' → t'.tokens = u :: us →
      u.span (verbatimString c ++ r) ≠ verbatimString c) := by
  rw [← munch_verbatim_iff hc hr]
  refine ⟨fun hmunch => ⟨fun hline => ?_, fun hline => ?_⟩,
    fun hnot t' u us ht' hu hspan => ?_⟩
  · obtain ⟨t', hcut, halike, hgaps⟩ := (cut_of_pieces_eq ht).move hline
      (Place.start.after (verbatimString c).toList)
    have hwhole := (Cut.token (p := .start) (g := []) hmunch hcut).pieces_eq
    rw [← String.toList_append] at hwhole
    have hspan := map_span (s := verbatimString c ++ r) hwhole
    refine ⟨_, _, _, hwhole, rfl, rfl, rfl, ?_, halike, ?_⟩
    · rw [(List.cons.inj hspan).1, lexeme_token hmunch.shape, String.ofList_toList]
    · show t.tokens.tail.map Token.gap = t'.tokens.tail.map Token.gap
      rw [List.map_tail, hgaps, ← List.map_tail]
  · have hbare : (Place.start.after (verbatimString c).toList).bare = false := by
      simp [verbatimString, Place.after_append, Place.step]
    obtain ⟨q, hq⟩ := pieces_sharp hbare [] hline
    refine ⟨⟨.unexpectedCharacter '#', q⟩, ?_, rfl⟩
    rw [tokenize, String.toList_append, pieces_munch hmunch, hq]
    rfl
  · have htrivia : ∀ bare, trivia bare (verbatimString c ++ r).toList = .ok none :=
      fun bare => by
      rw [String.toList_append, toList_verbatimString]
      exact trivia_eq_none_iff.mpr (by simp [isBlank])
    obtain ⟨k, w, r', t'', hsplit, hw, rfl⟩ :=
      (cut_of_pieces_eq ht').munch (by simp [verbatimString]) htrivia
    obtain ⟨rfl, -⟩ := List.cons.inj hu
    have hlexeme := (List.cons.inj (map_span ht')).1
    rw [hspan, lexeme_token hw.shape] at hlexeme
    obtain rfl : w = (verbatimString c).toList := by rw [hlexeme, String.toList_ofList]
    rw [String.toList_append] at hsplit
    obtain rfl := List.append_cancel_left hsplit
    refine hnot ?_
    rw [toList_verbatimString] at hw ⊢
    obtain ⟨rfl, -⟩ := (munch_quote (by simp [isMark]) (by simp)).mp hw
    exact hw

/-- Doubled quotes inside a content and at its end, and a content that makes a raw string. -/
theorem tokenize_verbatim_quoted :
    VerbatimContent "C:\\\"\"x\"\"".toList ∧ (∃ t t' u us, tokenize ";" = .ok t ∧
      tokenize ("@\"C:\\\"\"x\"\"\"" ++ ";") = .ok t' ∧ t'.tokens = u :: us ∧
      u.kind = .string ∧ u.span ("@\"C:\\\"\"x\"\"\"" ++ ";") = "@\"C:\\\"\"x\"\"\"" ∧
      Shifted t.tokens us) ∧
    RawContent "\"\"a\"\"".toList ∧ ∃ t u us, tokenize ("@\"\"\"a\"\"\"" ++ ";") = .ok t ∧
      t.tokens = u :: us ∧ u.span ("@\"\"\"a\"\"\"" ++ ";") = "@\"\"\"a\"\"\"" := by
  obtain ⟨t, ht⟩ : ∃ t, tokenize ";" = .ok t := ⟨_, rfl⟩
  have hc : VerbatimContent "C:\\\"\"x\"\"".toList :=
    .char (by decide) (.char (by decide) (.char (by decide) (.quotes (.char (by decide)
      (.quotes .nil)))))
  have hd : VerbatimContent "\"\"a\"\"".toList := .quotes (.char (by decide) (.quotes .nil))
  have hraw : RawContent "\"\"a\"\"".toList :=
    .intro (q := 2) (v := ['a']) (by decide) (by decide) (by decide) (by decide) (by decide)
  obtain ⟨t', u, us, ht', htokens, hkind, -, hspan, hshift⟩ :=
    ((tokenize_verbatim (r := ";") hc (by decide) ht).1 (.inl (by decide))).1 rfl
  obtain ⟨t'', v, vs, ht'', hvs, -, -, hspan', -⟩ :=
    ((tokenize_verbatim (r := ";") hd (by decide) ht).1 (.inr hraw)).1 rfl
  exact ⟨hc, ⟨t, t', u, us, ht, ht', htokens, hkind, hspan, hshift⟩, hraw, t'', v, vs, ht'',
    hvs, hspan'⟩

/-- The content of `@"""a"` begins with a doubled quote, and a raw string is looked for. -/
theorem tokenize_verbatim_raw :
    VerbatimContent ['"', '"', 'a'] ∧ verbatimString ['"', '"', 'a'] = "@\"\"\"a\"" ∧
      tokenize "@\"\"\"a\"" = .error ⟨.unterminatedRawString, .start⟩ :=
  ⟨.quotes (.char (by decide) .nil), rfl, rfl⟩

end SharpScript
