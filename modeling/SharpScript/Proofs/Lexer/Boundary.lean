import Mathlib.Data.List.Basic
import Mathlib.Data.List.TakeWhile
import SharpScript.Token.Lexer

/-! # Where a token ends

The lexer decides how long a token is by looking at the characters behind it.  What it looks
for there are characters that would make the token longer, and blanks, brackets, commas and
semicolons never do.  So a token keeps its length when the text behind it is cut short, and
when such a character is put at the end of the text.

## Main Definitions

* `isApart`, `Apart`: characters that belong to no token begun before them;
* `Milder`: a text that offers a token no more to go on with than another text does;
* `Local`: a length that is the same before every milder text.

## Main Results

* `Milder.shorter`, `Milder.append_apart`: the two ways to get a milder text;
* `piece_milder`: a token has the same kind and length before every milder text.
-/

namespace SharpScript.Lexer

open Text (isDigit isLetter)

/-! ## Milder texts -/

/-- The blanks, the brackets, the comma and the semicolon. -/
def apartChars : List Char :=
  [' ', '\t', '\r', '\n', '\ufeff', '(', ')', '[', ']', '{', '}', ',', ';']

/-- The characters that belong to no token begun before them. -/
def isApart (c : Char) : Bool := apartChars.contains c

/-- A class of characters that none of `apartChars` is in has no
character that stands apart. -/
theorem not_isApart {p : Char → Bool} (hp : (apartChars.all fun c => !p c) = true) {c : Char}
    (hc : p c = true) : isApart c = false := by
  rw [Bool.eq_false_iff]
  intro h
  have := List.all_eq_true.mp hp c (List.contains_iff_mem.mp h)
  simp [hc] at this

/-- A text that is empty or starts with a character that belongs to no
token begun before it. -/
def Apart (r : List Char) : Prop := ∀ c, r.head? = some c → isApart c = true

/-- Whatever a token might go on with at the head of `z` also stands at the head of `x`. -/
def Milder (z x : List Char) : Prop :=
  ∀ q : List Char, (∀ c ∈ q, isApart c = false) → q <+: z → q <+: x

/-- A text is as mild as itself. -/
theorem Milder.refl (x : List Char) : Milder x x := fun _ _ h => h

/-- A text is milder when it is cut short. -/
theorem Milder.shorter {z x : List Char} (h : z <+: x) : Milder z x :=
  fun _ _ hq => hq.trans h

/-- A text is milder behind the same characters. -/
theorem Milder.append {z x : List Char} (h : Milder z x) (w : List Char) :
    Milder (w ++ z) (w ++ x) := by
  intro q hq hz
  rcases List.prefix_or_prefix_of_prefix hz (List.prefix_append w z) with hw | hw
  · exact hw.trans (List.prefix_append w x)
  · obtain ⟨r, rfl⟩ := hw
    rw [List.prefix_append_right_inj] at hz ⊢
    exact h r (fun c hc => hq c (by simp [hc])) hz

/-- A text is milder when it is made longer by one that stands apart. -/
theorem Milder.append_apart {r : List Char} (h : Apart r) (x : List Char) :
    Milder (x ++ r) x := by
  have hr : Milder r [] := by
    intro q hq hz
    cases q with
    | nil => exact List.prefix_rfl
    | cons c q =>
      have hhead : r.head? = some c := by
        obtain ⟨s, rfl⟩ := hz
        rfl
      have := h c hhead
      simp [hq c (by simp)] at this
  simpa using hr.append x

/-- A character that could belong to a token comes next in the milder text only if it does in
the other one. -/
theorem Milder.head {z x : List Char} (h : Milder z x) {c : Char} (hc : isApart c = false)
    (hz : z.head? = some c) : x.head? = some c := by
  obtain ⟨r, rfl⟩ := List.head?_eq_some_iff.mp hz
  obtain ⟨s, hs⟩ := h [c] (by simpa using hc) ⟨r, rfl⟩
  rw [← hs]
  rfl

/-- A length that is the same before every milder text. -/
def Local (g : List Char → Nat) : Prop :=
  ∀ w x z : List Char, Milder z x → g (w ++ x) ≤ w.length → g (w ++ z) = g (w ++ x)

/-! ## Runs of characters -/

@[simp] theorem run_nil (p : Char → Bool) : run p [] = 0 := rfl

/-- A run goes on as long as the characters are of the sort. -/
theorem run_cons (p : Char → Bool) (c : Char) (cs : List Char) :
    run p (c :: cs) = if p c then run p cs + 1 else 0 := by
  cases h : p c <;> simp [run, h]

/-- A run is no longer than the text. -/
theorem run_le_length (p : Char → Bool) (cs : List Char) : run p cs ≤ cs.length :=
  (List.takeWhile_prefix p).length_le

/-- A run of characters none of which stands apart has the same length before a milder text. -/
theorem run_local {p : Char → Bool} (hp : ∀ c, p c = true → isApart c = false) :
    Local (run p) := by
  intro w x z hm
  induction w with
  | nil =>
    intro h
    have hx : run p x = 0 := by simpa using h
    cases z with
    | nil => simp [hx]
    | cons c z =>
      by_cases hc : p c = true
      · obtain ⟨r, hr⟩ := List.head?_eq_some_iff.mp (hm.head (hp c hc) rfl)
        rw [hr, run_cons, if_pos hc] at hx
        omega
      · simp [hx, run_cons, hc]
  | cons c w ih =>
    intro h
    simp only [List.cons_append, run_cons] at h ⊢
    by_cases hc : p c = true
    · simp only [hc, if_true, List.length_cons] at h ⊢
      rw [ih (by omega)]
    · simp [hc]

/-- The length `g` counts one of the words `Q` and then a run, and is zero if none
of them stands ahead. -/
structure WordRun (Q : List Char → Prop) (p : Char → Bool) (g : List Char → Nat) : Prop where
  counts : ∀ q r, Q q → g (q ++ r) = q.length + run p r
  zero : ∀ l, (∀ q, Q q → ¬ q <+: l) → g l = 0

/-- A run behind a fixed start is local, if no character of the start or of the run stands
apart. -/
theorem WordRun.isLocal {g : List Char → Nat} {p : Char → Bool} {Q : List Char → Prop}
    (hg : WordRun Q p g) (hrun : Local (run p))
    (hfree : ∀ q, Q q → ∀ c ∈ q, isApart c = false) :
    Local g := by
  obtain ⟨hyes, hno⟩ := hg
  intro w x z hm h
  by_cases hx : ∃ q, Q q ∧ q <+: w ++ x
  · obtain ⟨q, hq, r, hr⟩ := hx
    rw [← hr, hyes q r hq] at h
    obtain ⟨v, rfl⟩ : q <+: w :=
      List.prefix_of_prefix_length_le ⟨r, hr⟩ (List.prefix_append w x) (by omega)
    rw [List.append_assoc, List.append_assoc, hyes q _ hq, hyes q _ hq]
    rw [List.append_assoc, List.append_cancel_left_eq] at hr
    subst hr
    rw [List.length_append] at h
    rw [hrun v x z hm (by omega)]
  · rw [not_exists] at hx
    have hzero : g (w ++ x) = 0 := hno _ fun q hq hw => hx q ⟨hq, hw⟩
    rw [hzero]
    exact hno _ fun q hq hw => hx q ⟨hq, hm.append w q (hfree q hq) hw⟩

/-! ## Numbers -/

/-- No character of a word stands apart, so that words end where something does that stands
apart. -/
theorem isWordPart_not_isApart {c : Char} (h : isWordPart c = true) : isApart c = false :=
  not_isApart (p := isWordPart) (by decide +kernel) h

theorem isDigit_not_isApart {c : Char} (h : isDigit c = true) : isApart c = false :=
  not_isApart (p := isDigit) (by decide) h

theorem run_digit_local : Local (run isDigit) := run_local fun _ => isDigit_not_isApart

theorem run_digitPart_local : Local (run isDigitPart) :=
  run_local fun _ => not_isApart (p := isDigitPart) (by decide)

theorem run_suffix_local : Local (run isSuffix) :=
  run_local fun _ => not_isApart (p := isSuffix) (by decide)

theorem run_wordPart_local :
    Local (run isWordPart) := run_local fun _ => isWordPart_not_isApart

/-- Whether a digit comes next. -/
theorem digitNext_iff {cs : List Char} :
    digitNext cs = true ↔ ∃ d ds, cs = d :: ds ∧ isDigit d = true := by
  cases cs <;> simp [digitNext]

/-- What a fraction starts with: a point and a digit. -/
def StartsFraction (q : List Char) : Prop := ∃ d, isDigit d = true ∧ q = ['.', d]

/-- A fraction is a point and a digit, and a run behind them. -/
theorem fractionLength_wordRun : WordRun StartsFraction isDigitPart fractionLength := by
  constructor
  · rintro _ r ⟨d, hd, rfl⟩
    simp [fractionLength, digitNext, hd, run_cons, isDigitPart]
    omega
  · intro l hl
    unfold fractionLength
    split
    · rename_i ds
      split
      · rename_i hd
        obtain ⟨d, ds, rfl, hd'⟩ := digitNext_iff.mp hd
        exact absurd ⟨ds, rfl⟩ (hl ['.', d] ⟨d, hd', rfl⟩)
      · rfl
    · rfl

theorem fractionLength_local : Local fractionLength := by
  refine fractionLength_wordRun.isLocal run_digitPart_local ?_
  rintro _ ⟨d, hd, rfl⟩ c hc
  rcases List.mem_pair.mp hc with rfl | rfl
  · decide
  · exact isDigit_not_isApart hd

/-- What an exponent starts with: its letter, a sign or none, and a digit. -/
def StartsExponent (q : List Char) : Prop :=
  ∃ e d, (e = 'e' ∨ e = 'E') ∧ isDigit d = true ∧
    (q = [e, d] ∨ q = [e, '+', d] ∨ q = [e, '-', d])

/-- An exponent is a letter, a sign or none and a digit, and a run behind them. -/
theorem exponentLength_wordRun : WordRun StartsExponent isDigit exponentLength := by
  constructor
  · rintro _ r ⟨e, d, he, hd, hq⟩
    have he' : (e == 'e' || e == 'E') = true := by rcases he with rfl | rfl <;> rfl
    have hsign : digitNext ('+' :: d :: r) = false ∧ digitNext ('-' :: d :: r) = false :=
      ⟨rfl, rfl⟩
    rcases hq with rfl | rfl | rfl <;>
      simp only [List.cons_append, List.nil_append, exponentLength, he', if_true, hsign] <;>
      simp [digitNext, hd, run_cons] <;> omega
  · intro l hl
    unfold exponentLength
    split
    · rename_i e cs
      split
      · rename_i he
        have he' : e = 'e' ∨ e = 'E' := by simpa using he
        split
        · rename_i hd
          obtain ⟨d, ds, rfl, hd'⟩ := digitNext_iff.mp hd
          exact absurd ⟨ds, rfl⟩ (hl [e, d] ⟨e, d, he', hd', .inl rfl⟩)
        · split
          · rename_i sign ds _
            split
            · rename_i hs
              rw [Bool.and_eq_true, digitNext_iff] at hs
              obtain ⟨hs, d, ds, rfl, hd⟩ := hs
              have hs' : sign = '+' ∨ sign = '-' := by simpa using hs
              rcases hs' with rfl | rfl
              · exact absurd ⟨ds, rfl⟩ (hl [e, '+', d] ⟨e, d, he', hd, .inr (.inl rfl)⟩)
              · exact absurd ⟨ds, rfl⟩ (hl [e, '-', d] ⟨e, d, he', hd, .inr (.inr rfl)⟩)
            · rfl
          · rfl
      · rfl
    · rfl

theorem exponentLength_local : Local exponentLength := by
  refine exponentLength_wordRun.isLocal run_digit_local ?_
  rintro _ ⟨e, d, he, hd, hq⟩
  have he' : isApart e = false := by rcases he with rfl | rfl <;> decide
  have hd' := isDigit_not_isApart hd
  have hsign : isApart '+' = false ∧ isApart '-' = false := by decide
  rcases hq with rfl | rfl | rfl <;> simp [he', hd', hsign]

/-- The length `g` and, behind it, the length `h`. -/
def andThen (g h : List Char → Nat) (cs : List Char) : Nat := g cs + h (cs.drop (g cs))

/-- Two lengths behind one another. -/
theorem Local.andThen {g h : List Char → Nat} (hg : Local g) (hh : Local h) :
    Local (andThen g h) := by
  intro w x z hm hle
  unfold Lexer.andThen at hle ⊢
  have hgz := hg w x z hm (by omega)
  rw [hgz]
  rw [List.drop_append_of_le_length (by omega)] at hle ⊢
  rw [List.drop_append_of_le_length (by omega)]
  rw [hh _ x z hm (by rw [List.length_drop]; omega)]

theorem decimalLength_local : Local decimalLength :=
  ((run_digitPart_local.andThen fractionLength_local).andThen exponentLength_local).andThen
    run_suffix_local

/-- The letters that give a number its base. -/
def isBase (c : Char) : Bool := ['x', 'X', 'b', 'B'].contains c

/-- A number with a base is a run of word characters. -/
theorem numberLength_of_base {b : Char} (hb : isBase b = true) (ds : List Char) :
    numberLength ('0' :: b :: ds) = 2 + run isWordPart ds :=
  if_pos hb

/-- Any other number is a decimal one. -/
theorem numberLength_of_not_base {l : List Char}
    (h : ∀ b, isBase b = true → ¬ ['0', b] <+: l) :
    numberLength l = decimalLength l := by
  unfold numberLength
  split
  · rename_i b ds
    split
    · rename_i hb
      exact absurd ⟨ds, rfl⟩ (h b hb)
    · rfl
  · rfl

/-- **The length of a number does not depend on what comes behind it**, if that stands apart.
-/
theorem numberLength_local : Local numberLength := by
  intro w x z hm h
  by_cases hx : ∃ b, isBase b = true ∧ ['0', b] <+: w ++ x
  · obtain ⟨b, hb, r, hr⟩ := hx
    rw [← hr] at h
    simp only [List.cons_append, List.nil_append, numberLength_of_base hb] at h
    obtain ⟨v, rfl⟩ : ['0', b] <+: w :=
      List.prefix_of_prefix_length_le ⟨r, hr⟩ (List.prefix_append w x) (by simp; omega)
    simp only [List.cons_append, List.nil_append, List.cons.injEq, true_and] at hr
    subst hr
    simp only [List.cons_append, List.nil_append, List.length_cons] at h ⊢
    rw [numberLength_of_base hb, numberLength_of_base hb,
      run_wordPart_local v x z hm (by omega)]
  · rw [not_exists] at hx
    have hfree : ∀ b, isBase b = true → ∀ c ∈ ['0', b], isApart c = false := by
      intro b hb c hc
      rcases List.mem_pair.mp hc with rfl | rfl
      · decide
      · exact not_isApart (p := isBase) (by decide) hb
    rw [numberLength_of_not_base fun b hb hw => hx b ⟨hb, hw⟩] at h ⊢
    rw [numberLength_of_not_base fun b hb hw => hx b ⟨hb, hm.append w _ (hfree b hb) hw⟩]
    exact decimalLength_local w x z hm h

/-! ## Operators -/

/-- An operator is one character, or none of its characters stands apart. -/
theorem operators_free : ∀ op ∈ operators,
    op.toList.length = 1 ∨ ∀ c ∈ op.toList, isApart c = false := by
  have hall : (operators.all fun op => op.toList.length == 1 ||
      op.toList.all fun c => !isApart c) = true := by
    decide
  intro op hop
  simpa using List.all_eq_true.mp hall op hop

/-- The operator at the head of a text is the same before a milder text. -/
theorem operatorLength?_milder {w x z : List Char} (hw : w ≠ []) (hm : Milder z x)
    (h : operatorLength? (w ++ x) = some w.length) :
    operatorLength? (w ++ z) = some w.length := by
  unfold operatorLength? at h ⊢
  obtain ⟨op, hop, hlen⟩ := Option.map_eq_some_iff.mp h
  obtain ⟨hpre, before, after, hops, hbefore⟩ := List.find?_eq_some_iff_append.mp hop
  rw [List.isPrefixOf_iff_prefix] at hpre
  rw [← String.length_toList] at hlen
  have hopw : op.toList = w :=
    (List.prefix_of_prefix_length_le hpre (List.prefix_append w x)
      (Nat.le_of_eq hlen)).eq_of_length hlen
  refine Option.map_eq_some_iff.mpr ⟨op, ?_, by rw [← hlen, String.length_toList]⟩
  refine List.find?_eq_some_iff_append.mpr ⟨?_, before, after, hops, ?_⟩
  · rw [List.isPrefixOf_iff_prefix, hopw]
    exact List.prefix_append w z
  · intro a ha
    have hno := hbefore a ha
    rw [Bool.not_eq_true', Bool.eq_false_iff, Ne, List.isPrefixOf_iff_prefix] at hno ⊢
    intro haz
    apply hno
    rcases operators_free a (by rw [hops]; simp [ha]) with hone | hfree
    · exact (List.prefix_of_prefix_length_le haz (List.prefix_append w z)
        (by rw [hone]; exact List.length_pos_iff.mpr hw)).trans (List.prefix_append w x)
    · exact hm.append w _ hfree haz

/-! ## Literals -/

theorem quote_not_isApart : isApart '"' = false := by decide

/-- A literal has a quote at its end, so what is left of it has a length. -/
theorem quotedRest_pos {q : Char} {cs : List Char} {n : Nat} (h : quotedRest q cs = some n) :
    0 < n := by
  fun_induction quotedRest q cs <;> simp_all <;> omega

/-- A character that is no backslash ends the literal, breaks it off or belongs to it. -/
theorem quotedRest_cons {q c : Char} (hc : c ≠ '\\') (cs : List Char) :
    quotedRest q (c :: cs) =
      if c == '\n' then none else if c == q then some 1 else (quotedRest q cs).map (· + 1) :=
  quotedRest.eq_3 q c cs fun _ _ h _ => hc h

/-- Where a literal of one line ends depends on its own characters alone. -/
theorem quotedRest_local {q : Char} (hq : q ≠ '\\') {w x : List Char} (z : List Char) {n : Nat}
    (h : quotedRest q (w ++ x) = some n) (hn : n ≤ w.length) :
    quotedRest q (w ++ z) = some n := by
  have hpos := quotedRest_pos h
  generalize hl : w ++ x = l at h
  fun_induction quotedRest q l generalizing w n with
  | case1 => cases h
  | case2 head cs ih =>
    obtain ⟨m, hm, rfl⟩ := Option.map_eq_some_iff.mp h
    match w, hn, hl with
    | c :: d :: w, hn, hl =>
      obtain ⟨rfl, rfl, rfl⟩ := by simpa using hl
      have hm' := ih (by simpa using hn) (quotedRest_pos hm) rfl hm
      simp [quotedRest, hm']
  | case3 => cases h
  | case4 c cs hback hline hquote =>
    cases h
    obtain ⟨d, w, rfl⟩ := List.exists_cons_of_length_pos hn
    obtain ⟨rfl, rfl⟩ := by simpa using hl
    rw [List.cons_append, quotedRest_cons (by simpa using (beq_iff_eq.mp hquote) ▸ hq),
      if_neg hline, if_pos hquote]
  | case5 c cs hback hline hquote ih =>
    obtain ⟨m, hm, rfl⟩ := Option.map_eq_some_iff.mp h
    obtain ⟨d, w, rfl⟩ := List.exists_cons_of_length_pos (Nat.lt_of_lt_of_le hpos hn)
    obtain ⟨rfl, rfl⟩ := by simpa using hl
    -- A lone backslash would stand at the very end, where nothing closes the literal.
    have hc : d ≠ '\\' := by
      rintro rfl
      cases hcs : w ++ x with
      | nil => simp [hcs, quotedRest] at hm
      | cons e es => exact hback e es rfl hcs
    rw [List.cons_append, quotedRest_cons hc, if_neg hline, if_neg hquote,
      ih (by simpa using hn) (quotedRest_pos hm) rfl hm]
    rfl

theorem verbatimRest_pos {cs : List Char} {n : Nat} (h : verbatimRest cs = some n) :
    0 < n := by
  fun_induction verbatimRest cs <;> simp_all <;> omega

/-- A verbatim string ends at the same quote before a milder text, which does not double it. -/
theorem verbatimRest_local {w x z : List Char} (hm : Milder z x) {n : Nat}
    (h : verbatimRest (w ++ x) = some n) (hn : n ≤ w.length) :
    verbatimRest (w ++ z) = some n := by
  have hpos := verbatimRest_pos h
  generalize hl : w ++ x = l at h
  fun_induction verbatimRest l generalizing w n with
  | case1 => cases h
  | case2 cs ih =>
    obtain ⟨m, hm, rfl⟩ := Option.map_eq_some_iff.mp h
    match w, hn, hl with
    | c :: d :: w, hn, hl =>
      obtain ⟨rfl, rfl, rfl⟩ := by simpa using hl
      have hm' := ih (by simpa using hn) (verbatimRest_pos hm) rfl hm
      simp [verbatimRest, hm']
  | case3 tail hsingle =>
    cases h
    obtain ⟨d, w, rfl⟩ := List.exists_cons_of_length_pos hn
    obtain ⟨rfl, rfl⟩ := by simpa using hl
    refine verbatimRest.eq_3 _ fun cs hcs => ?_
    have := hm.append w ['"'] (by simpa using quote_not_isApart) ⟨cs, by simpa using hcs.symm⟩
    obtain ⟨ds, hds⟩ := this
    exact hsingle ds (by simpa using hds.symm)
  | case4 head cs hdouble hquote ih =>
    obtain ⟨m, hm, rfl⟩ := Option.map_eq_some_iff.mp h
    obtain ⟨d, w, rfl⟩ := List.exists_cons_of_length_pos (Nat.lt_of_lt_of_le hpos hn)
    obtain ⟨rfl, rfl⟩ := by simpa using hl
    have hm' := ih (by simpa using hn) (verbatimRest_pos hm) rfl hm
    rw [List.cons_append, verbatimRest.eq_4 _ _ (fun _ h _ => hquote h) hquote, hm']
    rfl

theorem rawRest_pos {k : Nat} (hk : 0 < k) {cs : List Char} {n : Nat}
    (h : rawRest k cs = some n) :
    0 < n := by
  cases cs with
  | nil => cases h
  | cons c cs =>
    rw [rawRest] at h
    split at h
    · cases h
      exact hk
    · obtain ⟨m, -, rfl⟩ := Option.map_eq_some_iff.mp h
      omega

/-- A raw string ends at the same run of quotes before a milder text. -/
theorem rawRest_local {k : Nat} (hk : 0 < k) {w x z : List Char} (hm : Milder z x) {n : Nat}
    (h : rawRest k (w ++ x) = some n) (hn : n ≤ w.length) : rawRest k (w ++ z) = some n := by
  induction w generalizing n with
  | nil =>
    have := rawRest_pos hk h
    simp at hn
    omega
  | cons c w ih =>
    rw [List.cons_append, rawRest] at h ⊢
    have hfree : ∀ d ∈ List.replicate k '"', isApart d = false := by
      intro d hd
      rw [List.eq_of_mem_replicate hd]
      exact quote_not_isApart
    split at h
    · rename_i hpre
      cases h
      rw [List.isPrefixOf_iff_prefix] at hpre
      have hcw : List.replicate k '"' <+: c :: w :=
        List.prefix_of_prefix_length_le hpre (List.prefix_append (c :: w) x)
          (by simpa using hn)
      exact if_pos (List.isPrefixOf_iff_prefix.mpr (hcw.trans (List.prefix_append (c :: w) z)))
    · rename_i hpre
      rw [List.isPrefixOf_iff_prefix] at hpre
      obtain ⟨m, hm', rfl⟩ := Option.map_eq_some_iff.mp h
      have hno : ¬ (List.replicate k '"').isPrefixOf (c :: (w ++ z)) = true := by
        rw [List.isPrefixOf_iff_prefix]
        exact fun hz => hpre (hm.append (c :: w) _ hfree hz)
      rw [if_neg hno, ih hm' (by simpa using hn)]
      rfl

/-- An interpolated string ends behind the characters that are passed over. -/
theorem lt_interpolatedRest {v : Bool} {depth skip n m : Nat} {cs : List Char}
    (h : interpolatedRest v depth skip n cs = .ok m) : n + skip < m := by
  fun_induction interpolatedRest v depth skip n cs <;> grind

section Interpolated

variable {v : Bool} {c : Char} {w x z : List Char} {n m : Nat}

/-- What is read before a milder text behind the character `c` outside of holes, if all that is
read behind `c` is read there too. -/
theorem interpolatedRest_text (hm : Milder z x)
    (step : ∀ {d s}, interpolatedRest v d s (n + 1) (w ++ x) = .ok m →
      interpolatedRest v d s (n + 1) (w ++ z) = .ok m ∧ (w ++ z).head? = (w ++ x).head?)
    (h : interpolatedRest v 0 0 n (c :: (w ++ x)) = .ok m) :
    interpolatedRest v 0 0 n (c :: (w ++ z)) = .ok m := by
  rw [interpolatedRest] at h ⊢
  split_ifs at h with hline hbrace hnext hback hquote hdouble
  · rw [if_neg hline, if_pos hbrace, if_pos (by rwa [(step h).2])]
    exact (step h).1
  · rw [if_neg hline, if_pos hbrace, if_neg (by rwa [(step h).2])]
    exact (step h).1
  · rw [if_neg hline, if_neg hbrace, if_pos hback]
    exact (step h).1
  · rw [if_neg hline, if_neg hbrace, if_neg hback, if_pos hquote, if_pos (by rwa [(step h).2])]
    exact (step h).1
  · -- The quote ends the string, since it is not doubled in the milder text either.
    rw [if_neg hline, if_neg hbrace, if_neg hback, if_pos hquote, if_neg, h]
    rw [Bool.and_eq_true, beq_iff_eq] at hdouble ⊢
    rintro ⟨hv, hz⟩
    exact hdouble ⟨hv, (hm.append w).head quote_not_isApart hz⟩
  · rw [if_neg hline, if_neg hbrace, if_neg hback, if_neg hquote]
    exact (step h).1

/-- What is read before a milder text behind the character `c` in a hole, if all that is read
behind `c` is read there too. -/
theorem interpolatedRest_inHole {depth : Nat} (hn : m ≤ n + (w.length + 1))
    (step : ∀ {d s}, interpolatedRest v d s (n + 1) (w ++ x) = .ok m →
      interpolatedRest v d s (n + 1) (w ++ z) = .ok m)
    (h : interpolatedRest v (depth + 1) 0 n (c :: (w ++ x)) = .ok m) :
    interpolatedRest v (depth + 1) 0 n (c :: (w ++ z)) = .ok m := by
  rw [interpolatedRest] at h ⊢
  split_ifs at h with hopen hclose hquote
  · rw [if_pos hopen, step h]
  · rw [if_neg hopen, if_pos hclose, step h]
  · rw [if_neg hopen, if_neg hclose, if_pos hquote]
    cases hk : quotedRest c (w ++ x) with
    | none => rw [hk] at h; cases h
    | some k =>
      rw [hk] at h
      have hend := lt_interpolatedRest h
      have hc : c ≠ '\\' := by
        rintro rfl
        simp at hquote
      rw [quotedRest_local hc z hk (by omega)]
      exact step h
  · rw [if_neg hopen, if_neg hclose, if_neg hquote, step h]

/-- An interpolated string ends at the same quote before a milder text. -/
theorem interpolatedRest_local (hm : Milder z x) {depth skip : Nat}
    (h : interpolatedRest v depth skip n (w ++ x) = .ok m) (hn : m ≤ n + w.length) :
    interpolatedRest v depth skip n (w ++ z) = .ok m := by
  have hlt := lt_interpolatedRest h
  induction w generalizing depth skip n with
  | nil =>
    simp at hn
    omega
  | cons c w ih =>
    rw [List.length_cons] at hn
    have step : ∀ {d s}, interpolatedRest v d s (n + 1) (w ++ x) = .ok m →
        interpolatedRest v d s (n + 1) (w ++ z) = .ok m := fun h' =>
      ih h' (by omega) (lt_interpolatedRest h')
    -- A test on the character behind `c` sees the same one, since the
    -- string goes on behind `c`.
    have hhead : ∀ {d s}, interpolatedRest v d s (n + 1) (w ++ x) = .ok m →
        (w ++ z).head? = (w ++ x).head? := by
      intro d s h'
      have := lt_interpolatedRest h'
      cases w with
      | nil => simp at hn; omega
      | cons d w => rfl
    rw [List.cons_append] at h ⊢
    cases skip with
    | succ skip => exact step h
    | zero =>
      cases depth with
      | zero => exact interpolatedRest_text hm (fun h' => ⟨step h', hhead h'⟩) h
      | succ depth => exact interpolatedRest_inHole hn step h

end Interpolated

/-- A string literal starts where a quote stands behind at most two marks. -/
theorem startsString_iff {cs : List Char} : startsString cs = true ↔
    ∃ marks rest, cs = marks ++ '"' :: rest ∧ (∀ c ∈ marks, isMark c = true) ∧
      marks.length ≤ 2 := by
  rw [startsString, Bool.and_eq_true, decide_eq_true_eq, beq_iff_eq]
  constructor
  · rintro ⟨hlen, hquote⟩
    obtain ⟨rest, hrest⟩ := List.head?_eq_some_iff.mp hquote
    refine ⟨cs.takeWhile isMark, rest, ?_, fun c hc => List.mem_takeWhile_imp hc, hlen⟩
    rw [← hrest, List.takeWhile_append_dropWhile]
  · rintro ⟨marks, rest, rfl, hmarks, hlen⟩
    have hstop : isMark '"' = false := rfl
    rw [run, List.takeWhile_append_of_pos hmarks, List.dropWhile_append_of_pos hmarks]
    simp [hstop, hlen]

/-- The rest of a string literal behind its opening quote, given its marks. -/
def stringRest (marks rest : List Char) : Except Snag Nat :=
  if 2 ≤ run (· == '"') rest then
    match rawRest (1 + run (· == '"') rest) (rest.drop (run (· == '"') rest)) with
    | some n => .ok (marks.length + (1 + run (· == '"') rest) + n)
    | none => .error ⟨0, .unterminatedRawString⟩
  else if marks.contains '$' then
    interpolatedRest (marks.contains '@') 0 0 (marks.length + 1) rest
  else
    match if marks.contains '@' then verbatimRest rest else quotedRest '"' rest with
    | some n => .ok (marks.length + 1 + n)
    | none => .error ⟨0, .unterminatedString⟩

/-- Marks before a quote belong to the string, whose form they decide. -/
theorem stringLength_eq {marks : List Char} (hmarks : ∀ c ∈ marks, isMark c = true)
    (rest : List Char) : stringLength (marks ++ '"' :: rest) = stringRest marks rest := by
  have htake : (marks ++ '"' :: rest).takeWhile isMark = marks := by
    rw [List.takeWhile_append_of_pos hmarks]
    simp [isMark]
  have hdrop : (marks ++ '"' :: rest).dropWhile isMark = '"' :: rest := by
    rw [List.dropWhile_append_of_pos hmarks]
    simp [isMark]
  have hquotes : run (· == '"') ('"' :: rest) = 1 + run (· == '"') rest := by
    rw [run_cons, if_pos (beq_self_eq_true _), Nat.add_comm]
  have hthree : 3 ≤ 1 + run (· == '"') rest ↔ 2 ≤ run (· == '"') rest := by omega
  have hraw :
      ('"' :: rest).drop (1 + run (· == '"') rest) = rest.drop (run (· == '"') rest) := by
    rw [Nat.add_comm, List.drop_succ_cons]
  simp only [stringLength, htake, hdrop, hquotes, hthree, hraw,
    List.drop_succ_cons, List.drop_zero]
  rfl

/-- A string literal goes on behind its opening quote. -/
theorem lt_stringRest {marks rest : List Char} {n : Nat} (h : stringRest marks rest = .ok n) :
    marks.length + 1 < n := by
  unfold stringRest at h
  split at h
  · split at h
    · cases h
      omega
    · cases h
  · split at h
    · have := lt_interpolatedRest h
      omega
    · split at h
      · rename_i m hm
        cases h
        have : 0 < m := by
          split at hm
          · exact verbatimRest_pos hm
          · exact quotedRest_pos hm
        omega
      · cases h

/-- **A string that ends somewhere ends there before every milder text.** -/
theorem stringRest_local {marks v x z : List Char} (hm : Milder z x)
    (h : stringRest marks (v ++ x) = .ok (marks.length + 1 + v.length)) :
    stringRest marks (v ++ z) = .ok (marks.length + 1 + v.length) := by
  have hv := lt_stringRest h
  have hquote : Local (run (· == '"')) := run_local fun c hc => by
    rw [beq_iff_eq.mp hc]
    exact quote_not_isApart
  unfold stringRest at h ⊢
  split at h
  · rename_i hraw
    split at h
    · rename_i n hn
      have hlen : marks.length + (1 + run (· == '"') (v ++ x)) + n =
          marks.length + 1 + v.length := by simpa using h
      have hrun := hquote v x z hm (by omega)
      rw [hrun, if_pos hraw]
      rw [List.drop_append_of_le_length (by omega)] at hn ⊢
      rw [rawRest_local (by omega) hm hn (by rw [List.length_drop]; omega)]
      exact congrArg _ hlen
    · cases h
  · rename_i hraw
    rw [hquote v x z hm (by omega), if_neg hraw]
    split at h
    · rename_i hdollar
      rw [if_pos hdollar, interpolatedRest_local hm h (Nat.le_refl _)]
    · rename_i hdollar
      rw [if_neg hdollar]
      split at h
      · rename_i n hn
        have hlen : n = v.length := by simpa using h
        split at hn
        · rename_i hat
          rw [if_pos hat, verbatimRest_local hm hn hlen.le]
          exact h
        · rename_i hat
          rw [if_neg hat, quotedRest_local (by decide) z hn hlen.le]
          exact h
      · cases h

/-- A string literal is one before a milder text too, and as long. -/
theorem stringLength_milder {w x z : List Char} (hm : Milder z x)
    (hs : startsString (w ++ x) = true) (h : stringLength (w ++ x) = .ok w.length) :
    startsString (w ++ z) = true ∧ stringLength (w ++ z) = .ok w.length := by
  obtain ⟨marks, rest, hw, hmarks, hlen⟩ := startsString_iff.mp hs
  rw [hw, stringLength_eq hmarks] at h
  have hlt := lt_stringRest h
  obtain ⟨v, rfl⟩ : marks ++ ['"'] <+: w :=
    List.prefix_of_prefix_length_le ⟨rest, by rw [hw]; simp⟩ (List.prefix_append w x)
      (by simp; omega)
  have hrest : rest = v ++ x := by simpa using hw.symm
  subst hrest
  have hcount : (marks ++ ['"'] ++ v).length = marks.length + 1 + v.length := by
    simp only [List.length_append, List.length_singleton]
  rw [hcount] at h ⊢
  have heq : marks ++ ['"'] ++ v ++ z = marks ++ '"' :: (v ++ z) := by simp
  rw [heq]
  refine ⟨startsString_iff.mpr ⟨marks, v ++ z, rfl, hmarks, hlen⟩, ?_⟩
  rw [stringLength_eq hmarks]
  exact stringRest_local hm h

/-- A milder text starts a string literal only if the other one does. -/
theorem Milder.startsString {z x : List Char} (hm : Milder z x) (hz : startsString z = true) :
    startsString x = true := by
  obtain ⟨marks, rest, rfl, hmarks, hlen⟩ := startsString_iff.mp hz
  obtain ⟨rest', hx⟩ := hm (marks ++ ['"']) (by
    intro c hc
    rcases List.mem_append.mp hc with hc | hc
    · exact not_isApart (p := isMark) (by decide) (hmarks c hc)
    · rw [List.mem_singleton.mp hc]
      exact quote_not_isApart) ⟨rest, by simp⟩
  exact startsString_iff.mpr ⟨marks, rest', by rw [← hx]; simp, hmarks, hlen⟩

/-! ## Tokens -/

/-- No trivia stands at the head of a text that starts neither with a comment, nor with a
blank, nor with a directive on a bare line. -/
theorem trivia_eq_none_iff {bare : Bool} {c : Char} {cs : List Char} :
    trivia bare (c :: cs) = .ok none ↔
      ¬ ['/', '/'] <+: c :: cs ∧ ¬ ['/', '*'] <+: c :: cs ∧ isBlank c = false ∧
        (c == '#' && bare) = false := by
  unfold trivia
  split
  · rename_i h
    cases h
  · rename_i h
    simp [h]
  · rename_i h
    rw [h]
    constructor
    · intro h'
      split at h' <;> cases h'
    · rintro ⟨-, h', -⟩
      exact absurd ⟨_, rfl⟩ h'
  · rename_i hline hblock h
    obtain ⟨rfl, rfl⟩ := List.cons.inj h
    have hline' : ¬ ['/', '/'] <+: c :: cs := fun ⟨r, hr⟩ =>
      hline r (List.cons.inj hr).1.symm (List.cons.inj hr).2.symm
    have hblock' : ¬ ['/', '*'] <+: c :: cs := fun ⟨r, hr⟩ =>
      hblock r (List.cons.inj hr).1.symm (List.cons.inj hr).2.symm
    cases hblank : isBlank c <;> cases hsharp : (c == '#' && bare) <;> simp [hline', hblock']

/-- The token at the head of a text where no trivia stands. -/
def tokenHead (c : Char) (cs : List Char) : Except Snag Piece :=
  if startsString (c :: cs) then do return .token .string (← stringLength (c :: cs))
  else if c == '\'' then do return .token .character (← characterLength cs)
  else if startsNumber (c :: cs) then return .token .number (numberLength (c :: cs))
  else wordOrOperator c cs

/-- A piece is trivia if there is some, and a token otherwise. -/
theorem piece_eq {bare : Bool} {c : Char} {cs : List Char} :
    piece bare c cs = match trivia bare (c :: cs) with
      | .error snag => .error snag
      | .ok (some n) => .ok (.trivia n)
      | .ok none => tokenHead c cs := by
  unfold piece tokenHead
  cases trivia bare (c :: cs) with
  | error snag => rfl
  | ok n => cases n <;> rfl

theorem piece_eq_token_iff {bare : Bool} {c : Char} {cs : List Char} {k : Kind} {n : Nat} :
    piece bare c cs = .ok (.token k n) ↔
      trivia bare (c :: cs) = .ok none ∧ tokenHead c cs = .ok (.token k n) := by
  rw [piece_eq]
  rcases trivia bare (c :: cs) with snag | _ | n <;> simp

/-- A run that ends with a word is the word. -/
theorem takeWhile_of_run_eq {p : Char → Bool} {w x : List Char}
    (h : run p (w ++ x) = w.length) :
    (w ++ x).takeWhile p = w :=
  (List.prefix_of_prefix_length_le (List.takeWhile_prefix p) (List.prefix_append w x)
    (Nat.le_of_eq h)).eq_of_length h

/-- A point before a digit begins a number, not an operator. -/
theorem two_le_numberLength_of_point {cs : List Char} (h : digitNext cs = true) :
    2 ≤ numberLength ('.' :: cs) := by
  obtain ⟨d, ds, rfl, hd⟩ := digitNext_iff.mp h
  have hfraction : fractionLength ('.' :: d :: ds) = 2 + run isDigitPart ds := by
    simp [fractionLength, digitNext, hd, run_cons, isDigitPart]
    omega
  have hwhole : run isDigitPart ('.' :: d :: ds) = 0 := rfl
  show 2 ≤ decimalLength ('.' :: d :: ds)
  simp only [decimalLength, hwhole, List.drop_zero, hfraction]
  omega

/-- A number starts before a milder text as it does before the other one. -/
theorem startsNumber_milder {c : Char} {w x z : List Char} (hm : Milder z x)
    (hlen : startsNumber (c :: (w ++ x)) = true →
      numberLength (c :: (w ++ x)) = w.length + 1) :
    startsNumber (c :: (w ++ z)) = startsNumber (c :: (w ++ x)) := by
  by_cases hc : c = '.'
  · subst hc
    show digitNext (w ++ z) = digitNext (w ++ x)
    cases w with
    | cons d w => rfl
    | nil =>
      have hx : digitNext x = false := by
        rw [Bool.eq_false_iff]
        intro hx
        have := two_le_numberLength_of_point hx
        have := hlen hx
        simp only [List.nil_append, List.length_nil] at this
        omega
      have hz : digitNext z = false := by
        rw [Bool.eq_false_iff]
        intro hz
        obtain ⟨d, ds, rfl, hd⟩ := digitNext_iff.mp hz
        have hxd := hm.head (isDigit_not_isApart hd) rfl
        rw [digitNext, hxd] at hx
        simp [hd] at hx
      rw [List.nil_append, List.nil_append, hx, hz]
  · have hstart : ∀ cs, startsNumber (c :: cs) = isDigit c := by
      intro cs
      rw [startsNumber.eq_2 _ (fun _ h => hc (List.cons.inj h).1)]
      rfl
    rw [hstart, hstart]

/-- A word or an operator is the same before a milder text. -/
theorem wordOrOperator_milder {c : Char} {w x z : List Char} {k : Kind} (hm : Milder z x)
    (h : wordOrOperator c (w ++ x) = .ok (.token k (w.length + 1))) :
    wordOrOperator c (w ++ z) = .ok (.token k (w.length + 1)) := by
  have hwords : run isWordPart (w ++ x) = w.length →
      run isWordPart (w ++ z) = w.length ∧ (w ++ z).takeWhile isWordPart = w ∧
        (w ++ x).takeWhile isWordPart = w := by
    intro hrun
    have hz : run isWordPart (w ++ z) = w.length :=
      (run_wordPart_local w x z hm (Nat.le_of_eq hrun)).trans hrun
    exact ⟨hz, takeWhile_of_run_eq hz, takeWhile_of_run_eq hrun⟩
  unfold wordOrOperator at h ⊢
  split at h
  · rename_i hc
    simp only [Except.ok.injEq, Piece.token.injEq] at h
    obtain ⟨hz, htz, htx⟩ := hwords (by omega)
    have hpart : isWordPart c = true := by simp [isWordPart, hc]
    rw [if_pos hc, hz, List.takeWhile_cons_of_pos hpart, htz, ← h.1,
      List.takeWhile_cons_of_pos hpart, htx, Nat.add_comm]
  · rename_i hc
    rw [if_neg hc]
    split at h
    · rename_i hat
      simp only [Except.ok.injEq, Piece.token.injEq] at h
      obtain ⟨hz, -, -⟩ := hwords (by omega)
      rw [Bool.and_eq_true] at hat
      have hw : w ≠ [] := by
        rintro rfl
        cases x with
        | nil => simp at hat
        | cons d x =>
          have hd : isWordPart d = true := by
            simp [isWordPart, show isWordStart d = true from hat.2]
          simp [run_cons, hd] at h
      rw [if_pos, hz, ← h.1, Nat.add_comm]
      rw [Bool.and_eq_true]
      refine ⟨hat.1, ?_⟩
      cases w with
      | nil => exact absurd rfl hw
      | cons d w => exact hat.2
    · rename_i hat
      split at h
      · rename_i n hn
        simp only [Except.ok.injEq, Piece.token.injEq] at h
        obtain ⟨rfl, rfl⟩ := h
        have hop := operatorLength?_milder (w := c :: w) (by simp) hm (by simpa using hn)
        rw [if_neg]
        · simp only [List.cons_append, List.length_cons] at hop
          rw [hop]
        · intro hat'
          rw [Bool.and_eq_true, beq_iff_eq] at hat'
          rw [hat'.1] at hn
          simp [operatorLength?, operators] at hn
      · cases h

/-- **A token is the same before a milder text.** -/
theorem tokenHead_milder {c : Char} {w x z : List Char} {k : Kind} (hm : Milder z x)
    (h : tokenHead c (w ++ x) = .ok (.token k (w.length + 1))) :
    tokenHead c (w ++ z) = .ok (.token k (w.length + 1)) := by
  unfold tokenHead at h ⊢
  split at h
  · rename_i hs
    cases hlen : stringLength (c :: (w ++ x)) with
    | error snag => rw [hlen] at h; cases h
    | ok n =>
      rw [hlen] at h
      cases h
      obtain ⟨hs', hlen'⟩ := stringLength_milder (w := c :: w) hm hs hlen
      rw [List.cons_append] at hs' hlen'
      rw [if_pos hs', hlen']
      rfl
  · rename_i hs
    have hs' : ¬ startsString (c :: (w ++ z)) = true := fun hz =>
      hs ((hm.append (c :: w)).startsString hz)
    rw [if_neg hs']
    split at h
    · rename_i hquote
      rw [if_pos hquote]
      unfold characterLength at h ⊢
      cases hrest : quotedRest '\'' (w ++ x) with
      | none => rw [hrest] at h; cases h
      | some n =>
        rw [hrest] at h
        simp only [pure, Except.pure, bind, Except.bind, Except.ok.injEq,
          Piece.token.injEq] at h
        rw [quotedRest_local (by decide) z hrest (by omega), ← h.1, ← h.2]
        rfl
    · rename_i hquote
      rw [if_neg hquote]
      by_cases hnumber : startsNumber (c :: (w ++ x)) = true
      · rw [if_pos hnumber] at h
        simp only [pure, Except.pure, Except.ok.injEq, Piece.token.injEq] at h
        rw [startsNumber_milder hm fun _ => h.2, if_pos hnumber, ← h.1]
        have := numberLength_local (c :: w) x z hm (by simpa using Nat.le_of_eq h.2)
        rw [List.cons_append, List.cons_append] at this
        rw [this, h.2]
        rfl
      · rw [if_neg hnumber] at h
        rw [startsNumber_milder hm fun h' => absurd h' hnumber, if_neg hnumber]
        exact wordOrOperator_milder hm h

/-- The sign of a directive begins no token. -/
theorem tokenHead_sharp (cs : List Char) :
    tokenHead '#' cs = .error ⟨0, .unexpectedCharacter '#'⟩ := by
  have hstring : startsString ('#' :: cs) = false := by simp [startsString, isMark]
  have hoperator : operatorLength? ('#' :: cs) = none := by simp [operatorLength?, operators]
  have hnumber : startsNumber ('#' :: cs) = false := rfl
  have hword : isWordStart '#' = false := by decide
  simp [tokenHead, hstring, hnumber, wordOrOperator, hword, hoperator]

/-- **A token ends where it does before every milder text.**  Whether its line is bare does not
matter either, since no token starts with the sign of a directive. -/
theorem piece_milder {b b' : Bool} {c : Char} {w x z : List Char} {k : Kind} (hm : Milder z x)
    (h : piece b c (w ++ x) = .ok (.token k (w.length + 1))) :
    piece b' c (w ++ z) = .ok (.token k (w.length + 1)) := by
  obtain ⟨htrivia, htoken⟩ := piece_eq_token_iff.mp h
  rw [trivia_eq_none_iff] at htrivia
  refine piece_eq_token_iff.mpr ⟨trivia_eq_none_iff.mpr ?_, tokenHead_milder hm htoken⟩
  have hm' := hm.append (c :: w)
  have hsharp : c ≠ '#' := by
    rintro rfl
    rw [tokenHead_sharp] at htoken
    cases htoken
  have hline : ∀ d ∈ ['/', '/'], isApart d = false := by simp [isApart, apartChars]
  have hblock : ∀ d ∈ ['/', '*'], isApart d = false := by simp [isApart, apartChars]
  exact ⟨fun hz => htrivia.1 (hm' _ hline hz), fun hz => htrivia.2.1 (hm' _ hblock hz),
    htrivia.2.2.1, by simp [hsharp]⟩

end SharpScript.Lexer
