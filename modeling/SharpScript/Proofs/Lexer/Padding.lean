import SharpScript.Proofs.Lexer.Boundary

/-! # Equals signs that are repeated

A text may have more equals signs behind the ones that it has.  Words, numbers, literals and
comments then still end where they did.

## Main Definitions

* `Padded cs ds`: `ds` is `cs` with some equals signs repeated;
* `SteadyLength`: a length that leaves a padded text what it left before, padded;
* `StopsAlike`, `Steady`: scanners that end in a padded text where they ended before.

## Main Results

* `WordRun.steadyLength`, `SteadyLength.andThen`: lengths of numbers and their parts;
* `steady_of_step`: **scanners that take `=` as any other character are steady**;
* `stringRest_padded`: string literals end alike.
-/

namespace SharpScript.Lexer

open Text (isDigit)

theorem replicate_append_cons {α : Type} (k : Nat) (a : α) (l : List α) :
    List.replicate k a ++ a :: l = a :: (List.replicate k a ++ l) := by
  rw [← List.cons_append, ← List.replicate_succ, List.replicate_succ', List.append_assoc]
  rfl

/-- The text `ds` is `cs` with some of its equals signs repeated. -/
inductive Padded : List Char → List Char → Prop
  | nil : Padded [] []
  | cons (c : Char) {cs ds : List Char} (h : Padded cs ds) : Padded (c :: cs) (c :: ds)
  | again {cs ds : List Char} (h : Padded ('=' :: cs) ds) : Padded ('=' :: cs) ('=' :: ds)

namespace Padded

variable {cs ds w x y : List Char}

/-- A text may be padded again. -/
theorem trans {es : List Char} (h : Padded cs ds) (h' : Padded ds es) : Padded cs es := by
  induction h' generalizing cs with
  | nil => exact h
  | cons c _ ih =>
    cases h with
    | cons _ h => exact .cons c (ih h)
    | again h => exact .again (ih h)
  | again _ ih =>
    cases h with
    | cons _ h => exact .again (ih (.cons '=' h))
    | again h => exact .again (ih (.again h))

/-- The first character is the same. -/
theorem head?_eq (h : Padded cs ds) : ds.head? = cs.head? := by
  cases h <;> rfl

/-- Before the first character of a text, only equals signs are put in. -/
theorem of_cons {c : Char} (h : Padded (c :: cs) ds) :
    ∃ k ds', ds = List.replicate k '=' ++ c :: ds' ∧ Padded cs ds' ∧ (k = 0 ∨ c = '=') := by
  generalize hl : c :: cs = l at h
  induction h with
  | nil => cases hl
  | cons c h =>
    obtain ⟨rfl, rfl⟩ := List.cons.inj hl
    exact ⟨0, _, rfl, h, .inl rfl⟩
  | again h ih =>
    obtain ⟨k, ds', rfl, h', -⟩ := ih hl
    exact ⟨k + 1, ds',
      by rw [List.replicate_succ, List.cons_append], h', .inr (List.cons.inj hl).1⟩

/-- A character other than `=` stands as it is, and what is behind it is padded. -/
theorem of_cons_of_ne {c : Char} (hc : c ≠ '=') (h : Padded (c :: cs) ds) :
    ∃ ds', ds = c :: ds' ∧ Padded cs ds' := by
  obtain ⟨k, ds', rfl, h', rfl | heq⟩ := h.of_cons
  · exact ⟨ds', rfl, h'⟩
  · exact absurd heq hc

/-- Without its first character, a text is padded behind some equals signs. -/
theorem drop_one (h : Padded cs ds) :
    ∃ k ds', ds.drop 1 = List.replicate k '=' ++ ds' ∧ Padded (cs.drop 1) ds' := by
  cases cs with
  | nil =>
    cases h
    exact ⟨0, [], rfl, .nil⟩
  | cons c cs =>
    obtain ⟨k, ds', rfl, h', rfl | rfl⟩ := h.of_cons
    · exact ⟨0, ds', rfl, h'⟩
    · exact ⟨k, ds', by rw [replicate_append_cons]; rfl, h'⟩

/-- A text without equals signs stands at the head of a padded text as it did before. -/
theorem of_append (hw : '=' ∉ w) (h : Padded (w ++ x) ds) : ∃ y, ds = w ++ y ∧ Padded x y := by
  induction w generalizing ds with
  | nil => exact ⟨ds, rfl, h⟩
  | cons c w ih =>
    rw [List.mem_cons, not_or] at hw
    obtain ⟨ds', rfl, h'⟩ := of_cons_of_ne (Ne.symm hw.1) h
    obtain ⟨y, rfl, hy⟩ := ih hw.2 h'
    exact ⟨y, rfl, hy⟩

/-- A text without `=` at the start of a padded one is there before. -/
theorem of_append_padded (hw : '=' ∉ w) (h : Padded cs (w ++ y)) :
    ∃ x, cs = w ++ x ∧ Padded x y := by
  induction w generalizing cs with
  | nil => exact ⟨cs, rfl, h⟩
  | cons c w ih =>
    rw [List.mem_cons, not_or] at hw
    cases h with
    | cons _ h =>
      obtain ⟨x, rfl, hx⟩ := ih hw.2 h
      exact ⟨x, rfl, hx⟩
    | again h => exact absurd rfl hw.1

/-- A text that has an equals sign at most at its end stands at the head of a padded text
just if it did so before. -/
theorem prefix_iff (hw : '=' ∉ w.dropLast) (h : Padded cs ds) : w <+: ds ↔ w <+: cs := by
  rcases List.eq_nil_or_concat w with rfl | ⟨v, c, rfl⟩
  · simp
  · rw [List.concat_eq_append, List.dropLast_concat] at hw
    rw [List.concat_eq_append]
    have hhead : ∀ l : List Char, v ++ [c] <+: v ++ l ↔ l.head? = some c := by
      intro l
      rw [List.prefix_append_right_inj]
      cases l <;> simp [eq_comm]
    constructor
    · rintro ⟨r, rfl⟩
      rw [List.append_assoc] at h
      obtain ⟨x, rfl, hx⟩ := of_append_padded hw h
      rw [hhead, ← hx.head?_eq]
      rfl
    · rintro ⟨r, rfl⟩
      rw [List.append_assoc] at h
      obtain ⟨y, rfl, hy⟩ := of_append hw h
      rw [hhead, hy.head?_eq]
      rfl

/-- So whether a text begins with it does not depend on the padding. -/
theorem prefix_iff_of_notMem (hw : '=' ∉ w) (h : Padded cs ds) : w <+: ds ↔ w <+: cs :=
  h.prefix_iff fun hmem => hw ((List.dropLast_sublist w).subset hmem)

/-- What is behind a run is padded. -/
theorem dropWhile (p : Char → Bool) (h : Padded cs ds) :
    Padded (cs.dropWhile p) (ds.dropWhile p) := by
  induction h with
  | nil => exact .nil
  | cons c h ih =>
    cases hc : p c with
    | true => rwa [List.dropWhile_cons_of_pos hc, List.dropWhile_cons_of_pos hc]
    | false =>
      rw [List.dropWhile_cons_of_neg (by simp [hc]), List.dropWhile_cons_of_neg (by simp [hc])]
      exact .cons c h
  | @again cs ds h ih =>
    cases hc : p '=' with
    | true =>
      have hskip : ('=' :: ds).dropWhile p = ds.dropWhile p := List.dropWhile_cons_of_pos hc
      rwa [hskip]
    | false =>
      rw [List.dropWhile_cons_of_neg (by simp [hc]), List.dropWhile_cons_of_neg (by simp [hc])]
      exact .again h

end Padded

/-! ## Words and numbers -/

/-- What is left of a padded text behind the length `g` is what was left before, padded. -/
def SteadyLength (g : List Char → Nat) : Prop :=
  ∀ cs ds, Padded cs ds → Padded (cs.drop (g cs)) (ds.drop (g ds))

/-- What a run leaves. -/
theorem drop_run (p : Char → Bool) (cs : List Char) : cs.drop (run p cs) = cs.dropWhile p := by
  calc cs.drop (run p cs)
      = (cs.takeWhile p ++ cs.dropWhile p).drop (cs.takeWhile p).length := by
        rw [List.takeWhile_append_dropWhile]
        rfl
    _ = cs.dropWhile p := List.drop_left

/-- A run ends at the same place, or behind the signs that are repeated. -/
theorem steadyLength_run (p : Char → Bool) : SteadyLength (run p) := by
  intro cs ds h
  rw [drop_run, drop_run]
  exact h.dropWhile p

/-- Two such lengths behind one another. -/
theorem SteadyLength.andThen {g h : List Char → Nat} (hg : SteadyLength g)
    (hh : SteadyLength h) :
    SteadyLength (andThen g h) := by
  intro cs ds hp
  unfold Lexer.andThen
  rw [← List.drop_drop, ← List.drop_drop]
  exact hh _ _ (hg _ _ hp)

/-- Words that have no equals sign are found in a padded text where they were. -/
theorem WordRun.steadyLength {Q : List Char → Prop} {p : Char → Bool} {g : List Char → Nat}
    (hg : WordRun Q p g) (hfree : ∀ q, Q q → '=' ∉ q) : SteadyLength g := by
  intro cs ds h
  by_cases hcs : ∃ q, Q q ∧ q <+: cs
  · obtain ⟨q, hq, x, rfl⟩ := hcs
    obtain ⟨y, rfl, hy⟩ := h.of_append (hfree q hq)
    rw [hg.counts q x hq, hg.counts q y hq, ← List.drop_drop, ← List.drop_drop, List.drop_left,
      List.drop_left]
    exact steadyLength_run p x y hy
  · have hnot : ∀ q, Q q → ¬ q <+: cs := fun q hq hpre => hcs ⟨q, hq, hpre⟩
    rw [hg.zero cs hnot, hg.zero ds fun q hq hpre => hnot q hq ?_]
    · exact h
    · exact (h.prefix_iff_of_notMem (hfree q hq)).mp hpre

theorem ne_equals_of_isDigit {d : Char} (h : isDigit d = true) : d ≠ '=' := by
  rintro rfl
  cases h

theorem steadyLength_fraction : SteadyLength fractionLength := by
  refine fractionLength_wordRun.steadyLength ?_
  rintro _ ⟨d, hd, rfl⟩
  simp [(ne_equals_of_isDigit hd).symm]

theorem steadyLength_exponent : SteadyLength exponentLength := by
  refine exponentLength_wordRun.steadyLength ?_
  rintro _ ⟨e, d, rfl | rfl, hd, rfl | rfl | rfl⟩ <;> simp [(ne_equals_of_isDigit hd).symm]

theorem steadyLength_decimal : SteadyLength decimalLength :=
  (((steadyLength_run isDigitPart).andThen steadyLength_fraction).andThen
    steadyLength_exponent).andThen (steadyLength_run isSuffix)

/-- **Numbers end where they did.** -/
theorem steadyLength_number : SteadyLength numberLength := by
  intro cs ds h
  have hfree : ∀ b, isBase b = true → '=' ∉ ['0', b] := by
    intro b hb hmem
    obtain rfl : b = '=' := by simpa [eq_comm] using hmem
    cases hb
  by_cases hcs : ∃ b, isBase b = true ∧ ['0', b] <+: cs
  · obtain ⟨b, hb, x, rfl⟩ := hcs
    obtain ⟨y, rfl, hy⟩ := h.of_append (hfree b hb)
    show Padded (List.drop (numberLength ('0' :: b :: x)) ('0' :: b :: x))
      (List.drop (numberLength ('0' :: b :: y)) ('0' :: b :: y))
    rw [numberLength_of_base hb, numberLength_of_base hb, ← List.drop_drop, ← List.drop_drop]
    exact steadyLength_run isWordPart x y hy
  · have hnot : ∀ b, isBase b = true → ¬ ['0', b] <+: cs := fun b hb hpre => hcs ⟨b, hb, hpre⟩
    rw [numberLength_of_not_base hnot, numberLength_of_not_base fun b hb hpre => hnot b hb ?_]
    · exact steadyLength_decimal cs ds h
    · exact (h.prefix_iff_of_notMem (hfree b hb)).mp hpre

/-! ## Scanners -/

/-- If the first scan of `cs` ends, so does the second scan of `ds`, and the rest is padded. -/
def StopsAlike (a b : Option Nat) (cs ds : List Char) : Prop :=
  ∀ n, a = some n → ∃ m, b = some m ∧ Padded (cs.drop n) (ds.drop m)

namespace StopsAlike

variable {a b : Option Nat} {cs ds : List Char}

/-- A scanner that finds no end is compared with nothing. -/
theorem none : StopsAlike none b cs ds := fun _ h => nomatch h

/-- A scanner that finds an end leaves a text that is padded. -/
theorem some {n m : Nat} (h : Padded (cs.drop n) (ds.drop m)) :
    StopsAlike (some n) (some m) cs ds := by
  rintro _ ⟨⟩
  exact ⟨m, rfl, h⟩

/-- Scans that go on behind some characters. -/
theorem shift (i j : Nat) (h : StopsAlike a b (cs.drop i) (ds.drop j)) :
    StopsAlike (a.map (· + i)) (b.map (· + j)) cs ds := by
  intro n' hn'
  obtain ⟨n, hn, rfl⟩ := Option.map_eq_some_iff.mp hn'
  obtain ⟨m, hm, hrest⟩ := h n hn
  refine ⟨m + j, by rw [hm]; rfl, ?_⟩
  rwa [Nat.add_comm n, Nat.add_comm m, ← List.drop_drop, ← List.drop_drop]

end StopsAlike

/-- The scanner `f` ends in a padded text where it ended before. -/
def Steady (f : List Char → Option Nat) : Prop :=
  ∀ cs ds, Padded cs ds → StopsAlike (f cs) (f ds) cs ds

/-- **Scanners that take an equals sign for any other character are steady.**  It is
enough to look at the other characters, where some equals signs may have been put in
behind what is scanned at once. -/
theorem steady_of_step {ι : Type} {f : ι → List Char → Option Nat} (hnil : ∀ i, f i [] = none)
    (hequals : ∀ i cs, f i ('=' :: cs) = (f i cs).map (· + 1))
    (hstep : ∀ i c cs ds, c ≠ '=' → Padded cs ds →
      (∀ j us vs k, us.length ≤ cs.length → Padded us vs →
        StopsAlike (f j us) (f j (List.replicate k '=' ++ vs)) us
        (List.replicate k '=' ++ vs)) →
      StopsAlike (f i (c :: cs)) (f i (c :: ds)) (c :: cs) (c :: ds)) (i :
      ι) : Steady (f i) := by
  have hbehind : ∀ i cs ds k, StopsAlike (f i cs) (f i ds) cs ds →
      StopsAlike (f i cs) (f i (List.replicate k '=' ++ ds)) cs
      (List.replicate k '=' ++ ds) := by
    intro i cs ds k h
    induction k with
    | zero => exact h
    | succ k ih =>
      rw [List.replicate_succ, List.cons_append, hequals]
      have hshift :
          StopsAlike ((f i cs).map (· + 0)) ((f i (List.replicate k '=' ++ ds)).map (· + 1)) cs
            ('=' :: (List.replicate k '=' ++ ds)) := .shift 0 1 ih
      rwa [show (· + 0 : Nat → Nat) = id from rfl, Option.map_id] at hshift
  -- The induction is on the length of the text, since a step may take more than one character.
  have hmain : ∀ n i cs ds k, cs.length = n → Padded cs ds →
      StopsAlike (f i cs) (f i (List.replicate k '=' ++ ds)) cs
      (List.replicate k '=' ++ ds) := by
    intro n
    induction n using Nat.strong_induction_on with
    | _ n ih =>
      rintro i cs ds k rfl h
      refine hbehind i cs ds k ?_
      cases cs with
      | nil =>
        rw [hnil]
        exact .none
      | cons c cs =>
        obtain ⟨k, ds, rfl, htail, -⟩ := h.of_cons
        refine hbehind i _ _ k ?_
        by_cases hc : c = '='
        · subst hc
          rw [hequals, hequals]
          exact .shift 1 1 (ih _ (Nat.lt_succ_self _) i cs ds 0 rfl htail)
        · refine hstep i c cs ds hc htail fun j us vs k hle => ?_
          exact ih _ (Nat.lt_succ_of_le hle) j us vs k rfl
  exact fun cs ds h => hmain _ i cs ds 0 rfl h

/-- Strings and characters end where they did, as neither a quote nor the mark before it is
`=`. -/
theorem steady_quotedRest {q : Char} (hq : q ≠ '=' ∧ q ≠ '\\') : Steady (quotedRest q) := by
  have hescape : ∀ cs, quotedRest q ('\\' :: cs) = (quotedRest q (cs.drop 1)).map (· + 2) := by
    intro cs
    cases cs with
    | nil => simp [quotedRest, hq.2.symm]
    | cons c cs => rfl
  refine steady_of_step (f := fun _ : Unit => quotedRest q) (fun _ => rfl) ?_ ?_ ()
  · intro _ cs
    rw [quotedRest_cons (by decide), if_neg (by decide), if_neg (by simpa using hq.1.symm)]
  · intro _ c cs ds _ h ih
    by_cases hc : c = '\\'
    · subst hc
      -- An escaped equals sign may be repeated, and then the repeated ones are scanned.
      obtain ⟨k, ds', hds, h'⟩ := h.drop_one
      rw [hescape, hescape]
      refine .shift 2 2 ?_
      rw [List.drop_succ_cons, List.drop_succ_cons, hds]
      exact ih () _ _ k (by rw [List.length_drop]; omega) h'
    · rw [quotedRest_cons hc, quotedRest_cons hc]
      split
      · exact .none
      · split
        · exact .some h
        · exact .shift 1 1 (ih () cs ds 0 le_rfl h)

/-- So do verbatim strings, in which a quote is written twice. -/
theorem steady_verbatimRest : Steady verbatimRest := by
  have hquote : ∀ cs, verbatimRest ('"' :: cs) =
      if cs.head? = some '"' then (verbatimRest (cs.drop 1)).map (· + 2) else some 1 := by
    intro cs
    split
    · rename_i hhead
      obtain ⟨cs, rfl⟩ := List.head?_eq_some_iff.mp hhead
      rfl
    · rename_i hhead
      exact verbatimRest.eq_3 cs fun cs' h => hhead (by rw [h]; rfl)
  have hother :
      ∀ {c}, c ≠ '"' → ∀ cs, verbatimRest (c :: cs) = (verbatimRest cs).map (· + 1) :=
    fun hc cs => verbatimRest.eq_4 _ cs (fun _ h _ => hc h) fun h => hc h
  refine steady_of_step (f := fun _ : Unit => verbatimRest) (fun _ => rfl)
    (fun _ => hother (by decide)) ?_ ()
  intro _ c cs ds _ h ih
  by_cases hc : c = '"'
  · subst hc
    rw [hquote, hquote, h.head?_eq]
    split
    · obtain ⟨k, ds', hds, h'⟩ := h.drop_one
      refine .shift 2 2 ?_
      rw [List.drop_succ_cons, List.drop_succ_cons, hds]
      exact ih () _ _ k (by rw [List.length_drop]; omega) h'
    · exact .some h
  · rw [hother hc, hother hc]
    exact .shift 1 1 (ih () cs ds 0 le_rfl h)

/-- So do raw strings, which end with as many quotes as they begin with. -/
theorem steady_rawRest {k : Nat} (hk : 0 < k) : Steady (rawRest k) := by
  have hfree : '=' ∉ List.replicate k '"' := fun h => by simpa using List.eq_of_mem_replicate h
  refine steady_of_step (f := fun _ : Unit => rawRest k) (fun _ => rfl) ?_ ?_ ()
  · intro _ cs
    rw [rawRest, if_neg]
    obtain ⟨k, rfl⟩ := Nat.exists_eq_succ_of_ne_zero hk.ne'
    simp [List.replicate_succ, List.isPrefixOf]
  · intro _ c cs ds _ h ih
    have hcons : Padded (c :: cs) (c :: ds) := .cons c h
    have hsame : (List.replicate k '"').isPrefixOf (c :: ds) =
        (List.replicate k '"').isPrefixOf (c :: cs) := by
      rw [Bool.eq_iff_iff, List.isPrefixOf_iff_prefix, List.isPrefixOf_iff_prefix,
        hcons.prefix_iff_of_notMem hfree]
    rw [rawRest, rawRest, hsame]
    split
    · rename_i hpre
      obtain ⟨x, hx⟩ := List.isPrefixOf_iff_prefix.mp hpre
      rw [← hx] at hcons ⊢
      obtain ⟨y, hy, hrest⟩ := hcons.of_append hfree
      refine .some ?_
      rw [hy, List.drop_left' (by simp), List.drop_left' (by simp)]
      exact hrest
    · exact .shift 1 1 (ih () cs ds 0 le_rfl h)

/-- So do comments. -/
theorem steady_commentRest : Steady commentRest := by
  have hother : ∀ {c cs}, ¬ ['*', '/'] <+: c :: cs →
      commentRest (c :: cs) = (commentRest cs).map (· + 1) := by
    intro c cs hpre
    refine commentRest.eq_3 c cs fun x hc hx => hpre ⟨x, ?_⟩
    rw [hc, hx]
    rfl
  refine steady_of_step (f := fun _ : Unit => commentRest) (fun _ => rfl)
    (fun _ cs => hother (by simp)) ?_ ()
  intro _ c cs ds _ h ih
  have hcons : Padded (c :: cs) (c :: ds) := .cons c h
  by_cases hpre : ['*', '/'] <+: c :: cs
  · obtain ⟨x, hx⟩ := hpre
    rw [← hx] at hcons ⊢
    obtain ⟨y, hy, hrest⟩ := hcons.of_append (by decide)
    rw [hy]
    exact .some hrest
  · rw [hother hpre, hother fun h' => hpre ((hcons.prefix_iff (by decide)).mp h')]
    exact .shift 1 1 (ih () cs ds 0 le_rfl h)

/-! ## Interpolated strings -/

/-- The length of the rest of an interpolated string at hole depth `d`, if it ends. -/
def holeRest (v : Bool) (d : Nat) (cs : List Char) : Option Nat :=
  (interpolatedRest v d 0 0 cs).toOption

/-- The scanner of interpolated strings counts what it has passed.  Without the count it is a
function of the text that is left. -/
theorem toOption_interpolatedRest (v : Bool) (d k n : Nat) (cs : List Char) :
    (interpolatedRest v d k n cs).toOption = (holeRest v d (cs.drop k)).map (· + (n + k)) := by
  induction cs generalizing d k n with
  | nil => rw [List.drop_nil]; rfl
  | cons c cs ih =>
    cases k with
    | succ k =>
      rw [interpolatedRest, ih, List.drop_succ_cons]
      congr 2
      funext m
      omega
    | zero =>
      -- What has been read before is added to what is read from here on.
      have hcount : ∀ d' k', (interpolatedRest v d' k' (n + 1) cs).toOption =
          (interpolatedRest v d' k' (0 + 1) cs).toOption.map (· + (n + 0)) := by
        intro d' k'
        rw [ih, ih, Option.map_map]
        congr 1
        funext m
        simp only [Function.comp_apply]
        omega
      rw [List.drop_zero, holeRest]
      cases d with
      | zero =>
        simp only [interpolatedRest]
        split_ifs
        · rfl
        · exact hcount _ _
        · exact hcount _ _
        · exact hcount _ _
        · exact hcount _ _
        · exact congrArg Option.some (Nat.add_comm n 1)
        · exact hcount _ _
      | succ d =>
        simp only [interpolatedRest]
        split_ifs
        · exact hcount _ _
        · exact hcount _ _
        · cases quotedRest c cs with
          | none => rfl
          | some m => exact hcount _ _
        · exact hcount _ _

/-- One character of an interpolated string outside its holes. -/
theorem holeRest_zero (v : Bool) (c : Char) (cs : List Char) : holeRest v 0 (c :: cs) =
    if c == '\n' && !v then none
    else if c == '{' then
      if cs.head? == some '{' then (holeRest v 0 (cs.drop 1)).map (· + 2)
      else (holeRest v 1 cs).map (· + 1)
    else if c == '\\' && !v then (holeRest v 0 (cs.drop 1)).map (· + 2)
    else if c == '"' then
      if v && cs.head? == some '"' then (holeRest v 0 (cs.drop 1)).map (· + 2) else some 1
    else (holeRest v 0 cs).map (· + 1) := by
  have hgo : ∀ d k, (interpolatedRest v d k (0 + 1) cs).toOption =
      (holeRest v d (cs.drop k)).map (· + (1 + k)) :=
    fun d k => toOption_interpolatedRest v d k 1 cs
  rw [holeRest, interpolatedRest]
  split_ifs
  · rfl
  · exact hgo 0 1
  · exact hgo 1 0
  · exact hgo 0 1
  · exact hgo 0 1
  · rfl
  · exact hgo 0 0

/-- One character in a hole, in which braces may nest. -/
theorem holeRest_succ (v : Bool) (d : Nat) (c : Char) (cs : List Char) :
    holeRest v (d + 1) (c :: cs) =
      if c == '{' then (holeRest v (d + 2) cs).map (· + 1)
      else if c == '}' then (holeRest v d cs).map (· + 1)
      else if c == '"' || c == '\'' then
        (quotedRest c cs).bind fun m => (holeRest v (d + 1) (cs.drop m)).map (· + (1 + m))
      else (holeRest v (d + 1) cs).map (· + 1) := by
  have hgo : ∀ d k, (interpolatedRest v d k (0 + 1) cs).toOption =
      (holeRest v d (cs.drop k)).map (· + (1 + k)) :=
    fun d k => toOption_interpolatedRest v d k 1 cs
  rw [holeRest, interpolatedRest]
  split_ifs
  · exact hgo (d + 2) 0
  · exact hgo d 0
  · cases quotedRest c cs with
    | none => rfl
    | some m => exact hgo (d + 1) m
  · exact hgo (d + 1) 0

/-- **Interpolated strings** end where they did, with all the holes in them. -/
theorem steady_holeRest (v : Bool) (d : Nat) : Steady (holeRest v d) := by
  refine steady_of_step (f := holeRest v) (fun _ => rfl) ?_ ?_ d
  · intro d cs
    cases d with
    | zero => rw [holeRest_zero]; rfl
    | succ d => rw [holeRest_succ]; rfl
  · intro d c cs ds hc h ih
    have hone : ∀ d, StopsAlike ((holeRest v d cs).map (· + 1)) ((holeRest v d ds).map (· + 1))
        (c :: cs) (c :: ds) := fun d => .shift 1 1 (ih d cs ds 0 le_rfl h)
    have htwo : StopsAlike ((holeRest v 0 (cs.drop 1)).map (· + 2))
        ((holeRest v 0 (ds.drop 1)).map (· + 2)) (c :: cs) (c :: ds) := by
      obtain ⟨k, ds', hds, h'⟩ := h.drop_one
      refine .shift 2 2 ?_
      rw [List.drop_succ_cons, List.drop_succ_cons, hds]
      exact ih 0 _ _ k (by rw [List.length_drop]; omega) h'
    cases d with
    | zero =>
      rw [holeRest_zero, holeRest_zero, h.head?_eq]
      split_ifs
      · exact .none
      · exact htwo
      · exact hone 1
      · exact htwo
      · exact htwo
      · exact .some h
      · exact hone 0
    | succ d =>
      rw [holeRest_succ, holeRest_succ]
      split_ifs with _ _ hquote
      · exact hone (d + 2)
      · exact hone d
      · -- A literal in a hole ends alike, and the hole goes on behind it.
        have hsteady : Steady (quotedRest c) := by
          refine steady_quotedRest ⟨hc, ?_⟩
          rintro rfl
          cases hquote
        cases hrest : quotedRest c cs with
        | none => exact .none
        | some m =>
          obtain ⟨m', hrest', hdrop⟩ := hsteady cs ds h m hrest
          rw [hrest', Option.bind_some, Option.bind_some]
          refine .shift (1 + m) (1 + m') ?_
          rw [Nat.add_comm 1, Nat.add_comm 1, List.drop_succ_cons, List.drop_succ_cons]
          exact ih (d + 1) _ _ 0 (by rw [List.length_drop]; omega) hdrop
      · exact hone (d + 1)

/-! ## String literals -/

/-- A run over characters other than `=` has the same length. -/
theorem Padded.run_eq {p : Char → Bool} (hp : p '=' = false) {cs ds : List Char}
    (h : Padded cs ds) : run p ds = run p cs := by
  induction h with
  | nil => rfl
  | cons c h ih => rw [run_cons, run_cons, ih]
  | again h ih => rw [run_cons, run_cons, hp]; rfl

/-- The rest of a string literal, behind its marks and its opening quote. -/
theorem toOption_stringRest (marks rest : List Char) : (stringRest marks rest).toOption =
    (if 2 ≤ run (· == '"') rest then
      (rawRest (1 + run (· == '"') rest) (rest.drop (run (· == '"') rest))).map
        (· + run (· == '"') rest)
    else if marks.contains '$' then holeRest (marks.contains '@') 0 rest
    else if marks.contains '@' then verbatimRest rest
    else quotedRest '"' rest).map (· + (marks.length + 1)) := by
  unfold stringRest
  split_ifs
  · cases rawRest (1 + run (· == '"') rest) (rest.drop (run (· == '"') rest)) with
    | none => rfl
    | some n =>
      refine congrArg Option.some ?_
      show marks.length + (1 + run (· == '"') rest) + n =
        n + run (· == '"') rest + (marks.length + 1)
      omega
  · rw [toOption_interpolatedRest]
    rfl
  · cases verbatimRest rest with
    | none => rfl
    | some n => exact congrArg Option.some (Nat.add_comm _ n)
  · cases quotedRest '"' rest with
    | none => rfl
    | some n => exact congrArg Option.some (Nat.add_comm _ n)

/-- A string literal ends alike, given its marks. -/
theorem stringRest_padded {rest rest' : List Char} (h : Padded rest rest')
    (marks : List Char) :
    StopsAlike (stringRest marks rest).toOption (stringRest marks rest').toOption
      (marks ++ '"' :: rest) (marks ++ '"' :: rest') := by
  have hdrop : ∀ l : List Char, (marks ++ '"' :: l).drop (marks.length + 1) = l := by
    intro l
    rw [← List.drop_drop, List.drop_left]
    rfl
  have hquotes := h.run_eq (p := (· == '"')) rfl
  rw [toOption_stringRest, toOption_stringRest, hquotes]
  refine .shift _ _ ?_
  rw [hdrop, hdrop]
  split_ifs
  · refine .shift _ _ (steady_rawRest (by omega) _ _ ?_)
    have := steadyLength_run (· == '"') rest rest' h
    rwa [hquotes] at this
  · exact steady_holeRest _ 0 rest rest' h
  · exact steady_verbatimRest rest rest' h
  · exact steady_quotedRest (by decide) rest rest' h

end SharpScript.Lexer
