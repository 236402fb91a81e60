import SharpScript.Proofs.Lexer.Lines
import SharpScript.Proofs.Lexer.Respacing

/-! # Signs and words that are put together

A text that is put together from signs and words is cut into these signs and words again, as
long as none of them goes on with the text behind it.

## Main Definitions

* `Lexer.Separate`: a sign and a character behind it that does not make it longer;
* `Lexer.Spells`: a text, the text behind it, and the tokens that the first one is cut into.

## Main Results

* `Lexer.munch_operator`, `Lexer.munch_escaped`: signs and escaped words are read whole;
* `Lexer.Spells.append`, `Lexer.Spells.append_gap`: **texts behind each
  other are cut one by one**.
-/

namespace SharpScript

/-- The kind and the text of a sign. -/
abbrev sign (w : String) : Kind × String := (.operator, w)

namespace Lexer

/-! ## Signs -/

/-- The characters with which operators go on that begin with `w`. -/
def continuations (w : String) : List Char :=
  operators.filterMap fun op =>
    if w.toList.isPrefixOf op.toList then (op.toList.drop w.length).head? else none

/-- The sign `w` is not made longer by the character `d` behind it. -/
def Separate (w : String) (d : Char) : Prop :=
  d ∉ continuations w ∧ (w = "." → Text.isDigit d = false)

/-- No operator begins with an earlier one. -/
theorem operators_ordered : operators.Pairwise fun op op' => ¬op.toList <+: op'.toList := by
  decide +kernel

theorem operatorLength?_append {w : String} (hw : w ∈ operators) {r : List Char}
    (hr : ∀ d, r.head? = some d → Separate w d) :
    operatorLength? (w.toList ++ r) = some w.length := by
  have hfind : operators.find? (fun op => op.toList.isPrefixOf (w.toList ++ r)) = some w := by
    obtain ⟨before, behind, hops⟩ := List.append_of_mem hw
    refine List.find?_eq_some_iff_append.mpr ⟨?_, before, behind, hops, fun op hop => ?_⟩
    · exact List.isPrefixOf_iff_prefix.mpr (List.prefix_append _ _)
    -- An operator before `w` would be a longer one, which `w` and the next character begin.
    have hnot : ¬op.toList <+: w.toList :=
      (List.pairwise_append.mp (hops ▸ operators_ordered)).2.2 op hop w List.mem_cons_self
    rw [Bool.not_eq_true', Bool.eq_false_iff, ne_eq, List.isPrefixOf_iff_prefix]
    intro hprefix
    obtain hshort | ⟨v, hv⟩ :=
      List.prefix_or_prefix_of_prefix hprefix (List.prefix_append w.toList r)
    · exact hnot hshort
    cases v with
    | nil => exact hnot ⟨[], by rw [← hv, List.append_nil, List.append_nil]⟩
    | cons d v =>
      rw [← hv, List.prefix_append_right_inj] at hprefix
      obtain ⟨z, rfl⟩ := hprefix
      refine (hr d rfl).1 (List.mem_filterMap.mpr ⟨op, hops ▸ List.mem_append_left _ hop, ?_⟩)
      rw [if_pos (List.isPrefixOf_iff_prefix.mpr ⟨d :: v, hv⟩), ← hv, ← String.length_toList,
        List.drop_left, List.head?_cons]
  rw [operatorLength?, hfind]
  rfl

/-- Apart from comments, what an operator begins with begins no other token. -/
theorem operators_start : ∀ w ∈ operators, ∃ c, w.toList.head? = some c ∧
    c ∉ ['#', '$', '@', '"', '\''] ∧ isBlank c = false ∧ isWordStart c = false ∧
      Text.isDigit c = false ∧ (c = '.' → w ∈ [".", ".."]) := by
  have hstart : ∀ w ∈ operators, w.toList.head?.any (fun c =>
      decide (c ∉ ['#', '$', '@', '"', '\''] ∧ isBlank c = false ∧ isWordStart c = false ∧
        Text.isDigit c = false ∧ (c = '.' → w ∈ [".", ".."]))) = true := by decide +kernel
  intro w hw
  obtain ⟨c, hc, hdecide⟩ := (Option.any_eq_true _ _).mp (hstart w hw)
  exact ⟨c, hc, of_decide_eq_true hdecide⟩

/-- An operator is read alone, unless what stands behind it makes it longer. -/
theorem munch_operator {w : String} (hw : w ∈ operators) (hslash : w.toList.head? ≠ some '/')
    {r : List Char} (hr : ∀ d, r.head? = some d → Separate w d) :
    Munch .operator w.toList r := by
  have hoperator := operatorLength?_append hw hr
  obtain ⟨c, hc, hne, hblank, hstart, hdigit, hpoint⟩ := operators_start w hw
  obtain ⟨v, hchars⟩ := List.head?_eq_some_iff.mp hc
  have hslash' : c ≠ '/' := fun h => hslash (h ▸ hc)
  simp only [List.mem_cons, List.not_mem_nil, or_false, not_or] at hne
  obtain ⟨hsharp, hdollar, hat, hquote, hsingle⟩ := hne
  have hstring : startsString (c :: (v ++ r)) = false := by
    simp [startsString, isMark, hdollar, hat, hquote]
  have hnumber : startsNumber (c :: (v ++ r)) = false := by
    by_cases hc : c = '.'
    · have hw := hpoint hc
      simp only [List.mem_cons, List.not_mem_nil, or_false] at hw
      subst hc
      obtain rfl | rfl := hw
      · obtain rfl : v = [] := by simpa using hchars
        cases r with
        | nil => rfl
        | cons d r => simpa [startsNumber, digitNext] using (hr d rfl).2 rfl
      · obtain rfl : v = ['.'] := by simpa using hchars.symm
        rfl
    · rw [startsNumber.eq_2 _ fun _ h => hc (List.cons.inj h).1]
      simp [digitNext, hdigit]
  refine ⟨c, v, hchars, fun bare => piece_eq_token_iff.mpr ⟨trivia_eq_none_iff.mpr ?_, ?_⟩⟩
  · refine ⟨fun h => ?_, fun h => ?_, hblank, by simp [hsharp]⟩ <;>
    · obtain ⟨_, h⟩ := h
      exact hslash' (List.cons.inj h).1.symm
  · rw [hchars, List.cons_append] at hoperator
    have hlength : w.length = w.toList.length := String.length_toList.symm
    simp [tokenHead, hstring, hsingle, hnumber, wordOrOperator, hstart, hat,
      hoperator, hlength]

/-! ## Escaped words -/

/-- An escaped word is read whole before a character that is in no word. -/
theorem munch_escaped {c : Char} {v r : List Char} (hc : isWordStart c = true)
    (hv : ∀ d ∈ v, isWordPart d = true) (hr : ∀ d, r.head? = some d → isWordPart d = false) :
    Munch (.identifier true) ('@' :: c :: v) r := by
  have hrun : run isWordPart (c :: v ++ r) = (c :: v).length := by
    have hword : ∀ d ∈ c :: v, isWordPart d = true :=
      List.forall_mem_cons.mpr ⟨by simp [isWordPart, hc], hv⟩
    rw [run, List.takeWhile_append_of_pos hword]
    cases r with
    | nil => simp
    | cons d r => rw [List.takeWhile_cons_of_neg (by simp [hr d rfl]), List.append_nil]
  obtain ⟨hmark, hquote⟩ : isMark c = false ∧ c ≠ '"' := by
    have hsigns : ∀ d ∈ ['$', '@', '"'], isWordStart d = false := by
      simpa using (by decide +kernel : ['$', '@', '"'].all (fun d => !isWordStart d) = true)
    have hne : ∀ d ∈ ['$', '@', '"'], c ≠ d := by
      rintro d hd rfl
      rw [hsigns c hd] at hc
      cases hc
    simp [isMark, hne]
  have hstring : startsString ('@' :: c :: (v ++ r)) = false := by
    have hdrop : ('@' :: c :: (v ++ r)).dropWhile isMark = c :: (v ++ r) := by
      rw [List.dropWhile_cons_of_pos (by decide), List.dropWhile_cons_of_neg (by simp [hmark])]
    simp [startsString, hdrop, hquote]
  have hat : isWordStart '@' = false := by decide +kernel
  refine ⟨'@', c :: v, rfl, fun bare => piece_eq_token_iff.mpr ⟨trivia_eq_none_iff.mpr ?_, ?_⟩⟩
  · simp [isBlank]
  · simp only [List.cons_append] at hrun
    simp [tokenHead, hstring, startsNumber, digitNext, Text.isDigit, wordOrOperator, hat, hc,
      hrun, Nat.add_comm]

/-! ## Texts and the tokens that they are cut into -/

/-- The text `cs` before the text `r` is cut into tokens with the kinds and texts `ks`.  What
stands before the text is the gap before the first of them. -/
def Spells (r cs : List Char) (ks : List (Kind × String)) : Prop :=
  ∀ (p : Place) (g : List Char) (t : Tokenized), Cut (p.after cs) [] r t →
    ∃ us, us.map Token.content = ks ∧ us.head?.map Token.gap = some (String.ofList g) ∧
      Token.chars us = g ++ cs ∧ Cut p g (cs ++ r) (prepend us t)

theorem spelling_of_chars {us : List Token} {g cs : List Char}
    (hgap : us.head?.map Token.gap = some (String.ofList g))
    (hchars : Token.chars us = g ++ cs) :
    Token.spelling us = String.ofList cs := by
  cases us with
  | nil => cases hgap
  | cons u us =>
    have hu : u.gap = String.ofList g := Option.some.inj hgap
    rw [Token.chars, List.flatMap_cons, hu, String.toList_ofList, List.append_assoc,
      List.append_cancel_left_eq] at hchars
    apply String.toList_injective
    rw [Token.spelling_cons, String.toList_ofList, ← hchars]
    rfl

namespace Spells

variable {r v cs ds : List Char} {ks ls : List (Kind × String)}

/-- A text behind another one, with blanks between them. -/
theorem append_gap (h : Spells (v ++ ds ++ r) cs ks) (hv : ∀ c ∈ v, isBlank c = true)
    (h' : Spells r ds ls) : Spells r (cs ++ (v ++ ds)) (ks ++ ls) := by
  intro p g t ht
  rw [Place.after_append, Place.after_append] at ht
  obtain ⟨vs, hvs, -, hchars', hcut'⟩ := h' _ v t ht
  have hbehind : Cut (p.after cs) [] (v ++ ds ++ r) (prepend vs t) := by
    rw [List.append_assoc]
    exact Cut.blanks hv hcut'
  obtain ⟨us, hus, hgap, hchars, hcut⟩ := h p g _ hbehind
  refine ⟨us ++ vs, by rw [List.map_append, hus, hvs], ?_, ?_, ?_⟩
  · obtain ⟨u, us, rfl⟩ : ∃ u us', us = u :: us' := by
      cases us with
      | nil => cases hgap
      | cons u us => exact ⟨u, us, rfl⟩
    exact hgap
  · rw [Token.chars_append, hchars, hchars', List.append_assoc]
  · rw [List.append_assoc]
    simpa [prepend] using hcut

theorem append (h : Spells (ds ++ r) cs ks) (h' : Spells r ds ls) :
    Spells r (cs ++ ds) (ks ++ ls) :=
  append_gap (v := []) h nofun h'

theorem token {k : Kind} {w : List Char} (h : Munch k w r) :
    Spells r w [(k, String.ofList (if k == .identifier true then w.drop 1 else w))] := by
  intro p g t ht
  refine ⟨[Lexer.token k w g p], rfl, rfl, ?_, .token h ht⟩
  have hgap : (Lexer.token k w g p).gap = String.ofList g := rfl
  simp [Token.chars, lexeme_token h.shape, hgap]

theorem sign {w : String} (hw : w ∈ operators) (hslash : w.toList.head? ≠ some '/')
    (hr : ∀ d, r.head? = some d → Separate w d) : Spells r w.toList [SharpScript.sign w] := by
  simpa using Spells.token (munch_operator hw hslash hr)

end Spells

end Lexer

end SharpScript
