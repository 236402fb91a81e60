import SharpScript.Proofs.Lexer.Spells
import SharpScript.Proofs.Types.Reading

/-! # The texts of types

The text of a type is cut into the tokens that the type is made of.  Signs that would make up a
longer one do not meet in it: `<` is followed by a word or a bracket, and `?` by no second `?`.

## Main Definitions

* `Avoids`: what may stand behind a type;
* `StartsType`: what a type begins with.

## Main Results

* `TypeSyntax.spells`: the text of a type is cut into its tokens;
* `typeReference_text`: **the rule for types passes over exactly the text of a type**.
-/

namespace SharpScript

open Lexer

/-! ## What stands next to a type -/

/-- The text begins with no part of a word and with none of the characters `ds`. -/
def Avoids (ds r : List Char) : Prop := ∀ d, r.head? = some d → isWordPart d = false ∧ d ∉ ds

/-- The text begins as a type does: with a word, escaped or not, or with a bracket. -/
def StartsType (cs : List Char) : Prop :=
  ∃ d, cs.head? = some d ∧ (isWordStart d = true ∨ d ∈ ['@', '('])

theorem Avoids.mono {ds ds' r : List Char} (h : Avoids ds r) (hds : ds' ⊆ ds) : Avoids ds' r :=
  fun d hd => ⟨(h d hd).1, fun hmem => (h d hd).2 (hds hmem)⟩

theorem avoids_cons {ds r : List Char} {d : Char} (h : isWordPart d = false ∧ d ∉ ds) :
    Avoids ds (d :: r) := by
  rintro _ ⟨⟩
  exact h

/-- A text that begins as a type does so with anything behind it. -/
theorem StartsType.append {cs : List Char} (h : StartsType cs) (ds : List Char) :
    StartsType (cs ++ ds) := by
  obtain ⟨d, hd, hstart⟩ := h
  exact ⟨d, by rw [List.head?_append, hd, Option.some_or], hstart⟩

/-- What a type begins with makes no sign longer. -/
theorem StartsType.separate {cs : List Char} (h : StartsType cs) {w : String}
    (hw : w ∈ ["<", ".", "::"]) : ∀ d, cs.head? = some d → Separate w d := by
  have hgoOn : ∀ w ∈ ["<", ".", "::"], continuations w ⊆ ['<', '=', '.'] := by decide
  obtain ⟨d, hd, hstart⟩ := h
  have hne : d ∉ ['<', '=', '.'] ∧ Text.isDigit d = false := by
    rcases hstart with hstart | hstart
    · refine ⟨fun hmem => ?_, isWordStart_not_isDigit hstart⟩
      have hsigns : ∀ d ∈ ['<', '=', '.'], isWordStart d = false := by
        simpa using (by decide +kernel : ['<', '=', '.'].all (fun d => !isWordStart d) = true)
      rw [hsigns d hmem] at hstart
      cases hstart
    · rcases List.mem_pair.mp hstart with rfl | rfl <;> decide
  intro _ hd'
  obtain rfl := Option.some.inj (hd.symm.trans hd')
  exact ⟨fun hmem => hne.1 (hgoOn w hw hmem), fun _ => hne.2⟩

/-- What may stand behind a type makes no sign longer that a type ends with. -/
theorem Avoids.separate {ds r : List Char} (h : Avoids ds r) {w : String}
    (hw : continuations w ⊆ ds) : ∀ d, r.head? = some d → Separate w d := by
  intro d hd
  obtain ⟨hpart, hmem⟩ := h d hd
  refine ⟨fun hd => hmem (hw hd), fun _ => Bool.eq_false_iff.mpr fun hdigit => ?_⟩
  rw [isWordPart_of_isDigit hdigit] at hpart
  cases hpart

/-- An identifier is read whole before a character that is in no word. -/
theorem Identifier.munch (i : Identifier) {r : List Char}
    (hr : ∀ d, r.head? = some d → isWordPart d = false) :
    Munch (.identifier i.escaped) i.text.toList r := by
  obtain ⟨escaped, word, hshaped, hfree⟩ := i
  obtain ⟨c, v, hword, hc, hv⟩ : ∃ c v, word.toList = c :: v ∧ isWordStart c = true ∧
      ∀ d ∈ v, isWordPart d = true := by
    unfold isWordShaped at hshaped
    cases hword : word.toList with
    | nil => simp [hword] at hshaped
    | cons c v => exact ⟨c, v, rfl, by simpa [hword] using hshaped⟩
  cases escaped with
  | false =>
    exact munch_name
      (isName_iff.mpr ⟨c, v, hword, hc, hv, hfree.resolve_left Bool.false_ne_true⟩) hr
  | true =>
    have htext : ("@" ++ word).toList = '@' :: c :: v := by simp [hword]
    simpa [text, htext] using munch_escaped hc hv hr

/-- A name is cut as one token before what does not go on with it. -/
theorem Identifier.spells (i : Identifier) {r : List Char}
    (hr : ∀ d, r.head? = some d → isWordPart d = false) :
    Spells r i.text.toList [i.content] := by
  have hspells := Spells.token (i.munch hr)
  cases hescaped : i.escaped <;> simpa [text, content, hescaped] using hspells

/-- A name begins a type. -/
theorem Identifier.startsType (i : Identifier) : StartsType i.text.toList := by
  unfold Identifier.text
  split
  · exact ⟨'@', by simp, .inr (by simp)⟩
  · obtain ⟨d, hd, hstart⟩ : ∃ d, i.word.toList.head? = some d ∧ isWordStart d = true := by
      exact (Option.any_eq_true _ _).mp i.startsWord_word
    exact ⟨d, hd, .inl hstart⟩

/-- A sign that nothing makes longer. -/
theorem spells_plain {w : String} (hw : w ∈ ["(", ")", "[", "]", ",", ";"]) (r : List Char) :
    Spells r w.toList [sign w] := by
  have hsigns : ∀ w ∈ ["(", ")", "[", "]", ",", ";"], w ∈ operators ∧
      w.toList.head? ≠ some '/' ∧ continuations w = [] ∧ w ≠ "." := by decide
  obtain ⟨hsign, hslash, hnone, hpoint⟩ := hsigns w hw
  exact .sign hsign hslash fun d _ =>
    ⟨by rw [hnone]; exact List.not_mem_nil, fun h => absurd h hpoint⟩

/-- The commas of an array are cut one by one. -/
theorem spells_commas (n : Nat) (r : List Char) :
    Spells r (List.replicate n ',' ++ [']']) (List.replicate n (sign ",") ++ [sign "]"]) := by
  induction n with
  | zero => exact spells_plain (w := "]") (by decide) r
  | succ n ih => exact (spells_plain (w := ",") (by decide) _).append ih

variable {gap : String}

mutual

/-- Each type begins with a name or a bracket: one case for each form. -/
theorem TypeSyntax.startsType : ∀ T : TypeSyntax, StartsType (T.text gap).toList
  | .solid t => t.startsType
  | .nullable t => by
    rw [TypeSyntax.text, String.toList_append]
    exact t.startsType.append _

theorem SolidType.startsType : ∀ T : SolidType, StartsType (T.text gap).toList
  | .name n => n.startsType
  | .tuple es => by
    simp only [SolidType.text, String.toList_append]
    exact ⟨'(', rfl, .inr (by simp)⟩
  | .array t _ => by
    simp only [SolidType.text, String.toList_append, List.append_assoc]
    exact t.startsType.append _
  | .pointer t => by
    rw [SolidType.text, String.toList_append]
    exact t.startsType.append _

theorem TypeName.startsType : ∀ T : TypeName, StartsType (T.text gap).toList
  | .part p => p.startsType
  | .qualified n q p => by
    simp only [TypeName.text, String.toList_append, List.append_assoc]
    exact n.startsType.append _

theorem NamePart.startsType : ∀ T : NamePart, StartsType (T.text gap).toList
  | .plain i => i.startsType
  | .generic i args => by
    simp only [NamePart.text, String.toList_append, List.append_assoc]
    exact i.startsType.append _

end

/-- A list of types begins as its first type. -/
theorem TypeList.startsType (ts : TypeList) : StartsType (ts.text gap).toList := by
  cases ts with
  | last t => exact t.startsType
  | more t ts =>
    simp only [TypeList.text, String.toList_append, List.append_assoc]
    exact t.startsType.append _

/-- A gap of blanks. -/
def IsGap (gap : String) : Prop := ∀ c ∈ gap.toList, isBlank c = true

theorem isGap_empty : IsGap "" := by simp [IsGap]

/-- A name may stand behind a type. -/
theorem Spells.named {cs : List Char} {ks : List (Kind × String)}
    (h : ∀ {r : List Char}, Avoids ['=', '?'] r → Spells r cs ks) (name : Option Identifier)
    {r : List Char} (hr : Avoids ['=', '?'] r) :
    Spells r (cs ++ (Identifier.textBehind name).toList)
      (ks ++ Identifier.contentBehind name) := by
  cases name with
  | none => simpa [Identifier.textBehind, Identifier.contentBehind] using h hr
  | some i =>
    simp only [Identifier.textBehind, String.toList_append]
    exact (h (avoids_cons (by decide))).append_gap (by simp [isBlank])
      (i.spells fun d hd => (hr d hd).1)

mutual

/-- **The text of a type is cut into its tokens**, where no `?` or `=` comes behind it that
would go on with its last one. -/
theorem TypeSyntax.spells (hgap : IsGap gap) :
    ∀ (T : TypeSyntax) {r : List Char}, Avoids ['=', '?'] r →
      Spells r (T.text gap).toList T.contents
  | .solid t, r, hr => t.spells hgap (hr.mono (by simp))
  | .nullable t, r, hr => by
    rw [TypeSyntax.text, String.toList_append]
    exact (t.spells hgap (avoids_cons (by decide))).append
      (.sign (by decide) (by decide) (hr.separate (by decide)))

theorem SolidType.spells (hgap : IsGap gap) :
    ∀ (T : SolidType) {r : List Char}, Avoids ['='] r → Spells r (T.text gap).toList T.contents
  | .name n, r, hr => n.spells hgap hr
  | .tuple es, r, hr => by
    simp only [SolidType.text, String.toList_append, List.append_assoc]
    exact (spells_plain (by decide) _).append
      ((es.spells hgap (avoids_cons (by decide))).append (spells_plain (by decide) r))
  | .array t commas, r, hr => by
    simp only [SolidType.text, String.toList_append, List.append_assoc, String.toList_ofList]
    exact (t.spells hgap (avoids_cons (by decide))).append
      ((spells_plain (by decide) _).append (spells_commas commas r))
  | .pointer t, r, hr => by
    rw [SolidType.text, String.toList_append]
    exact (t.spells hgap (avoids_cons (by decide))).append
      (.sign (by decide) (by decide) (hr.separate (by decide)))

theorem TypeName.spells (hgap : IsGap gap) : ∀ (T : TypeName) {r : List Char}, Avoids ['='] r →
    Spells r (T.text gap).toList T.contents
  | .part p, r, hr => p.spells hgap hr
  | .qualified n q p, r, hr => by
    simp only [TypeName.text, String.toList_append, List.append_assoc]
    refine (n.spells hgap ?_).append ((Spells.sign ?_ ?_ ?_).append (p.spells hgap hr))
    · cases q <;> exact avoids_cons (by decide)
    · cases q <;> decide
    · cases q <;> decide
    · exact (p.startsType.append r).separate (by cases q <;> decide)

theorem NamePart.spells (hgap : IsGap gap) : ∀ (T : NamePart) {r : List Char}, Avoids ['='] r →
    Spells r (T.text gap).toList T.contents
  | .plain i, r, hr => i.spells fun d hd => (hr d hd).1
  | .generic i args, r, hr => by
    simp only [NamePart.text, String.toList_append, List.append_assoc]
    refine (i.spells ?_).append ((Spells.sign (by decide) (by decide) ?_).append
      ((args.spells hgap ?_).append (.sign (by decide) (by decide) (hr.separate (by decide)))))
    · rintro _ ⟨⟩
      decide
    · rw [List.append_assoc]
      exact (args.startsType.append _).separate (by decide)
    · exact avoids_cons (by decide)

/-- The types of a list are cut one by one. -/
theorem TypeList.spells (hgap : IsGap gap) :
    ∀ (T : TypeList) {r : List Char}, Avoids ['=', '?'] r →
      Spells r (T.text gap).toList T.contents
  | .last t, r, hr => t.spells hgap hr
  | .more t ts, r, hr => by
    simp only [TypeList.text, String.toList_append, List.append_assoc]
    exact (t.spells hgap (avoids_cons (by decide))).append
      ((spells_plain (by decide) _).append_gap hgap (ts.spells hgap hr))

/-- So are the elements of a tuple, with their names or without. -/
theorem TupleElements.spells (hgap : IsGap gap) : ∀ (T : TupleElements) {r : List Char},
    Avoids ['=', '?'] r → Spells r (T.text gap).toList T.contents
  | .last t name, r, hr => by
    rw [TupleElements.text, String.toList_append]
    exact Spells.named (t.spells hgap) name hr
  | .more t name es, r, hr => by
    rw [TupleElements.text, String.toList_append, String.toList_append, String.toList_append,
      String.toList_append, List.append_assoc, List.append_assoc]
    exact (Spells.named (t.spells hgap) name (avoids_cons (by decide))).append
      ((spells_plain (by decide) _).append_gap hgap (es.spells hgap hr))

end

/-- **The rule for types passes over exactly a type.**  The text of a type with an
identifier behind it is cut into tokens, of which the last one is the identifier, and the
rule stops before that one. -/
theorem typeReference_text (T : TypeSyntax) (x : Identifier) :
    ∃ t us u, tokenize (T.text "" ++ " " ++ x.text) = .ok t ∧ t.tokens = us ++ [u] ∧
      Token.spelling us = T.text "" ∧ u.content = x.content ∧
      Parser.typeReference t.tokens = .ok ((), [u]) := by
  let p := (Place.start.after (T.text "").toList).after [' ']
  obtain ⟨vs, hvs, -, -, hx⟩ := x.spells (r := []) nofun p [' '] _ (.nil _ [])
  obtain ⟨u, rfl, hu⟩ := List.map_eq_singleton_iff.mp hvs
  have hbehind : Cut (Place.start.after (T.text "").toList) [] (' ' :: x.text.toList) _ :=
    Cut.blank rfl (List.append_nil x.text.toList ▸ hx)
  obtain ⟨us, hus, hgap, hchars, hcut⟩ :=
    T.spells isGap_empty (avoids_cons (by decide)) .start [] _ hbehind
  refine ⟨prepend us (prepend [u] ⟨[], "", p.after x.text.toList⟩), us, u, ?_, rfl, ?_, hu, ?_⟩
  · rw [tokenize, ← hcut.pieces_eq]
    simp
  · rw [spelling_of_chars hgap hchars, String.ofList_toList]
  · refine T.typeReference_append hus fun w hw => ?_
    have hsigns : ∀ w ∈ [".", "::", "<", "?", "*", "["], startsWord w = false := by
      decide +kernel
    exact Identifier.reads_eq_false hu (hsigns w hw)

end SharpScript
