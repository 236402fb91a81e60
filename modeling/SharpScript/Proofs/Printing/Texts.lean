import SharpScript.Proofs.Printing.Locality

/-! # Lines as tokens

A printed line is a sign, a word, a name or a text of the tree.  Here it is said which tokens
it gives, and that the rules for types, expressions and statements read a text to its end.

## Main Definitions

* `Verbatim`: tokens that make up a text;
* `printedWords`: the signs and words that are printed.

## Main Results

* `Lines.word`, `Lines.name`: lines that give one token;
* `reads_type`, `reads_argument`, `reads_variable`, `reads_statement`, `reads_directive`,
  `reads_enumMember`: **texts are read to their end, and no further**.

## Design Notes

Whether a text is what it stands for is tested where it stands alone.  All the tests give the
same answer for its tokens in another place, so what follows is about those tokens only.
-/

namespace SharpScript

open Lexer

/-! ## Texts in another place -/

/-- The tokens `ts` make up the text `s`. -/
structure Verbatim (s : String) (ts : List Token) : Prop where
  spelling : Token.spelling ts = s
  trim : Text.trim s = s
  wellShaped : ∀ t ∈ ts, WellShaped t

theorem Lexer.WellShaped.of_content {t u : Token} (h : WellShaped t)
    (hcontent : t.content = u.content) :
    WellShaped u := by
  unfold WellShaped
  rw [← Token.lexeme_eq_of_content hcontent, ← show t.kind = u.kind
    from congrArg Prod.fst hcontent]
  exact h

/-- A text passes a test in its place if the test is the same everywhere. -/
theorem Line.verbatim {f : List Token → Bool} {s : String} {ts : List Token} (h : Line s ts)
    (hs : isVerbatim f s = true) (hf : ∀ w, Shifted w ts → f w = true → f ts = true) :
    Verbatim s ts ∧ f ts = true := by
  obtain ⟨t, ht, hshift⟩ := h
  obtain ⟨rfl, hw⟩ : Token.spelling t.tokens = s ∧ f t.tokens = true := by
    simpa [isVerbatim, ht] using hs
  have hlexed := lexed_of_tokenize ht
  refine ⟨⟨hshift.spelling_eq.symm, hlexed.trim_spelling, fun u hu => ?_⟩, hf _ hshift hw⟩
  have hmem : u.content ∈ t.tokens.map Token.content := by
    rw [show t.tokens.map Token.content = ts.map Token.content from hshift.alike]
    exact List.mem_map_of_mem hu
  obtain ⟨v, hv, hcontent⟩ := List.mem_map.mp hmem
  exact (hlexed.wellShaped v hv).of_content hcontent

theorem Shifted.append_right {ts us : List Token} (h : Shifted ts us) (hts : ts ≠ [])
    (rest : List Token) :
    Shifted (ts ++ rest) (us ++ rest) := by
  refine ⟨h.alike.append (.refl rest), ?_⟩
  rw [List.tail_append_of_ne_nil hts, List.tail_append_of_ne_nil (h.alike.ne_nil hts),
    List.map_append, List.map_append, h.gaps]

/-- Behind a first token all gaps are the same. -/
theorem Shifted.of_cons {t u : Token} {ts us : List Token} (h : Shifted (t :: ts) (u :: us))
    (rest : List Token) : Shifted (ts ++ rest) (us ++ rest) :=
  (h.append_right (List.cons_ne_nil t ts) rest).drop 1

theorem readsTo_iff {p : Parser Unit} {close w : List Token} :
    readsTo p close w = true ↔ p (w ++ close) = .ok ((), close) := decide_eq_true_iff

/-- What a rule reads to its end, it reads to its end in any place. -/
theorem readsTo_shift {p : Parser Unit} {c : Contract} {V : Unit → Unit → Prop}
    {close w ts : List Token} (hp : Comparison.shifted.Sim c V p p)
    (hshift : Shifted (w ++ close) (ts ++ close)) (h : readsTo p close w = true) :
    readsTo p close ts = true := by
  rw [readsTo_iff] at h ⊢
  obtain ⟨n, _, hn, hdrop, -, -, hrun⟩ := (hp _ _ hshift).ok h
  obtain ⟨zs, hzs, hlands⟩ := hrun (.inl trivial)
  have hlength := hshift.alike.length_eq
  rw [List.length_append, List.length_append] at hlength
  have hcount : n = ts.length := by
    have := congrArg List.length hdrop
    rw [List.length_drop, List.length_append] at this
    rw [List.length_append] at hn
    omega
  obtain rfl : zs = (ts ++ close).drop n :=
    hlands.eq_of_length (by rw [List.length_drop, List.length_drop, hshift.alike.length_eq])
  rwa [hcount, List.drop_left] at hzs

/-! ## Types, arguments and statements -/

/-- The tokens `ts` make up the text `s`, and the rule `p` reads them where tokens as
`G` says come behind. -/
structure ReadsText (p : Parser Unit) (G : List Token → Prop) (s : String) (ts : List Token) :
    Prop extends Verbatim s ts where
  ne_nil : ts ≠ []
  run (rest : List Token) : G rest → p (ts ++ rest) = .ok ((), rest)

section Texts

variable {s : String} {ts : List Token}

theorem reads_type (h : Line s ts) (hs : isType s = true) :
    ReadsText Parser.typeReference Parser.EndsType s ts := by
  obtain ⟨hverbatim, hread⟩ := h.verbatim hs fun w hshift =>
    readsTo_shift Comparison.sim_typeReference (by simpa using hshift)
  rw [readsTo_iff, List.append_nil] at hread
  refine ⟨hverbatim, ?_, fun rest hrest => Parser.typeReference_append hread hrest⟩
  rintro rfl
  cases hread

theorem reads_argument (h : Line s ts) (hs : isArgument s = true) :
    ReadsText (Parser.expression [",", ")"]) (fun rest => Ahead.isOperator [",", ")"] rest =
      true) s ts := by
  have hne : ∀ w :
      List Token, readsTo (Parser.expression [",", ")"]) [signToken ")"] w = true → w ≠ [] :=
    fun w hw => (Parser.expression_swap (r := [signToken ")"]) rfl (readsTo_iff.mp hw) rfl).1
  obtain ⟨hverbatim, hread⟩ := h.verbatim hs fun w hshift hw =>
    readsTo_shift (Comparison.sim_expression _) (hshift.append_right (hne w hw) _) hw
  have hswap := fun rest => Parser.expression_swap (r := rest) rfl (readsTo_iff.mp hread)
  exact ⟨hverbatim, hne ts hread, fun rest hrest => (hswap rest hrest).2⟩

theorem reads_statement (h : Line s ts) (hs : isStatement s = true) :
    ReadsText Parser.statement Parser.EndsStatement s ts := by
  obtain ⟨hverbatim, hread⟩ := h.verbatim hs fun w hshift =>
    readsTo_shift Comparison.sim_statement (by simpa using hshift)
  rw [readsTo_iff, List.append_nil] at hread
  refine ⟨hverbatim, ?_, fun rest hrest =>
    Parser.statement_append hverbatim.wellShaped hread hrest⟩
  rintro rfl
  cases hread

end Texts

namespace ReadsText

variable {p : Parser Unit} {G : List Token → Prop} {s : String} {ts : List Token} {n : Nat}

theorem yields (h : ReadsText p G s ts) : Parser.Yields n p G (fun _ => True) ts :=
  fun rest _ hrest => ⟨(), h.run rest hrest, trivial⟩

theorem yields_verbatim (h : ReadsText p G s ts) :
    Parser.Yields n (Parser.verbatim p) G (· = s) ts :=
  (h.yields.verbatim h.ne_nil).mono (fun _ h => h) fun _ ha => ha.trans h.spelling

theorem yields_trim (h : ReadsText p G s ts) :
    Parser.Yields n (Text.trim <$> Parser.verbatim p) G (· = s) ts :=
  h.yields_verbatim.map fun _ ha => ha ▸ h.trim

end ReadsText

/-! ## Variables, enumeration members and directives -/

namespace Parser

/-- Behind the name of a variable nothing is read, or a bracket or a value. -/
theorem variableRest_start {ts rest : List Token} (h : variableRest ts = .ok ((), rest)) :
    ts = rest ∨ Ahead.readsAny ["[", "="] ts = true := by
  unfold variableRest at h
  rw [isAt, ahead_bind] at h
  split at h
  · rename_i hopen
    exact .inr (by simp [Ahead.readsAny, hopen])
  · change (accept "=" >>= fun b => if b = true then initializer else pure ()) ts = _ at h
    rw [accept_bind] at h
    split at h
    · rename_i hsign
      exact .inr (by simp [Ahead.readsAny, hsign])
    · cases h
      exact .inl rfl

end Parser

section Texts

variable {s : String} {ts : List Token}

/-- A variable is a name and what is read behind it. -/
theorem reads_variable (h : Line s ts) (hs : isVariable s = true) :
    ∃ name rest, ts = name :: rest ∧ Verbatim s ts ∧ name.kind.isIdentifier = true ∧
      name.text ∉ keywords ∧
      Parser.variableRest (rest ++ [signToken ";"]) = .ok ((), [signToken ";"]) := by
  obtain ⟨hverbatim, hread⟩ := h.verbatim hs fun w hshift hw => by
    match w, ts with
    | [], _ => cases hw
    | _ :: _, [] => cases hshift.alike
    | t :: w, u :: ts =>
      obtain ⟨hhead, -⟩ := Alike.cons_iff.mp hshift.alike
      obtain ⟨hkind, htext⟩ := Prod.mk.inj hhead
      rw [Bool.and_eq_true, hkind, htext] at hw
      rw [Bool.and_eq_true]
      exact ⟨hw.1, readsTo_shift Comparison.sim_fieldValue (hshift.of_cons _) hw.2⟩
  cases ts with
  | nil => cases hread
  | cons name rest =>
    simp only [Bool.and_eq_true, Bool.not_eq_true', List.contains_eq_mem,
      decide_eq_false_iff_not]
      at hread
    exact ⟨name, rest, rfl, hverbatim, hread.1.1, hread.1.2, readsTo_iff.mp hread.2⟩

/-- A member of an enumeration is a name, or a name and a value. -/
theorem reads_enumMember {m : EnumMember} (h : Line m.text ts) (hm : m.isPrintable = true) :
    Verbatim m.text ts ∧ ∃ name rest, ts = name :: rest ∧ name.kind.isIdentifier = true ∧
      name.text = m.name ∧ (rest = [] ∧ m.value = none ∨
        ∃ sign us, rest = sign :: us ∧ sign.reads "=" = true ∧
          m.value = some (Token.spelling us) ∧
            ∀ r, Ahead.isOperator [",", Text.closeBrace] r = true →
            Parser.expression [",", Text.closeBrace] (us ++ r) = .ok ((), r)) := by
  obtain ⟨hverbatim, hread⟩ := h.verbatim hm fun w hshift hw => by
    rcases w with _ | ⟨t, w⟩
    · cases hw
    rcases ts with _ | ⟨u, ts⟩
    · cases hshift.alike
    obtain ⟨hhead, htail⟩ := Alike.cons_iff.mp hshift.alike
    obtain ⟨hkind, htext⟩ := Prod.mk.inj hhead
    rw [Bool.and_eq_true, hkind, htext] at hw
    rw [Bool.and_eq_true]
    refine ⟨hw.1, ?_⟩
    rcases w with _ | ⟨sign, w⟩ <;> rcases ts with _ | ⟨sign', ts⟩
    · exact hw.2
    · cases htail
    · cases htail
    · have hshift : Shifted (sign :: w) (sign' :: ts) := hshift.drop 1
      have hsign : sign.reads "=" = sign'.reads "=" := by
        obtain ⟨hkind, htext⟩ := Prod.mk.inj (Alike.cons_iff.mp hshift.alike).1
        rw [Token.reads, Token.reads, hkind, htext]
      have hvalue : Token.spelling w = Token.spelling ts := (hshift.drop 1).spelling_eq
      have hw := hw.2
      simp only [hsign, hvalue, Bool.and_eq_true] at hw ⊢
      exact ⟨hw.1, readsTo_shift (Comparison.sim_expression _) (hshift.of_cons _) hw.2⟩
  refine ⟨hverbatim, ?_⟩
  rcases ts with _ | ⟨name, _ | ⟨sign, us⟩⟩
  · cases hread
  · obtain ⟨⟨hident, hname⟩, hvalue⟩ : (name.kind.isIdentifier = true ∧ name.text = m.name) ∧
        m.value = none := by simpa using hread
    exact ⟨name, [], rfl, hident, hname, .inl ⟨rfl, hvalue⟩⟩
  · obtain ⟨⟨hident, hname⟩, ⟨hsign, hvalue⟩, hread⟩ : (name.kind.isIdentifier = true ∧
        name.text = m.name) ∧ (sign.reads "=" = true ∧ m.value = some (Token.spelling us)) ∧
        readsTo (Parser.expression [",", Text.closeBrace]) [signToken Text.closeBrace] us =
        true := by
      simpa using hread
    refine ⟨name, sign :: us, rfl, hident, hname,
      .inr ⟨sign, us, rfl, hsign, hvalue, fun r hr => ?_⟩⟩
    exact (Parser.expression_swap rfl (readsTo_iff.mp hread) hr).2

/-- A using directive is read through its only `;`. -/
theorem reads_directive (h : Line s ts) (hs : isDirective s = true) :
    ∃ ws t, ts = ws ++ [t] ∧ Verbatim s ts ∧ Parser.startsUsing ts = true ∧
      (∀ u ∈ ws, u.reads ";" = false) ∧ t.reads ";" = true := by
  obtain ⟨hverbatim, hread⟩ := h.verbatim hs fun w hshift hw => by
    -- The last tests are on what the tokens read as.
    have hreads : w.map (·.reads ";") = ts.map (·.reads ";") := by
      have := congrArg (List.map fun c : Kind × String => c.2 == ";" && !c.1.isLiteral)
        hshift.alike
      rwa [List.map_map, List.map_map] at this
    have hlast : ∀ us : List Token, us.getLast?.any (·.reads ";") =
        (us.map (·.reads ";")).getLast?.any id := fun us => by
      rw [List.getLast?_map, Option.any_map]
      rfl
    have hothers : ∀ us : List Token, us.dropLast.all (fun t => !t.reads ";") =
        (us.map (·.reads ";")).dropLast.all (! ·) := fun us => by
      rw [← List.map_dropLast, List.all_map]
      rfl
    rw [Parser.tame_startsUsing.alike w ts hshift.alike, hlast, hothers, hreads,
      ← hlast, ← hothers] at hw
    exact hw
  obtain ⟨⟨hstart, hlast⟩, hothers⟩ : (Parser.startsUsing ts = true ∧
      ts.getLast?.any (·.reads ";") = true) ∧ ∀ u ∈ ts.dropLast, u.reads ";" = false := by
    simpa using hread
  cases hlast' : ts.getLast? with
  | none =>
    rw [hlast'] at hlast
    cases hlast
  | some t =>
    rw [hlast'] at hlast
    exact ⟨ts.dropLast, t, (List.dropLast_append_getLast? t hlast').symm, hverbatim, hstart,
      hothers, hlast⟩

end Texts

/-! ## Signs, words and names -/

/-- The signs and words that are printed. -/
def printedWords : List (Kind × String) :=
  ["(", ")", "[", "]", Text.openBrace, Text.closeBrace, ",", ";", ":",
    "="].map (Kind.operator, ·) ++
  (["namespace", "class", "interface", "enum"] ++ Parser.modifierWords).map
    (Kind.keyword, ·) ++
  (["T", "get", "set"] ++ Parser.contextualWords).map (Kind.identifier false, ·)

theorem isVerbatim_word {k : Kind} {w : String} (h : (k, w) ∈ printedWords) :
    isVerbatim (fun ts => ts.map Token.content == [(k, w)]) w = true := by
  have hall : (printedWords.all fun c =>
      isVerbatim (fun ts => ts.map Token.content == [c]) c.2) = true := by decide +kernel
  exact List.all_eq_true.mp hall (k, w) h

theorem tokenize_word {k : Kind} {w : String} (h : (k, w) ∈ printedWords) :
    ∃ t, tokenize w = .ok t ∧ t.tokens.map Token.content = [(k, w)] := by
  have hword := isVerbatim_word h
  unfold isVerbatim at hword
  cases htokens : tokenize w with
  | error e =>
    rw [htokens] at hword
    cases hword
  | ok t =>
    rw [htokens, Bool.and_eq_true, beq_iff_eq, beq_iff_eq] at hword
    exact ⟨t, rfl, hword.2⟩

theorem Line.word {k : Kind} {s : String} {ts : List Token} (hs : (k, s) ∈ printedWords)
    (h : Line s ts) : ∃ g p, ts = [⟨k, s, g, p⟩] := h.single (tokenize_word hs)

namespace Lines

variable {s : String} {ss : List String} {ts : List Token}

/-- A sign or a word that is printed. -/
theorem word {k : Kind} (hs : (k, s) ∈ printedWords) (h : Lines (s :: ss) ts) :
    ∃ g p us, ts = ⟨k, s, g, p⟩ :: us ∧ Lines ss us := by
  cases h with
  | @cons _ _ _ us head tail =>
    obtain ⟨g, p, rfl⟩ := head.word hs
    exact ⟨g, p, us, rfl, tail⟩

/-- A name is an identifier. -/
theorem name (hs : isName s = true) (h : Lines (s :: ss) ts) :
    ∃ g p us, ts = ⟨.identifier false, s, g, p⟩ :: us ∧ Lines ss us := by
  cases h with
  | @cons _ _ _ us head tail =>
    obtain ⟨g, p, rfl⟩ := head.single (tokenize_name hs)
    exact ⟨g, p, us, rfl, tail⟩

/-- A first line that is a text. -/
theorem text (h : Lines (s :: ss) ts) : ∃ us vs, ts = us ++ vs ∧ Line s us ∧ Lines ss vs := by
  cases h with
  | @cons _ _ us vs head tail => exact ⟨us, vs, rfl, head, tail⟩

end Lines

theorem startsWord_of_isName {s : String} (hs : isName s = true) : startsWord s = true := by
  obtain ⟨c, v, hchars, hc, -⟩ := isName_iff.mp hs
  simp [startsWord, hchars, hc]

/-- A word is none of the signs. -/
theorem not_mem_of_startsWord {s : String} {ws : List String} (hs : startsWord s = true)
    (hws : ws.any startsWord = false) : s ∉ ws :=
  fun hmem => List.any_eq_false.mp hws s hmem hs

/-! ## Lines with commas between them -/

theorem commaLines_cons (x : List String) (xs : List (List String)) :
    commaLines (x :: xs) = x ++ xs.flatMap ("," :: ·) := by
  induction xs generalizing x with
  | nil => simp [commaLines]
  | cons y xs ih =>
    unfold commaLines at ih ⊢
    rw [List.intercalate_cons_cons, ih]
    simp

/-- Blocks of lines with commas between them. -/
theorem Lines.commas {β : Type} {f : β → List String} {y : β} {ys : List β} {ts : List Token}
    (h : Lines (commaLines ((y :: ys).map f)) ts) :
    ∃ us vs, ts = us ++ vs ∧ Lines (f y) us ∧ Blocks (fun z us => ∃ s vs, us = s :: vs ∧
      (∃ g p, s = ⟨.operator, ",", g, p⟩) ∧ Lines (f z) vs) ys vs := by
  rw [List.map_cons, commaLines_cons, List.flatMap_map] at h
  obtain ⟨us, vs, rfl, hus, hvs⟩ := h.of_append
  refine ⟨us, vs, rfl, hus, hvs.of_flatMap.imp fun z us hz => ?_⟩
  obtain ⟨g, p, vs, rfl, hvs⟩ := Lines.word (k := .operator) (by decide) hz
  exact ⟨_, vs, rfl, ⟨g, p, rfl⟩, hvs⟩

end SharpScript
