import SharpScript.Proofs.Lexer.Join

/-! # Texts line by line

Names are cut into words, and texts that stand on lines of their own are cut one by one.

## Main Definitions

* `isName`: a word that is no keyword;
* `Blocks`: tokens block by block;
* `Line`, `Lines`: the tokens of a text, and of texts that stand on lines of their own.

## Main Results

* `munch_word`: a word is read whole before a character that is in no word;
* `tokenize_name`, `tokenize_dotted`: the tokens of names;
* `tokenize_intercalate`: **the tokens of texts on lines of their own**.
-/

namespace SharpScript

open Text (isDigit isLetter)

/-- A word that is no keyword. -/
def isName (s : String) : Bool :=
  match s.toList with
  | [] => false
  | c :: v => Lexer.isWordStart c && v.all Lexer.isWordPart && !Lexer.keywords.contains s

namespace Lexer

/-! ## Words -/

theorem isWordStart_not_isDigit {c : Char} (h : isWordStart c = true) : isDigit c = false := by
  have hdigits : ∀ n ∈ List.range' 48 10, isWordStart (Char.ofNat n) = false := by
    decide +kernel
  rw [Bool.eq_false_iff]
  intro hdigit
  obtain ⟨hlow, hhigh⟩ : '0' ≤ c ∧ c ≤ '9' := by simpa [isDigit] using hdigit
  have hmem : c.toNat ∈ List.range' 48 10 :=
    List.mem_range'_1.mpr ⟨hlow, Nat.lt_succ_of_le hhigh⟩
  rw [← Char.ofNat_toNat c, hdigits _ hmem] at h
  cases h

/-- A word is read whole before a character that is in no word. -/
theorem munch_word {c : Char} {v r : List Char} (hc : isWordStart c = true)
    (hv : ∀ d ∈ v, isWordPart d = true) (hr : ∀ d, r.head? = some d → isWordPart d = false) :
    Munch (wordKind (c :: v)) (c :: v) r := by
  have hsigns : (['/', '#', '$', '@', '"', '\'', '.', ' ', '\t', '\r', '\n', '\ufeff'].all
      fun d => !isWordStart d) = true := by decide +kernel
  have hne : ∀ d, d ∈ ['/', '#', '$', '@', '"', '\'', '.', ' ', '\t', '\r', '\n', '\ufeff'] →
      c ≠ d := by
    rintro d hd rfl
    have := List.all_eq_true.mp hsigns c hd
    simp [hc] at this
  have hslash := hne '/' (by simp)
  refine ⟨c, v, rfl, fun bare => piece_eq_token_iff.mpr ⟨trivia_eq_none_iff.mpr ?_, ?_⟩⟩
  · refine ⟨fun h => ?_, fun h => ?_, ?_, ?_⟩
    · obtain ⟨_, h⟩ := h
      exact hslash (List.cons.inj h).1.symm
    · obtain ⟨_, h⟩ := h
      exact hslash (List.cons.inj h).1.symm
    · simp [isBlank, hne ' ' (by simp), hne '\t' (by simp), hne '\r' (by simp),
        hne '\n' (by simp), hne '\ufeff' (by simp)]
    · simp [hne '#' (by simp)]
  · have hmark : isMark c = false := by simp [isMark, hne '$' (by simp), hne '@' (by simp)]
    have hstring : startsString (c :: (v ++ r)) = false := by
      simp [startsString, hmark, hne '"' (by simp)]
    have hnumber : startsNumber (c :: (v ++ r)) = false := by
      rw [startsNumber.eq_2 _ fun _ h => hne '.' (by simp) (List.cons.inj h).1]
      simp [digitNext, isWordStart_not_isDigit hc]
    have htake : (v ++ r).takeWhile isWordPart = v := by
      rw [List.takeWhile_append_of_pos hv]
      cases r with
      | nil => simp
      | cons d r => rw [List.takeWhile_cons_of_neg (by simp [hr d rfl]), List.append_nil]
    have hpart : isWordPart c = true := by simp [isWordPart, hc]
    simp [tokenHead, hstring, hne '\'' (by simp), hnumber, wordOrOperator, hc, run, htake,
      hpart, Nat.add_comm]

/-- A point is read alone before a word. -/
theorem munch_point {d : Char} {r : List Char} (hd : isWordStart d = true) :
    Munch .operator ['.'] (d :: r) := by
  have hpoint : ('.' == d) = false := by
    refine beq_eq_false_iff_ne.mpr ?_
    rintro rfl
    exact absurd hd (by decide)
  refine ⟨'.', [], rfl, fun bare => piece_eq_token_iff.mpr ⟨trivia_eq_none_iff.mpr ?_, ?_⟩⟩
  · simp [isBlank]
  · have hnumber : startsNumber ('.' :: d :: r) = false := by
      simp [startsNumber, digitNext, isWordStart_not_isDigit hd]
    have hword : isWordStart '.' = false := by decide
    have hfind :
        operators.find? (fun op => op.toList.isPrefixOf ('.' :: d :: r)) = some "." := by
      simp [operators, List.find?, List.isPrefixOf, hpoint]
    have hoperator : operatorLength? ('.' :: d :: r) = some 1 := by
      rw [operatorLength?, hfind]
      rfl
    simp [tokenHead, startsString, isMark, hnumber, wordOrOperator, hword, hoperator]

/-! ## Names -/

theorem isName_iff {s : String} : isName s = true ↔ ∃ c v, s.toList = c :: v ∧
    isWordStart c = true ∧ (∀ d ∈ v, isWordPart d = true) ∧ s ∉ keywords := by
  unfold isName
  cases s.toList with
  | nil => simp
  | cons c v => simp [and_assoc]

/-- A name is read as one identifier before a character that is in no word. -/
theorem munch_name {s : String} (hs : isName s = true) {r : List Char}
    (hr : ∀ d, r.head? = some d → isWordPart d = false) :
    Munch (.identifier false) s.toList r := by
  obtain ⟨c, v, hchars, hc, hv, hkeyword⟩ := isName_iff.mp hs
  have hkind : wordKind (c :: v) = .identifier false := by
    rw [wordKind, ← hchars, String.ofList_toList, if_neg (by simpa using hkeyword)]
  rw [hchars, ← hkind]
  exact munch_word hc hv hr

end Lexer

open Lexer

theorem tokenize_name {s : String} (hs : isName s = true) :
    ∃ t, tokenize s = .ok t ∧ t.tokens.map Token.content = [(.identifier false, s)] := by
  have hmunch := munch_name hs (r := []) nofun
  have hcut := Cut.token (p := .start) (g := []) hmunch (.nil _ [])
  rw [List.append_nil] at hcut
  refine ⟨_, hcut.pieces_eq, ?_⟩
  show [(Kind.identifier false, String.ofList s.toList)] = _
  rw [String.ofList_toList]

/-- The contents of a name with points between its parts. -/
def dottedContents (parts : List String) : List (Kind × String) :=
  (parts.map fun part => (Kind.identifier false, part)).intersperse (.operator, ".")

theorem cut_dotted {part : String} {parts : List String}
    (hparts : ∀ s ∈ part :: parts, isName s = true) (p : Place) (g : List Char) :
    ∃ t, Cut p g (".".intercalate (part :: parts)).toList t ∧ t.gap = "" ∧
      t.tokens.map Token.content = dottedContents (part :: parts) := by
  induction parts generalizing part p g with
  | nil =>
    have hmunch := munch_name (hparts part List.mem_cons_self) (r := []) nofun
    have hcut := Cut.token (p := p) (g := g) hmunch (.nil _ [])
    rw [List.append_nil] at hcut
    refine ⟨_, by simpa using hcut, rfl, ?_⟩
    show [(Kind.identifier false, String.ofList part.toList)] = _
    rw [String.ofList_toList]
    rfl
  | cons next parts ih =>
    obtain ⟨d, v, hnext, hd, -⟩ := isName_iff.mp (hparts next (by simp))
    have htext : (".".intercalate (part :: next :: parts)).toList =
        part.toList ++ (['.'] ++ (".".intercalate (next :: parts)).toList) := by
      simp [String.intercalate_cons_cons]
    obtain ⟨r, hr⟩ : ∃ r, (".".intercalate (next :: parts)).toList = d :: r := by
      cases parts <;> simp [String.intercalate_cons_cons, hnext]
    have hname := munch_name (hparts part List.mem_cons_self)
      (r := ['.'] ++ (".".intercalate (next :: parts)).toList) (by simp; decide)
    have hpoint : Munch .operator ['.'] (".".intercalate (next :: parts)).toList :=
      hr ▸ munch_point hd
    obtain ⟨t, hcut, hgap, hcontents⟩ := ih (fun s hs => hparts s (List.mem_cons_of_mem _ hs))
      ((p.after part.toList).after ['.']) []
    have hwhole := Cut.token (g := g) hname (.token hpoint hcut)
    rw [← htext] at hwhole
    refine ⟨_, hwhole, hgap, ?_⟩
    show (Kind.identifier false, String.ofList part.toList) :: (Kind.operator, ".") ::
      t.tokens.map Token.content = _
    rw [String.ofList_toList, hcontents]
    rfl

/-- The tokens of a name with points between its parts. -/
theorem tokenize_dotted {parts : List String} (hne : parts ≠ [])
    (hparts : ∀ s ∈ parts, isName s = true) :
    ∃ t, tokenize (".".intercalate parts) = .ok t ∧
      t.tokens.map Token.content = dottedContents parts := by
  obtain ⟨part, parts, rfl⟩ := List.exists_cons_of_ne_nil hne
  obtain ⟨t, hcut, -, hcontents⟩ := cut_dotted hparts .start []
  exact ⟨t, hcut.pieces_eq, hcontents⟩

/-! ## Lines -/

/-- Tokens block by block, where `B` says which tokens make up a block. -/
inductive Blocks {β : Type} (B : β → List Token → Prop) : List β → List Token → Prop
  | nil : Blocks B [] []
  | cons {x : β} {xs : List β} {us ts : List Token} (head : B x us) (tail : Blocks B xs ts) :
      Blocks B (x :: xs) (us ++ ts)

namespace Blocks

variable {β γ : Type} {B : β → List Token → Prop} {xs ys : List β} {ts : List Token}

theorem of_append (h : Blocks B (xs ++ ys) ts) :
    ∃ us vs, ts = us ++ vs ∧ Blocks B xs us ∧ Blocks B ys vs := by
  induction xs generalizing ts with
  | nil => exact ⟨[], ts, rfl, .nil, h⟩
  | cons x xs ih =>
    cases h with
    | @cons _ _ ws _ head tail =>
      obtain ⟨us, vs, rfl, hus, hvs⟩ := ih tail
      exact ⟨ws ++ us, vs, (List.append_assoc _ _ _).symm, .cons head hus, hvs⟩

theorem append {us : List Token} (h : Blocks B xs ts) (h' : Blocks B ys us) :
    Blocks B (xs ++ ys) (ts ++ us) := by
  induction h with
  | nil => exact h'
  | cons head _ ih =>
    rw [List.append_assoc]
    exact .cons head ih

theorem map {f : γ → β} {zs : List γ} (h : Blocks (fun z => B (f z)) zs ts) :
    Blocks B (zs.map f) ts := by
  induction h with
  | nil => exact .nil
  | cons head _ ih => exact .cons head ih

theorem imp {B' : β → List Token → Prop} (hB : ∀ x us, B x us → B' x us) (h : Blocks B xs ts) :
    Blocks B' xs ts := by
  induction h with
  | nil => exact .nil
  | cons head _ ih => exact .cons (hB _ _ head) ih

/-- What each block keeps of the tokens behind it, all of them keep. -/
theorem behind {H : List Token → Prop} (h : Blocks B xs ts)
    (hB : ∀ x ∈ xs, ∀ us rest, B x us → H rest → H (us ++ rest)) {rest : List Token}
    (hrest : H rest) :
    H (ts ++ rest) := by
  induction h with
  | nil => exact hrest
  | cons head _ ih =>
    rw [List.append_assoc]
    exact hB _ List.mem_cons_self _ _ head (ih fun x hx => hB x (List.mem_cons_of_mem _ hx))

/-- Blocks of blocks. -/
theorem of_flatMap {f : γ → List β} {zs : List γ} (h : Blocks B (zs.flatMap f) ts) :
    Blocks (fun z => Blocks B (f z)) zs ts := by
  induction zs generalizing ts with
  | nil =>
    cases h
    exact .nil
  | cons z zs ih =>
    rw [List.flatMap_cons] at h
    obtain ⟨us, vs, rfl, hus, hvs⟩ := h.of_append
    exact .cons hus (ih hvs)

end Blocks

/-- The tokens of a text, wherever it stands. -/
def Line (s : String) (ts : List Token) : Prop := ∃ t, tokenize s = .ok t ∧ Shifted t.tokens ts

/-- The tokens of texts that stand on lines of their own. -/
abbrev Lines : List String → List Token → Prop := Blocks Line

/-- Where lines stand makes no difference. -/
theorem Lines.shift {ss : List String} {ts us : List Token} (h : Lines ss ts)
    (hs : Shifted ts us) : Lines ss us := by
  induction h generalizing us with
  | nil =>
    obtain rfl : us = [] := List.length_eq_zero_iff.mp hs.alike.length_eq.symm
    exact .nil
  | @cons s ss vs ts head _ ih =>
    obtain ⟨t, ht, hvs⟩ := head
    have hfirst := hs.take vs.length
    have hrest := hs.drop vs.length
    rw [List.take_left] at hfirst
    rw [List.drop_left] at hrest
    rw [← List.take_append_drop vs.length us]
    exact .cons ⟨t, ht, hvs.trans hfirst⟩ (ih hrest)

/-- **Texts on lines of their own are cut one by one.** -/
theorem tokenize_intercalate {ss : List String} (h : ∀ s ∈ ss, ∃ t, tokenize s = .ok t) :
    ∃ t, tokenize ("\n".intercalate ss) = .ok t ∧ Lines ss t.tokens := by
  induction ss with
  | nil => exact ⟨_, rfl, .nil⟩
  | cons s ss ih =>
    obtain ⟨t₁, ht₁⟩ := h s List.mem_cons_self
    obtain ⟨t₂, ht₂, hlines⟩ := ih fun s hs => h s (List.mem_cons_of_mem _ hs)
    cases ss with
    | nil =>
      refine ⟨t₁, ht₁, ?_⟩
      rw [← List.append_nil t₁.tokens]
      exact .cons ⟨t₁, ht₁, .refl _⟩ .nil
    | cons s' ss =>
      obtain ⟨t, us, ht, htokens, hshift⟩ := tokenize_lines ht₁ ht₂
      refine ⟨t, by rwa [String.intercalate_cons_cons], ?_⟩
      rw [htokens]
      exact .cons ⟨t₁, ht₁, .refl _⟩ (hlines.shift hshift)

/-! ## Words on lines of their own -/

/-- A line with one token. -/
theorem Line.single {s : String} {k : Kind}
    (hs : ∃ t, tokenize s = .ok t ∧ t.tokens.map Token.content = [(k, s)]) {ts : List Token}
    (h : Line s ts) : ∃ g p, ts = [⟨k, s, g, p⟩] := by
  obtain ⟨t, ht, hcontents⟩ := hs
  obtain ⟨t', ht', hshift⟩ := h
  obtain rfl : t = t' := Except.ok.inj (ht.symm.trans ht')
  have hmap : ts.map Token.content = [(k, s)] := Eq.trans (Eq.symm hshift.alike) hcontents
  obtain ⟨⟨_, _, g, p⟩, rfl, hu⟩ := List.map_eq_singleton_iff.mp hmap
  obtain ⟨rfl, rfl⟩ := Prod.mk.inj hu
  exact ⟨g, p, rfl⟩

end SharpScript
