import SharpScript.Proofs.Concatenation
import SharpScript.Proofs.Layout
import SharpScript.Proofs.Lexer.InterpolatedStrings
import SharpScript.Proofs.Parser.ExpressionEnds
import SharpScript.Proofs.Pipeline
import SharpScript.Proofs.Printing.Declarations
import SharpScript.Proofs.Types.Text

/-! # Inline overrides

A method marked `JSFunction` or `InlineOverride` is written with the payload of its
annotation in the place of its body.  The payload is the content of a string literal, and
nothing in it is looked at on the way from the source text to the script: not by the lexer,
which takes it for a string, not when the arguments of the annotation are cut out, and not by
the passes that are made over bodies.

## Main Definitions

* `stringLiteral`, `isBlock`: string literals of one line, and the texts of blocks;
* `markedClass`: the source text of a class with one method, which is marked;
* `markedItem`, `overrideScript`: what is read of it, and what is written for it;
* `overrideMethod`: what is written for the method alone.

## Main Results

* `tokenize_markedClass`: the class is cut into the tokens of its parts;
* `parse_markedClass`: the class is read as it is written, whatever the
  payload and the body are;
* `writeItems?_markedItem`: the payload is written, whatever words are replaced in the body;
* `inlineOverride_verbatim`: **the payload of an inline override arrives verbatim**.

## Design Notes

The body is known only as a text that is read to its end as a block when it stands alone.  Its
tokens have other places and other gaps inside the class, so that it is read again there: first
in the new layout, which leaves open what the block is but not that it is one, and then with
the end of the class behind it.
-/

namespace SharpScript

open Lexer

/-! ## Names and literals -/

/-- The string literal with the content `c`. -/
def stringLiteral (c : String) : String := "\"" ++ c ++ "\""

/-- Whether a text begins and ends on a token, and is read to its end as a block.  The first
and the last of its characters are then the braces of the block. -/
def isBlock : String → Bool := isVerbatim (readsTo (do let _ ← Parser.block; return) [])

/-- A text that is a block is cut into tokens that are read as one. -/
theorem exists_block_of_isBlock {s : String} (h : isBlock s = true) :
    ∃ t b, tokenize s = .ok t ∧ Token.spelling t.tokens = s ∧
      Parser.block t.tokens = .ok (b, []) := by
  unfold isBlock isVerbatim at h
  cases ht : tokenize s with
  | error e =>
    rw [ht] at h
    cases h
  | ok t =>
    rw [ht, Bool.and_eq_true, beq_iff_eq, readsTo_iff, List.append_nil] at h
    obtain ⟨b, _, hblock, hpure⟩ := Parser.bind_eq_ok.mp h.2
    cases hpure
    exact ⟨t, b, rfl, h.1, hblock⟩

/-- A letter whose small form begins a word begins one. -/
theorem isWordStart_of_toLower {c : Char} (h : isWordStart c.toLower = true) :
    isWordStart c = true := by
  have hletters : (List.range' 65 26).all (fun n => isWordStart (Char.ofNat n)) = true := by
    decide +kernel
  unfold Char.toLower at h
  split at h
  · rename_i hupper
    have hmem : c.toNat ∈ List.range' 65 26 :=
      List.mem_range'_1.mpr ⟨hupper.1, Nat.lt_succ_of_le hupper.2⟩
    rw [← Char.ofNat_toNat c]
    exact List.all_eq_true.mp hletters _ hmem
  · exact h

theorem toList_toLower (s : String) : s.toLower.toList = s.toList.map Char.toLower :=
  String.toList_map

/-- Letters that make up a name in lower case do so in any case. -/
theorem isName_of_toLower {s w : String} (h : s.toLower = w)
    (hw : w.toList.all isWordStart = true) (hne : w ≠ "")
    (hkeyword : w ∉ keywords.map String.toLower) : isName s = true := by
  have hchars : s.toList.map Char.toLower = w.toList := by
    rw [← h, toList_toLower]
  have hstart : ∀ c ∈ s.toList, isWordStart c = true := fun c hc =>
    isWordStart_of_toLower (List.all_eq_true.mp hw _ (hchars ▸ List.mem_map_of_mem hc))
  refine isName_iff.mpr ?_
  cases hs : s.toList with
  | nil =>
    rw [hs] at hchars
    exact absurd (String.toList_eq_nil_iff.mp hchars.symm) hne
  | cons c v =>
    rw [hs] at hstart
    obtain ⟨hc, hv⟩ := List.forall_mem_cons.mp hstart
    refine ⟨c, v, rfl, hc, fun d hd => by simp [isWordPart, hv d hd], fun hmem => hkeyword ?_⟩
    exact h ▸ List.mem_map_of_mem hmem

/-- The contents of a literal are what its scanner runs over up to the quote. -/
theorem quotedContent_iff {q : Char} (hq : q ∉ ['\\', '\n']) {v : List Char} :
    QuotedContent q v ↔ quotedRest q (v ++ [q]) = some (v.length + 1) := by
  refine ⟨fun h => quotedRest_content hq h [], fun h => ?_⟩
  obtain ⟨w, r, hw, htext, hlength⟩ := quotedRest_eq_some h
  rwa [(List.append_inj htext (Nat.succ.inj hlength)).1]

/-- They do not begin with the quote. -/
theorem QuotedContent.head_ne {q : Char} (hq : q ≠ '\\') {v : List Char}
    (h : QuotedContent q v) :
    v.head? ≠ some q := by
  cases h with
  | nil => simp
  | char hc _ => exact fun heq => hc (by simp_all)
  | escape => simpa using hq.symm

/-- A string of one line is read whole, unless another quote stands behind it. -/
theorem Lexer.munch_stringLiteral {c : String} (h : QuotedContent '"' c.toList) {r : List Char}
    (hr : r.head? ≠ some '"') : Munch .string (stringLiteral c).toList r := by
  have hraw : ¬ 2 ≤ run (· == '"') (c.toList ++ '"' :: r) := by
    rw [two_le_run_quotes]
    rintro ⟨w, hw⟩
    cases hc : c.toList with
    | nil =>
      rw [hc] at hw
      exact hr (by rw [← (List.cons.inj hw).2]; rfl)
    | cons d v =>
      rw [hc] at hw h
      exact h.head_ne (by decide) (by rw [← (List.cons.inj hw).1]; rfl)
  have hmunch : Munch .string ([] ++ '"' :: (c.toList ++ ['"'])) r := by
    refine (munch_string (by simp) (by simp)).mpr ?_
    rw [List.append_assoc, List.singleton_append, stringRest, if_neg hraw, if_neg (by simp),
      if_neg (by simp), quotedRest_content (by decide) h]
    simp
  simpa [stringLiteral] using hmunch

/-- A string in quotes is cut as one token. -/
theorem tokenize_stringLiteral {c : String} (h : QuotedContent '"' c.toList) :
    ∃ t, tokenize (stringLiteral c) = .ok t ∧
      t.tokens.map Token.content = [(.string, stringLiteral c)] := by
  have hcut :=
    Cut.token (p := .start) (g := []) (munch_stringLiteral h (r := []) (by simp)) (.nil _ [])
  rw [List.append_nil] at hcut
  refine ⟨_, hcut.pieces_eq, ?_⟩
  show [(Kind.string, String.ofList (stringLiteral c).toList)] = _
  rw [String.ofList_toList]

/-- A text with one token passes a test if the token does, wherever it stands. -/
theorem isVerbatim_of_single {f : List Token → Bool} {k : Kind} {s : String}
    (hs : ∃ t, tokenize s = .ok t ∧ t.tokens.map Token.content = [(k, s)])
    (hk : k ≠ .identifier true) (hf : ∀ g p, f [⟨k, s, g, p⟩] = true) :
    isVerbatim f s = true := by
  obtain ⟨t, ht, hcontents⟩ := hs
  obtain ⟨g, p, hts⟩ := Line.single ⟨t, ht, hcontents⟩ ⟨t, ht, .refl _⟩
  simp [isVerbatim, ht, hts, hf, Token.spelling, Token.lexeme]

/-- A name is a type. -/
theorem isType_of_isName {s : String} (h : isName s = true) : isType s = true := by
  refine isVerbatim_of_single (tokenize_name h) (by decide) fun g p => readsTo_iff.mpr ?_
  have hround : s ≠ "(" := by
    rintro rfl
    cases startsWord_of_isName h
  have hsign : Ahead.reads "(" [⟨.identifier false, s, g, p⟩] = false :=
    Parser.reads_of_text_ne hround
  exact Parser.typeReference_word rfl hsign (Parser.endsType_of_text (by decide))

/-- A string is an argument. -/
theorem isArgument_stringLiteral {c : String} (h : QuotedContent '"' c.toList) :
    isArgument (stringLiteral c) = true := by
  refine isVerbatim_of_single (tokenize_stringLiteral h) (by decide) fun g p =>
    readsTo_iff.mpr ?_
  refine Parser.expression_eq_ok_iff.mpr ⟨rfl, [[_]], rfl, List.cons_ne_nil _ _, ?_⟩
  refine List.forall_mem_singleton.mpr (.token (Token.sign?_of_kind (by simp)) ?_)
  simp [Token.IsStop]

/-! ## The source text -/

/-- The source text of consecutive tokens is cut into them before a text that stands apart. -/
theorem Lexed.spells {ts : List Token} (h : Lexed ts) (hts : ts ≠ []) {r : List Char}
    (hr : Apart r) : Spells r (Token.spelling ts).toList (ts.map Token.content) := by
  intro p g t ht
  obtain ⟨us, q, hcut, hshift, hgap⟩ := h.cut_gap hts p g
  obtain rfl : q = p.after (Token.spelling ts).toList := hcut.stop_eq
  refine ⟨us, hshift.alike.symm, hgap, ?_, hcut.append (.inr ⟨rfl, hr⟩) ht⟩
  have htext := hcut.text_eq
  simpa using htext.symm

/-- A class with one method, which has an annotation with a string for its argument. -/
def markedClass (owner marker payload method body : String) : String :=
  "class " ++ owner ++ " " ++ Text.braced
    (" [" ++ marker ++ "(\"" ++ payload ++ "\")] void " ++ method ++ "() " ++ body ++ " ")

/-- The tokens of an annotation with one string for its argument. -/
def markContents (marker payload : String) : List (Kind × String) :=
  [sign "[", (.identifier false, marker), sign "(", (.string, stringLiteral payload), sign ")",
    sign "]"]

/-- The tokens of a method without parameters that gives nothing, before its body. -/
def voidContents (method : String) : List (Kind × String) :=
  [(.identifier false, "void"), (.identifier false, method), sign "(", sign ")"]

theorem spells_name {s : String} (hs : isName s = true) {r : List Char}
    (hr : ∀ d, r.head? = some d → isWordPart d = false) :
    Spells r s.toList [(.identifier false, s)] := by
  simpa using Spells.token (munch_name hs hr)

/-- The annotation is cut into its six tokens, whatever comes behind it. -/
theorem spells_mark {marker payload : String} (hmarker : isName marker = true)
    (hpayload : QuotedContent '"' payload.toList) (r : List Char) :
    Spells r ("[".toList ++ (marker.toList ++ ("(".toList ++ ((stringLiteral payload).toList ++
      (")".toList ++ "]".toList))))) (markContents marker payload) := by
  have hliteral : Spells (")".toList ++ "]".toList ++ r) (stringLiteral payload).toList
      [(.string, stringLiteral payload)] := by
    simpa using Spells.token (munch_stringLiteral hpayload (by simp))
  refine (spells_plain (by decide) _).append ((spells_name hmarker ?_).append
    ((spells_plain (by decide) _).append (hliteral.append
      ((spells_plain (by decide) _).append (spells_plain (by decide) _)))))
  rintro _ ⟨⟩
  decide

theorem spells_class {r : List Char} (hr : ∀ d, r.head? = some d → isWordPart d = false) :
    Spells r "class".toList [(.keyword, "class")] := by
  have hword : Munch .keyword "class".toList r :=
    munch_word (c := 'c') (v := ['l', 'a', 's', 's']) (by decide +kernel)
      (List.all_eq_true.mp (by decide +kernel)) hr
  simpa using Spells.token hword

/-- A brace is cut as one token. -/
theorem spells_brace {w : String} (hw : w ∈ [Text.openBrace, Text.closeBrace])
    (r : List Char) :
    Spells r w.toList [sign w] := by
  have hsigns : ∀ w ∈ [Text.openBrace, Text.closeBrace], w ∈ operators ∧
      w.toList.head? ≠ some '/' ∧ continuations w = [] ∧ w ≠ "." := by decide
  obtain ⟨hsign, hslash, hnone, hpoint⟩ := hsigns w hw
  exact .sign hsign hslash fun d _ =>
    ⟨by rw [hnone]; exact List.not_mem_nil, fun h => absurd h hpoint⟩

/-- The text of the class, token by token. -/
theorem markedClass_eq (owner marker payload method body : String) :
    markedClass owner marker payload method body =
      "class" ++ (" " ++ (owner ++ (" " ++ (Text.openBrace ++ (" " ++
        (("[" ++ (marker ++ ("(" ++ (stringLiteral payload ++ (")" ++ "]"))))) ++
          (" " ++ ("void" ++
            (" " ++ (method ++
              ("(" ++ (")" ++ (" " ++ (body ++ (" " ++ Text.closeBrace))))))))))))))) := by
  have hclass : "class " = "class" ++ " " := rfl
  have hopen : " [" = " " ++ "[" := rfl
  have hround : "(\"" = "(" ++ "\"" := rfl
  have hvoid : "\")] void " = "\"" ++ (")" ++ ("]" ++ (" " ++ ("void" ++ " ")))) := rfl
  have hempty : "() " = "(" ++ (")" ++ " ") := rfl
  unfold markedClass Text.braced stringLiteral
  rw [hclass, hopen, hround, hvoid, hempty]
  simp only [String.append_assoc]

/-- The class is cut into the tokens of its parts. -/
theorem tokenize_markedClass {owner marker payload method : String}
    (howner : isName owner = true) (hmarker : isName marker = true)
    (hpayload : QuotedContent '"' payload.toList) (hmethod : isName method = true)
    {ts : List Token} (hts : Lexed ts) (hne : ts ≠ []) :
    ∃ t, tokenize (markedClass owner marker payload method (Token.spelling ts)) = .ok t ∧
      t.tokens.map Token.content = (.keyword, "class") :: (.identifier false, owner) ::
        sign Text.openBrace :: (markContents marker payload ++ (voidContents method ++
          (ts.map Token.content ++ [sign Text.closeBrace]))) := by
  have hblank : ∀ c ∈ " ".toList, isBlank c = true := List.all_eq_true.mp (by decide +kernel)
  have hword : ∀ (d : Char) (cs : List Char), isWordPart d = false →
      ∀ c, (d :: cs).head? = some c → isWordPart c = false := by
    rintro d cs hd _ ⟨⟩
    exact hd
  have hspells : Spells [] (markedClass owner marker payload method (Token.spelling ts)).toList
      ([(.keyword, "class")] ++ ([(.identifier false, owner)] ++ ([sign Text.openBrace] ++
        (markContents marker payload ++ ([(.identifier false, "void")] ++
          ([(.identifier false, method)] ++ ([sign "("] ++ ([sign ")"] ++
            (ts.map Token.content ++ [sign Text.closeBrace]))))))))) := by
    simp only [markedClass_eq, String.toList_append]
    refine (spells_class (hword ' ' _ (by decide))).append_gap hblank ?_
    refine (spells_name howner (hword ' ' _ (by decide))).append_gap hblank ?_
    refine (spells_brace (by decide) _).append_gap hblank ?_
    refine (spells_mark hmarker hpayload _).append_gap hblank ?_
    refine (spells_name (by decide +kernel) (hword ' ' _ (by decide))).append_gap hblank ?_
    refine (spells_name hmethod (hword '(' _ (by decide))).append ?_
    refine (spells_plain (by decide) _).append
      ((spells_plain (by decide) _).append_gap hblank ?_)
    exact (hts.spells hne (apart_cons.mpr rfl)).append_gap hblank (spells_brace (by decide) [])
  obtain ⟨us, hus, -, -, hcut⟩ := hspells .start [] _ (.nil _ [])
  rw [List.append_nil] at hcut
  refine ⟨_, hcut.pieces_eq, ?_⟩
  show (us ++ []).map Token.content = _
  rw [List.append_nil, hus]
  rfl

/-! ## Reading -/

/-- The first of some tokens. -/
theorem exists_cons_of_contents {k : Kind} {w : String} {ks : List (Kind × String)}
    {us : List Token} (h : us.map Token.content = (k, w) :: ks) :
    ∃ g p vs, us = ⟨k, w, g, p⟩ :: vs ∧ vs.map Token.content = ks := by
  obtain ⟨⟨_, _, g, p⟩, vs, rfl, hhead, htail⟩ := List.map_eq_cons_iff.mp h
  obtain ⟨rfl, rfl⟩ := Prod.mk.inj hhead
  exact ⟨g, p, vs, rfl, htail⟩

/-- Texts with one token each may stand on lines of their own. -/
theorem lines_of_contents {ks : List (Kind × String)}
    (hks : ∀ x ∈ ks, ∃ t, tokenize x.2 = .ok t ∧ t.tokens.map Token.content = [x])
    {us : List Token} (h : us.map Token.content = ks) : Lines (ks.map Prod.snd) us := by
  induction ks generalizing us with
  | nil =>
    rw [List.map_eq_nil_iff.mp h]
    exact .nil
  | cons x ks ih =>
    obtain ⟨hx, hks⟩ := List.forall_mem_cons.mp hks
    obtain ⟨u, vs, rfl, hu, hvs⟩ := List.map_eq_cons_iff.mp h
    obtain ⟨t, ht, hcontents⟩ := hx
    have halike : Alike t.tokens [u] := hcontents.trans (by rw [← hu]; rfl)
    obtain ⟨v, hv⟩ := List.length_eq_one_iff.mp halike.length_eq
    have hgaps : t.tokens.tail.map Token.gap = [u].tail.map Token.gap := by
      rw [hv]
      rfl
    exact Blocks.cons ⟨t, ht, halike, hgaps⟩ (ih hks hvs)

/-- An annotation with one string for its argument. -/
def markLead (marker payload : String) : Lead :=
  ⟨default, [⟨default, marker, [stringLiteral payload]⟩], []⟩

/-- The annotation can be printed. -/
theorem isPrintable_markLead {marker payload : String} (hmarker : isName marker = true)
    (hpayload : QuotedContent '"' payload.toList) :
    (markLead marker payload).isPrintable = true := by
  simp [markLead, Lead.isPrintable, Annotation.isPrintable, isType_of_isName hmarker,
    isArgument_stringLiteral hpayload]

/-- Its tokens are those that would be printed. -/
theorem lines_markLead {marker payload : String} (hmarker : isName marker = true)
    (hpayload : QuotedContent '"' payload.toList) {us : List Token}
    (h : us.map Token.content = markContents marker payload) :
    Lines (markLead marker payload).lines us := by
  have hwords : ∀ x ∈ markContents marker payload,
      ∃ t, tokenize x.2 = .ok t ∧ t.tokens.map Token.content = [x] := by
    simp only [markContents, List.forall_mem_cons]
    exact ⟨tokenize_word (by decide), tokenize_name hmarker, tokenize_word (by decide),
      tokenize_stringLiteral hpayload, tokenize_word (by decide),
      tokenize_word (by decide), by simp⟩
  exact lines_of_contents hwords h

namespace Parser

variable {n : Nat} {bs ts us : List Token} {b : List String}

/-- A block that is read to its end is read whatever comes behind it. -/
theorem yields_blockTokens (hlexed : Lexed bs) (h : block bs = .ok (b, [])) :
    Yields n block (fun _ => True) (List.Forall₂ Eq b) bs := by
  intro rest _ _
  have hclosed := closed_of_reads Comparison.sim_block rfl hlexed.wellShaped h
    (fun _ ht => by cases ht)
  obtain ⟨k, c, hk, hdrop, -, hagrees, hrun⟩ :=
    (Comparison.sim_block (C := .extension rest) bs (bs ++ rest) ⟨rfl, hclosed⟩).ok h
  obtain ⟨_, hblock, hlands⟩ := hrun (.inr (.inr ⟨[], rfl, by simp⟩))
  obtain rfl := hlands.eq_of_tight rfl
  rw [List.drop_append_of_le_length hk, ← hdrop, List.nil_append] at hblock
  exact ⟨c, hblock, hagrees⟩

/-- A block is a block in any layout. -/
theorem block_of_alike (halike : Alike ts bs) (hts : Lexed ts) (hbs : Lexed bs)
    (h : block ts = .ok (b, [])) : ∃ c, block bs = .ok (c, []) := by
  obtain ⟨k, c, hk, hdrop, -, -, hrun⟩ :=
    (Comparison.sim_block (C := .layout) ts bs ⟨halike, hts, hbs⟩).ok h
  obtain ⟨_, hblock, hlands⟩ := hrun (.inl trivial)
  obtain rfl := hlands.eq_of_tight rfl
  have hnil : bs.drop k = [] := by
    rw [List.drop_eq_nil_iff, ← halike.length_eq]
    exact List.drop_eq_nil_iff.mp hdrop.symm
  exact ⟨c, hnil ▸ hblock⟩

/-- A block begins with a brace. -/
theorem reads_brace_of_block (h : block bs = .ok (b, [])) (rest : List Token) :
    Ahead.reads Text.openBrace (bs ++ rest) = true := by
  obtain ⟨t, mid, rfl, ht⟩ := Comparison.exists_reads (by decide) (expect_bind_eq_ok.mp h).1
  exact ht

/-- The parameters and the body of a method without parameters. -/
theorem yields_plainMethod (hlexed : Lexed bs) (h : block bs = .ok (b, [])) (name : String)
    (returns : Bool) (g₁ g₂ : String) (p₁ p₂ : Place) :
    Yields n (method name returns) (fun _ => True)
      (MemberForm.Agrees Eq (.method name [] (some b)))
      (⟨.operator, "(", g₁, p₁⟩ :: ⟨.operator, ")", g₂, p₂⟩ :: bs) := by
  have hparams : Yields n parameters (fun _ => True) (· = [])
      [⟨.operator, "(", g₁, p₁⟩, ⟨.operator, ")", g₂, p₂⟩] :=
    .expect rfl (Yields.accept rfl (yields_pure (V := (· = [])) rfl)).less
  have hbody : Yields n (body returns) (fun _ => True)
      (Option.Rel (List.Forall₂ Eq) (some b)) bs :=
    .pos (fun rest _ => reads_brace_of_block h rest)
      ((yields_blockTokens hlexed h).map fun c hc => .some hc)
  have hopen : ∀ rest, constraints (bs ++ rest) = .ok ((), bs ++ rest) := fun rest =>
    constraints_none (by rw [text_of_reads (reads_brace_of_block h rest)]; decide)
  show Yields n _ _ _ ([_, _] ++ bs)
  refine .neg (fun _ _ => rfl) (.bind hparams (fun _ _ => trivial) ?_)
  rintro _ rfl
  exact .nothing () (fun rest _ => hopen rest) (hbody.map fun c hc => .method name .nil hc)

/-- A method without parameters that gives nothing. -/
theorem yields_voidMethod {owner name : String} (hname : isName name = true)
    (hts : ts.map Token.content = voidContents name) (hlexed : Lexed bs)
    (h : block bs = .ok (b, [])) :
    Yields n (memberForm owner) (fun _ => True)
      (MemberForm.Agrees Eq (.method name [] (some b))) (ts ++ bs) := by
  obtain ⟨g₁, p₁, _, rfl, hbehind₁⟩ := exists_cons_of_contents hts
  obtain ⟨g₂, p₂, _, rfl, hbehind₂⟩ := exists_cons_of_contents hbehind₁
  obtain ⟨g₃, p₃, _, rfl, hbehind₃⟩ := exists_cons_of_contents hbehind₂
  obtain ⟨g₄, p₄, _, rfl, hnil⟩ := exists_cons_of_contents hbehind₃
  obtain rfl := List.map_eq_nil_iff.mp hnil
  simp only [List.cons_append, List.nil_append]
  have hword := startsWord_of_isName hname
  obtain ⟨-, -, -, -, -, hkeyword⟩ := isName_iff.mp hname
  exact memberForm_typed (by decide) hword (yields_typedMember (by decide) rfl hword hkeyword
    (fun rest _ => by simp [Ahead.text]) fun returns =>
      .pos (fun rest _ => rfl) (yields_plainMethod hlexed h name returns g₃ g₄ p₃ p₄))

/-- Such a method behind annotations and modifiers. -/
theorem readsMember_voidMethod {owner name : String} (hname : isName name = true) {l : Lead}
    (hl : l.isPrintable = true) (hus : Lines l.lines us)
    (hts : ts.map Token.content = voidContents name) (hlexed : Lexed bs)
    (h : block bs = .ok (b, [])) :
    ReadsMember owner (.member ⟨l, .method name [] (some b)⟩) (us ++ (ts ++ bs)) := by
  have hform : ∀ n, Yields n (memberForm owner) EndsMember
      (MemberForm.Agrees Eq (.method name [] (some b))) (ts ++ bs) := fun n =>
    (yields_voidMethod hname hts hlexed h).mono (fun _ _ => trivial) fun _ h => h
  obtain ⟨g, p, vs, rfl, -⟩ := exists_cons_of_contents hts
  refine readsMember_of_step fun n => ⟨fun rest => ?_,
    .bind (yields_lead hl hus) (fun rest _ => ?_) fun l' hl' =>
    .nothing none (fun rest _ => ?_) ((hform (n + 1)).map fun f hf => .member ⟨hl', hf⟩)⟩
  · rw [List.append_assoc]
    exact startsItem_lead hl hus (by decide +kernel : startsWord "void" = true)
  · exact headed_name (by decide +kernel) (.inl (by decide))
  · refine typeDeclaration_none (fun w hw => reads_of_text_ne ?_) rfl
    rintro rfl
    revert hw
    exact (by decide : "void" ∉ ["class", "interface", "enum", "struct", "delegate"])

/-- The one item of a class. -/
theorem yields_singleItem {owner : String} {i : Item} (hi : ReadsMember owner i ts) :
    Yields n (gather do
      if ← isAt Text.closeBrace then return none
      else if ← atEnd then fail (.expected (.word Text.closeBrace))
      else if ← accept ";" then return some []
      else return some [← member owner]) (SignNext Text.closeBrace) (ItemsAgree
          Eq Eq [i]) ts := by
  have hne : ts ≠ [] := by simpa using (hi.1 []).ne_nil
  have hfalse : ∀ w ∈ [Text.closeBrace, ";"], ∀ rest, Ahead.reads w (ts ++ rest) = false :=
    fun w hw rest => reads_eq_false ((hi.1 rest).text_not_mem (by decide) (by decide)) w hw
  have hblocks : Blocks (fun _ us => us = ts) [i] (ts ++ []) := .cons rfl .nil
  rw [List.append_nil] at hblocks
  refine (yields_gather (H := EndsMember) (R := fun i a => ∃ j, a = [j] ∧ i.Agrees Eq Eq j)
    ?_ (by simp) ?_ hblocks).mono (fun _ h => h) ?_
  · rintro j hj _ rfl
    obtain rfl := List.mem_singleton.mp hj
    refine ⟨hne,
      .neg (fun rest _ => hfalse _ (by simp) rest)
      (.neg (fun rest _ => by simp [hne])
        (.skip (fun rest _ => hfalse _ (by simp) rest)
          ((yields_fix hi.2).map fun j hj => ?_)))⟩
    exact ⟨[j], rfl, j, rfl, hj⟩
  · rintro _ ⟨g, p, us, rfl⟩
    exact ⟨fun hmem => by simp [Ahead.text] at hmem, rfl⟩
  · rintro _ ⟨as, has, rfl⟩
    exact itemsAgree_of_forall₂ (foldr_singletons has)

/-- A class with one member. -/
theorem declares_single {owner : String} {i : Item} (hi : ReadsMember owner i ts)
    {g₁ g₂ g₃ g₄ : String} {p₁ p₂ p₃ p₄ : Place} :
    Declares n member (.type .classType ⟨default, [], []⟩ owner [] [i]) ⟨default, [], []⟩ []
      (⟨.keyword, "class", g₁, p₁⟩ :: ⟨.identifier false, owner, g₂, p₂⟩ ::
        ⟨.operator, Text.openBrace, g₃, p₃⟩ ::
        (ts ++ [⟨.operator, Text.closeBrace, g₄, p₄⟩])) where
  printable := rfl
  lead := .nil
  keyword := ⟨_, _, _, _, rfl, by decide⟩
  type l' hl' := by
    have hbases : Yields n baseList (SignNext Text.openBrace) (List.Forall₂ Eq []) [] :=
      yields_baseList rfl .nil
    refine (Yields.accept rfl (Yields.map
      (V := (Item.type .classType ⟨default, [], []⟩ owner [] [i]).Agrees Eq Eq) ?_
      fun j hj => ⟨j, rfl, hj⟩)).less
    refine .identifier rfl (.neg (fun _ _ => rfl) (.neg (fun _ _ => rfl) (.bind hbases
      (fun rest _ => ⟨g₃, p₃, _, rfl⟩) fun bases hbases => .nothing ()
        (fun rest _ => constraints_none (by simp [Ahead.text])) (.expect rfl ?_))))
    refine .bind (yields_singleItem hi) (fun rest _ => ⟨g₄, p₄, _, rfl⟩) fun is his => ?_
    exact .expect rfl (.nothing false (fun rest hrest => accept_semicolon hrest)
      (yields_pure (.type .classType hl' owner hbases his)))

end Parser

/-- A source text that is one type. -/
theorem parse_of_declares {s : String} {t : Tokenized} (ht : tokenize s = .ok t) {i : Item}
    {l : Lead} {us vs : List Token} (htokens : t.tokens = us ++ vs)
    (h : ∀ n, Parser.Declares n Parser.member i l us vs) :
    ∃ j, parse s = .ok ⟨[], [j]⟩ ∧ i.Agrees Eq Eq j := by
  obtain ⟨hstarts, hplain, hyields⟩ : _ ∧ _ ∧
      Parser.Yields (t.tokens.length + 1) (Parser.nodeStep Parser.node) Parser.EndsMember
        (fun a => i.Agrees Eq Eq a.1 ∧ a.2 = []) (us ++ vs) := (h _).node
  obtain ⟨⟨j, usings⟩, hnode, hagrees, rfl⟩ := hyields [] (by simp [htokens])
    (fun hmem => by simp [Ahead.text] at hmem)
  have hplain := hplain []
  rw [List.append_nil, ← htokens] at hplain hnode
  obtain ⟨u, ts, hts⟩ : ∃ u ts, t.tokens = u :: ts := by
    refine List.exists_cons_of_ne_nil ?_
    simpa [htokens] using (hstarts []).ne_nil
  have hround : Parser.nodeRound Parser.node false t.tokens = .ok (some ⟨[], [j]⟩, []) := by
    rw [hts, Parser.nodeRound_cons, ← hts]
    refine Parser.bind_eq_ok.mpr ⟨⟨[], [j]⟩, [], ?_, rfl⟩
    rw [Parser.entryWith_of_plain hplain]
    exact Parser.bind_eq_ok.mpr ⟨(j, []), [], Parser.node_eq_ok.mpr hnode, rfl⟩
  have hnodes : Parser.compilationUnit t.tokens = .ok (⟨[], [j]⟩, []) :=
    Parser.nodes_eq_ok.mpr (.inr ⟨_, [], ∅, hround, rfl, (Parser.append_empty _).symm⟩)
  refine ⟨j, ?_, hagrees⟩
  rw [parse_of_tokenize ht, Tokenized.parse, hnodes]

/-- The tree of a class with one method, which has an annotation with a
string for its argument. -/
def markedItem (owner marker payload method : String) (b : List String) : Item :=
  .type .classType ⟨default, [], []⟩ owner []
    [.member ⟨markLead marker payload, .method method [] (some b)⟩]

/-- **The class is read as it is written,** up to positions. -/
theorem parse_markedClass {owner marker payload method body : String}
    (howner : isName owner = true) (hmarker : isName marker = true)
    (hpayload : QuotedContent '"' payload.toList) (hmethod : isName method = true)
    (hbody : isBlock body = true) :
    ∃ b j, parse (markedClass owner marker payload method body) = .ok ⟨[], [j]⟩ ∧
      (markedItem owner marker payload method b).Agrees Eq Eq j := by
  obtain ⟨tb, c, htb, rfl, hblock⟩ := exists_block_of_isBlock hbody
  have hlexed := lexed_of_tokenize htb
  have hne : tb.tokens ≠ [] := by
    intro hnil
    rw [hnil] at hblock
    cases hblock
  obtain ⟨t, ht, hcontents⟩ := tokenize_markedClass howner hmarker hpayload hmethod hlexed hne
  obtain ⟨g₁, p₁, _, htokens, howner'⟩ := exists_cons_of_contents hcontents
  obtain ⟨g₂, p₂, _, rfl, hopen⟩ := exists_cons_of_contents howner'
  obtain ⟨g₃, p₃, _, rfl, hinside⟩ := exists_cons_of_contents hopen
  obtain ⟨us, _, rfl, hus, hbehind⟩ := List.map_eq_append_iff.mp hinside
  obtain ⟨vs, _, rfl, hvs, hbraces⟩ := List.map_eq_append_iff.mp hbehind
  obtain ⟨bs, _, rfl, hbs, hclose⟩ := List.map_eq_append_iff.mp hbraces
  obtain ⟨g₄, p₄, _, rfl, hnil⟩ := exists_cons_of_contents hclose
  obtain rfl := List.map_eq_nil_iff.mp hnil
  have hlexed' : Lexed bs := by
    have hwhole := lexed_of_tokenize ht
    rw [htokens] at hwhole
    exact (hwhole.drop 3).of_append_right.of_append_right.of_append_left
  obtain ⟨b, hblock'⟩ := Parser.block_of_alike (Eq.symm hbs) hlexed hlexed' hblock
  have hread : Parser.ReadsMember owner
      (.member ⟨markLead marker payload, .method method [] (some b)⟩) (us ++ (vs ++ bs)) :=
    Parser.readsMember_voidMethod hmethod (isPrintable_markLead hmarker hpayload)
      (lines_markLead hmarker hpayload hus) hvs hlexed' hblock'
  rw [← List.append_assoc vs, ← List.append_assoc us, ← List.nil_append (_ :: _)] at htokens
  exact ⟨b, parse_of_declares ht htokens fun n => Parser.declares_single hread⟩

/-! ## Writing -/

/-- The contents of a literal are found between its quotes. -/
theorem unwrapLiteral_stringLiteral (c : String) : unwrapLiteral (stringLiteral c) = c := by
  simp [unwrapLiteral, stringLiteral, dropLastIf]

theorem folded_of_isName {s : String} (hs : isName s = true) :
    Marker.folded s = s.toLower := by
  have hsolid : Solid s.toList := (munch_name hs (r := []) (by simp)).shape.solid
  apply String.toList_injective
  rw [Marker.folded, trim_eq_self hsolid, String.toList_ofList, toList_toLower]

/-- The marker of an inline override is a name, in upper or lower case. -/
theorem isName_of_override {s : String} (h : s.toLower ∈ Marker.inlineOverride.names) :
    isName s = true := by
  rcases List.mem_pair.mp h with h | h
  · exact isName_of_toLower h (by decide +kernel) (by decide) (by decide +kernel)
  · exact isName_of_toLower h (by decide +kernel) (by decide) (by decide +kernel)

/-- What is written for the method: the payload is its body. -/
def overrideMethod (payload method : String) : String :=
  method ++ "() " ++ Text.braced ("\n" ++ payload ++ "\n") ++ "\n"

/-- The method is written with the payload for its body, whatever its body is. -/
theorem write?_markLead {marker : String}
    (hmarker : marker.toLower ∈ Marker.inlineOverride.names) (owner payload method : String)
    (b : Option (List String)) :
    Member.write? ⟨markLead marker payload, .method method [] b⟩ owner =
      .ok (.ofText (overrideMethod payload method)) := by
  have hfolded := folded_of_isName (isName_of_override hmarker)
  have hselects : ∀ m : Marker, m.selects ⟨default, marker, [stringLiteral payload]⟩ =
      (m == .inlineOverride) := by
    intro m
    rw [Marker.selects, hfolded]
    rcases List.mem_pair.mp hmarker with h | h <;> rw [h] <;> cases m <;> decide
  have hexcluded : isExcluded (markLead marker payload).annotations = false := by
    simp [isExcluded, markLead, hselects]
  have hentry :
      (markLead marker payload).annotations.any Marker.entryPoint.selects = false := by
    simp [markLead, hselects]
  have hlines : methodLines (markLead marker payload).annotations b = payload ++ "\n" := by
    simp [methodLines, markLead, Marker.find?, hselects, Annotation.payload,
      unwrapLiteral_stringLiteral]
  have htext : writeFunction method [] (payload ++ "\n") = overrideMethod payload method := by
    apply String.toList_injective
    simp [writeFunction, writeParams, overrideMethod, Text.braced]
  rw [Member.write?, hexcluded, if_neg Bool.false_ne_true]
  simp only [Member.writeMethod, hentry, hlines, htext]
  rfl

theorem bracketed_writeClass (name s : String) :
    bracketed "Class" name (writeClass name none (.ofText s)) =
      .ofText ("// BEGIN C# Class: " ++ name ++ "\n" ++
        ("class " ++ name ++ " \x7b\n" ++ s ++ "\x7d\n") ++
        ("// END C# Class: " ++ name ++ "\n")) := rfl

/-- What is written for the class: its one method has the payload for its body. -/
def overrideScript (owner payload method : String) : String :=
  "// BEGIN C# Class: " ++ owner ++ "\nclass " ++ owner ++ " " ++
    Text.braced ("\n" ++ overrideMethod payload method) ++
    "\n// END C# Class: " ++ owner ++ "\n"

theorem bracketed_override (owner payload method : String) :
    bracketed "Class" owner (writeClass owner none (.ofText (overrideMethod payload method))) =
      .ofText (overrideScript owner payload method) := by
  have hclass : "\nclass " = "\n" ++ "class " := rfl
  have hopen : " \x7b\n" = " " ++ (Text.openBrace ++ "\n") := rfl
  have hclose : "\x7d\n" = Text.closeBrace ++ "\n" := rfl
  have hend : "\n// END C# Class: " = "\n" ++ "// END C# Class: " := rfl
  unfold overrideScript Text.braced
  simp only [bracketed_writeClass, hclass, hopen, hclose, hend, String.append_assoc]

/-- **The class is written with the contents of the literal for the body of its method**,
whatever the replacement is. -/
theorem writeItems?_markedItem {marker : String}
    (hmarker : marker.toLower ∈ Marker.inlineOverride.names) (r : Replacement)
    (owner payload method : String) (b : List String) :
    writeItems? r [markedItem owner marker payload method b] =
      .ok (.ofText (overrideScript owner payload method)) := by
  have hmember : writeMembers? r owner
      [.member ⟨markLead marker payload, .method method [] (some b)⟩] =
        .ok (.ofText (overrideMethod payload method)) := by
    rw [writeMembers?_cons, Item.writeIn?]
    show (Member.write? ⟨markLead marker payload, .method method [] (some (b.map r.apply))⟩
      owner >>= fun f => .ok (f ++ ∅)) = _
    rw [write?_markLead hmarker]
    exact congrArg Except.ok (Fragment.append_empty _)
  have hitem : (markedItem owner marker payload method b).write? r =
      .ok (.ofText (overrideScript owner payload method)) := by
    rw [markedItem, Item.write?_class, hmember, ← bracketed_override]
    rfl
  rw [writeItems?_cons, hitem]
  exact congrArg Except.ok (Fragment.append_empty _)

/-- **The payload of an inline override arrives verbatim.**  Whatever the body of the method
is, and whatever words are replaced in bodies, the script has the payload in its place. -/
theorem inlineOverride_verbatim (owner marker payload method body : String)
    (howner : isName owner = true)
    (hmarker : marker.toLower = "jsfunction" ∨ marker.toLower = "inlineoverride")
    (hpayload : QuotedContent '"' payload.toList) (hmethod : isName method = true)
    (hbody : isBlock body = true) :
    ∃ u, parse (markedClass owner marker payload method body) = .ok u ∧
      (∀ r, u.write? r = .ok ⟨overrideScript owner payload method, []⟩) ∧
      u.writeWith? id = .ok ⟨overrideScript owner payload method, []⟩ := by
  have hmarker : marker.toLower ∈ Marker.inlineOverride.names := List.mem_pair.mpr hmarker
  obtain ⟨b, j, hparse, hagrees⟩ :=
    parse_markedClass howner (isName_of_override hmarker) hpayload hmethod hbody
  have hwrite : ∀ r, writeItems? r [j] = .ok ⟨overrideScript owner payload method, []⟩ := by
    intro r
    obtain ⟨f, hf, hj⟩ := writeItems?_of_agree r (.cons hagrees .nil)
    rw [writeItems?_markedItem hmarker] at hf
    rw [hj, ← hf]
    rfl
  have hnone : (id : Member → Member) = Member.replace ⟨[]⟩ := Replacement.pass_eq ⟨[]⟩
  refine ⟨⟨[], [j]⟩, hparse, hwrite, ?_⟩
  show writeItemsWith? id [j] = _
  rw [hnone]
  exact hwrite ⟨[]⟩

/-- A payload with quotes, a comma, brackets, starts of comments and a comparison. -/
def signPayload : String := "f(\\\"a, b)] \x7d /* == //\\\");"

/-- A body with braces in a literal and in a comment. -/
def signBody : String :=
  Text.braced (" if (a == '\x7d') " ++ Text.braced " /* \x7d */ A(); " ++ " ")

theorem inlineOverride_verbatim_signs :
    ∃ u, parse
        ("class A " ++ Text.braced
          (" [jsFUNCTION(\"" ++ signPayload ++ "\")] void F() " ++ signBody ++ " ")) = .ok u ∧
      (∀ r, u.write? r = .ok ⟨overrideScript "A" signPayload "F", []⟩) ∧
      u.writeWith? id = .ok ⟨overrideScript "A" signPayload "F", []⟩ :=
  inlineOverride_verbatim "A" "jsFUNCTION" signPayload "F" signBody (by decide +kernel)
    (.inl (by decide +kernel)) ((quotedContent_iff (by decide)).mpr (by decide +kernel))
    (by decide +kernel) (by decide +kernel)

end SharpScript
