import SharpScript.Proofs.Lexer.Join
import SharpScript.Proofs.Parser.Passage

/-! # What the rules read

Every rule of the grammar pairs the brackets that it reads, apart from those in loose parts,
and the texts that it gives are quoted from its tokens in order.

## Main Results

* `Parser.tells_typeReference`, `Parser.tells_restOfMember`: parts that are passed over;
* `Parser.tells_lead`, `Parser.tells_parameters`, `Parser.tells_body`: parts of declarations;
* `Parser.tells_memberForm`: members that are no types.
-/

namespace SharpScript.Parser

variable {α : Type} {ts rest : List Token}

/-! ## Parts that are passed over -/

/-- A rule that pairs all brackets. -/
theorem tells_of_balanced {c : Contract} {U : α → α → Prop} {p : Parser α}
    (h : Comparison.shifted.Sim c U p p) (hc : c.balanced = true) : Tells p Silent := by
  intro ts _ a rest hp
  obtain ⟨n, -, rfl, hspans⟩ := h.reads hp
  have hpassage := Passage.balanced (hspans.balanced hc) (ts.drop n)
  rw [List.take_append_drop] at hpassage
  exact ⟨[], rfl, hpassage⟩

/-- A group pairs its brackets and gives nothing. -/
theorem tells_group : Tells group Silent := tells_of_balanced Comparison.sim_group rfl

theorem tells_chunk : Tells chunk Silent := tells_of_balanced Comparison.sim_chunk rfl

/-- An expression is made of chunks. -/
theorem tells_expression (stops : List String) : Tells (expression stops) Silent :=
  tells_of_balanced (Comparison.sim_expression stops) rfl

/-- The tokens that a rule reads, for a rule that is known to read some. -/
theorem exists_append_of_reads {c : Contract} {U : α → α → Prop} {p : Parser α} {a : α}
    (h : Comparison.shifted.Sim c U p p) (hp : p ts = .ok (a, rest)) :
    ∃ w, ts = w ++ rest ∧ c.Spans w := by
  obtain ⟨n, -, rfl, hspans⟩ := h.reads hp
  exact ⟨ts.take n, (List.take_append_drop n ts).symm, hspans⟩

/-- Type arguments hold groups in which all brackets are paired; the angle brackets around them
are no brackets. -/
theorem tells_typeArguments : Tells typeArguments Silent := by
  intro ts _ a rest hp
  obtain ⟨hread, hclose⟩ := expect_bind_eq_ok.mp hp
  obtain ⟨t, ts, rfl, ht⟩ := Comparison.exists_reads (by decide) hread
  obtain ⟨w, hw, hspans⟩ := exists_append_of_reads Comparison.sim_typeArguments hp
  obtain ⟨_, v, rfl⟩ := List.exists_cons_of_ne_nil (hspans.progress rfl)
  obtain ⟨rfl, rfl⟩ := List.cons.inj hw
  have hclose : closeAngles 1 (v ++ rest) = .ok rest := by
    revert hclose
    show (closeAngles 1 (v ++ rest)).map ((), ·) = .ok (a, rest) → _
    cases closeAngles 1 (v ++ rest) with
    | error e => exact nofun
    | ok us =>
      rintro ⟨⟩
      rfl
  exact ⟨[], rfl, .loose (.arguments ht hclose)⟩

/-- A word that is no bracket may be read without pairing anything. -/
theorem sign?_of_readsAny {ws : List String} (hws : ∀ w ∈ ws, IsPlain w ∧ w ≠ "")
    (h : Ahead.readsAny ws ts = true) : ∀ t ∈ ts.head?, t.sign? = none := by
  obtain ⟨w, hw, hread⟩ := List.any_eq_true.mp h
  obtain ⟨t, ts, rfl, ht⟩ := Comparison.exists_reads (hws w hw).2 hread
  rintro _ ⟨⟩
  exact sign?_of_reads ht (hws w hw).1

theorem sign?_of_isWord (h : Ahead.isWord 0 ts = true) : ∀ t ∈ ts.head?, t.sign? = none := by
  cases ts with
  | nil => cases h
  | cons t ts =>
    rintro _ ⟨⟩
    exact Token.sign?_of_isWord h

/-- A further part of a name is a word or a list of type arguments. -/
theorem tells_typePart : Tells typePart Silent := by
  intro ts hts
  refine .ahead ?_
  split
  · rename_i h
    refine .advance (sign?_of_readsAny (by decide) h) hts fun hrest => .ahead ?_
    split
    · rename_i hword
      exact .advance (sign?_of_isWord hword) hrest fun _ => tellsAt_pure rfl
    · exact tellsAt_fail
  · refine .ahead ?_
    split
    · exact (tells_typeArguments ts hts).skip hts fun _ _ _ _ => tellsAt_pure rfl
    · exact tellsAt_pure rfl

theorem tells_typeSuffix : Tells typeSuffix Silent := by
  intro ts hts
  refine .ahead ?_
  split
  · rename_i h
    exact .advance (sign?_of_readsAny (by decide) h) hts fun _ => tellsAt_pure rfl
  · refine .ahead ?_
    split
    · exact (tells_group ts hts).skip hts fun _ _ _ _ => tellsAt_pure rfl
    · exact tellsAt_pure rfl

/-- A type pairs its brackets: those of a tuple, of an array and of type arguments. -/
theorem tells_typeReference : Tells typeReference Silent := by
  intro ts hts
  refine .ahead ?_
  split
  · exact (tells_group ts hts).skip hts fun _ mid _ hmid =>
      tells_typeSuffix.repeatWhile mid hmid
  · refine .ahead ?_
    split
    · rename_i h
      refine .advance (sign?_of_isWord h) hts fun hrest => ?_
      exact (tells_typePart.repeatWhile _ hrest).skip hrest fun _ mid _ hmid =>
        tells_typeSuffix.repeatWhile mid hmid
    · exact tellsAt_fail

theorem tells_constraints : Tells constraints Silent := by
  intro ts hts
  refine .ahead ?_
  split
  · rename_i h
    intro a rest hp
    obtain ⟨w, rfl, -⟩ := exists_append_of_reads (Comparison.sim_restOfHead (by decide)) hp
    exact ⟨[], rfl, .loose (.clauses h hp)⟩
  · exact tellsAt_pure rfl

theorem sign?_of_isOperator {ws : List String} (hws : ∀ w ∈ ws, IsPlain w)
    (h : Ahead.isOperator ws ts = true) : ∀ t ∈ ts.head?, t.sign? = none := by
  cases ts with
  | nil => cases h
  | cons t ts =>
    have hmem : t.text ∈ ws := List.contains_iff_mem.mp (Bool.and_eq_true_iff.mp h).2
    rintro _ ⟨⟩
    exact Token.sign?_eq_none (hws _ hmem)

/-- A member with no counterpart is made of chunks, up to the sign that ends it. -/
theorem tells_restOfMember : Tells restOfMember Silent := by
  refine Tells.loop (fun assigned ts hts => .ahead ?_) false
  split
  · rename_i h
    exact .advance (sign?_of_isOperator (by decide) h) hts fun _ => tellsAt_pure rfl
  · refine .ahead ?_
    split
    · refine (tells_group ts hts).skip hts fun _ mid _ hmid => ?_
      split
      · exact tellsAt_pure rfl
      · exact .accept (by decide) hmid (fun _ _ => tellsAt_pure rfl) (tellsAt_pure rfl)
    · refine .ahead ?_
      exact (tells_chunk ts hts).skip hts fun _ _ _ _ => tellsAt_pure rfl

/-! ## Texts -/

/-- The quote that a text is. -/
def textQuote (s : String) : List Quote := [.text s]

/-- Texts are quoted one by one. -/
theorem flatMap_textQuote (ss : List String) : ss.flatMap textQuote = ss.map .text :=
  List.map_eq_flatMap.symm

/-- A run that also gives its source text is a run, and the text is that of the tokens it
reads. -/
theorem of_spelled {p : Parser α} {a : α} {s : String}
    (h : spelled p ts = .ok ((a, s), rest)) :
    p ts = .ok (a, rest) ∧ ∀ w, ts = w ++ rest → s = Token.spelling w := by
  obtain ⟨⟨a', us⟩, mid, hconsumed, hkeep⟩ := bind_eq_ok.mp h
  dsimp only at hkeep
  split at hkeep
  · cases hkeep
  cases hkeep
  obtain ⟨hp, hus⟩ := of_consumed hconsumed
  exact ⟨hp, fun w hw => by rw [hus w hw]⟩

/-- The same for a run that gives its source text alone. -/
theorem of_verbatim {p : Parser Unit} {s : String} (h : verbatim p ts = .ok (s, rest)) :
    p ts = .ok ((), rest) ∧ ∀ w, ts = w ++ rest → s = Token.spelling w := by
  obtain ⟨⟨⟨⟩, s'⟩, mid, hspelled, hpure⟩ := bind_eq_ok.mp h
  cases hpure
  exact of_spelled hspelled

/-- The text of a type. -/
theorem tells_type : Tells (verbatim typeReference) (Only textQuote IsTypeText) := by
  intro ts hts s rest h
  obtain ⟨hp, htext⟩ := of_verbatim h
  obtain ⟨w, rfl, hspans⟩ := exists_append_of_reads Comparison.sim_typeReference hp
  obtain ⟨_, rfl, hpassage⟩ := tells_typeReference _ hts hp
  obtain rfl := htext w rfl
  have hw : w ≠ [] := hspans.progress rfl
  exact ⟨_, ⟨rfl, w, hw, hts.of_append_left, rfl⟩, hpassage.parts, .text hw (.nil rest)⟩

/-- The text of code, which has at least one token. -/
theorem passage_code {w : List Token} (hts : Lexed (w ++ rest)) (hne : w ≠ [])
    (hw : Balanced w) :
    IsCodeText (Token.spelling w) ∧ Passage [] [.text (Token.spelling w)] (w ++ rest) rest :=
  ⟨⟨w, hne, hts.of_append_left, hw, rfl⟩, (Passage.balanced hw rest).parts,
    .text hne (.nil rest)⟩

/-- A rule that pairs all brackets gives a piece of code. -/
theorem tells_code {c : Contract} {U : Unit → Unit → Prop} {p : Parser Unit}
    (h : Comparison.shifted.Sim c U p p) (hc : c.progress = true ∧ c.balanced = true) :
    Tells (verbatim p) (Only textQuote IsCodeText) := by
  intro ts hts s rest hrun
  obtain ⟨hp, htext⟩ := of_verbatim hrun
  obtain ⟨w, rfl, hspans⟩ := exists_append_of_reads h hp
  obtain rfl := htext w rfl
  obtain ⟨hcode, hpassage⟩ := passage_code hts (hspans.progress hc.1) (hspans.balanced hc.2)
  exact ⟨_, ⟨rfl, hcode⟩, hpassage⟩

/-- The text of an expression is a piece of code. -/
theorem tells_expression_text (stops : List String) :
    Tells (verbatim (expression stops)) (Only textQuote IsCodeText) :=
  tells_code (Comparison.sim_expression stops) ⟨rfl, rfl⟩

/-- The text of a statement is a piece of code. -/
theorem tells_statement_text : Tells (verbatim statement) (Only textQuote IsCodeText) :=
  tells_code Comparison.sim_statement ⟨rfl, rfl⟩

/-- Code pairs its brackets, which the text of a type need not do. -/
theorem IsCodeText.isTypeText {s : String} : IsCodeText s → IsTypeText s
  | ⟨ts, hne, hts, _, hs⟩ => ⟨ts, hne, hts, hs⟩

/-- No blanks stand around what has been read. -/
theorem Tells.trim {p : Parser String} {P : String → Prop} (h : Tells p (Only textQuote P))
    (hP : ∀ s, P s → IsTypeText s) : Tells (Text.trim <$> p) (Only textQuote P) := by
  rw [map_eq_pure_bind]
  intro ts hts
  refine (h ts hts).bind hts fun s qs _ hs _ _ => tellsAt_pure ?_
  obtain ⟨rfl, hs⟩ := hs
  have htrim : Text.trim s = s := by
    obtain ⟨us, -, hus, rfl⟩ := hP s hs
    exact hus.trim_spelling
  rw [List.append_nil, htrim]
  exact ⟨rfl, hs⟩

/-! ## Annotations and modifiers -/

/-- A word that is no bracket may be there or not. -/
theorem tells_accept {w : String} (hw : IsPlain w) : Tells (accept w) Silent := by
  intro ts hts
  have haccept : accept w = accept w >>= pure := (bind_pure _).symm
  rw [haccept]
  exact .accept hw hts (fun _ _ => tellsAt_pure rfl) (tellsAt_pure rfl)

theorem tells_expect {w : String} (hw : IsPlain w) : Tells (expect w) Silent := by
  intro ts hts
  have hexpect : expect w = expect w >>= pure := (bind_pure _).symm
  rw [hexpect]
  exact .expect hw hts fun _ _ => tellsAt_pure rfl

/-- A list in round brackets: the brackets pair, and the values are told in order. -/
theorem Tells.listed {item : Parser α} {f : α → List Quote} {P : α → Prop}
    (hitem : Tells item (Only f P)) : Tells (Parser.listed item) (EachOf f P) := by
  intro ts hts
  refine .opens .round hts fun hrest => ?_
  refine .acceptCloses .round hrest (fun _ => tellsAt_pure ⟨rfl, nofun⟩) ?_
  refine (hitem.collect (tells_accept (by decide)) _ hrest).bind hrest
    fun xs qs mid hxs _ hmid => ?_
  refine .closes .round hmid fun _ => tellsAt_pure ?_
  rwa [List.append_nil]

theorem tells_attributeArguments : Tells attributeArguments (EachOf textQuote IsCodeText) :=
  ((tells_expression_text _).trim fun _ => IsCodeText.isTypeText).listed

/-- An annotation is quoted with its name and its arguments, in this order. -/
theorem tells_oneAttribute : Tells oneAttribute (Only Annotation.quotes fun _ => True) := by
  intro ts hts
  refine .ahead ((tells_type ts hts).bind hts fun name qs mid hname _ hmid => ?_)
  obtain ⟨rfl, -⟩ := hname
  refine .ahead ?_
  split
  · refine (tells_attributeArguments mid hmid).bind hmid
      fun args qs _ hargs _ _ => tellsAt_pure ?_
    obtain ⟨rfl, -⟩ := hargs
    rw [List.append_nil, flatMap_textQuote]
    exact ⟨rfl, trivial⟩
  · exact tellsAt_pure ⟨rfl, trivial⟩

/-- What a list of annotations is addressed to is not kept. -/
theorem tells_attributeTarget : Tells attributeTarget Silent := by
  intro ts hts
  refine .ahead ?_
  split
  · rename_i w hw
    split at hw
    · rename_i h
      obtain ⟨hword, hcolon⟩ := Bool.and_eq_true_iff.mp h
      refine .advance (sign?_of_isWord hword) hts fun hrest => ?_
      refine .advance ?_ hrest fun _ => tellsAt_pure rfl
      intro t ht
      refine Token.sign?_eq_none ?_
      have htext : t.text = ":" := by
        rcases ts with _ | ⟨u, _ | ⟨v, ts⟩⟩
        · cases ht
        · cases ht
        · obtain rfl : v = t := Option.some.inj ht
          exact beq_iff_eq.mp hcolon
      rw [htext]
      decide
    · cases hw
  · exact tellsAt_pure rfl

theorem tells_commaBefore (close : String) : Tells (commaBefore close) Silent := by
  intro ts hts
  refine .accept (by decide) hts (fun _ hrest => .ahead (tellsAt_pure rfl)) (tellsAt_pure rfl)

/-- A list of annotations is quoted whole, or not at all if it is addressed to the assembly. -/
theorem tells_attributeList :
    Tells attributeList (EachOf Annotation.quotes fun _ => True) := by
  intro ts hts
  refine .opens .square hts fun hrest => ?_
  refine (tells_attributeTarget _ hrest).skip hrest fun target mid _ hmid => .leave ?_
  refine (tells_oneAttribute.collect (tells_commaBefore _) _ hmid).bind hmid
    fun as qs mid has _ hmid => ?_
  refine .closes .square hmid fun _ => tellsAt_pure ?_
  rw [List.append_nil]
  -- Attributes of something else are read and dropped, and their quotes with them.
  split
  · exact ⟨[], List.nil_sublist qs, rfl, nofun⟩
  · exact ⟨qs, List.Sublist.refl qs, has⟩

theorem tells_attributeLists :
    Tells attributeLists (EachOf Annotation.quotes fun _ => True) := by
  refine Tells.gather (fun ts hts => .ahead ?_) ⟨rfl, nofun⟩ fun _ _ _ _ h h' => h.append h'
  split
  · refine (tells_attributeList ts hts).bind hts fun as qs _ has _ _ => tellsAt_pure ?_
    rwa [List.append_nil]
  · exact tellsAt_pure rfl

/-- Modifiers are words, and are not quoted from the text. -/
theorem tells_modifiers : Tells modifiers Silent := by
  refine Tells.gather (fun ts hts => .ahead ?_) rfl fun _ _ _ _ h h' => by rw [h, h']; rfl
  split
  · rename_i w hw
    refine .advance ?_ hts fun _ => tellsAt_pure rfl
    cases ts with
    | nil => cases hw
    | cons t ts =>
      rintro _ ⟨⟩
      rw [modifier?] at hw
      split at hw
      · rename_i h
        refine Token.sign?_of_kind fun hkind => ?_
        rw [hkind] at h
        cases h
      · cases hw
  · exact tellsAt_pure rfl

/-- What stands before a declaration is quoted by its annotations. -/
theorem tells_lead : Tells lead fun l qs => qs = l.quotes := by
  intro ts hts
  refine .ahead ((tells_attributeLists ts hts).bind hts fun as qs mid has _ hmid => ?_)
  refine (tells_modifiers mid hmid).skip hmid fun _ _ _ _ => tellsAt_pure ?_
  rw [List.append_nil]
  exact has.1

/-! ## Parameters and bodies -/

/-- A word before the type of a parameter is no bracket. -/
theorem sign?_of_startsParameterModifier (h : startsParameterModifier ts = true) :
    ∀ t ∈ ts.head?, t.sign? = none := by
  cases ts with
  | nil => cases h
  | cons t ts =>
    rintro _ ⟨⟩
    rcases Bool.or_eq_true_iff.mp h with h | h
    · have hmem :
          t.text ∈ parameterWords := List.contains_iff_mem.mp (Bool.and_eq_true_iff.mp h).2
      have hplain : ∀ w ∈ parameterWords, IsPlain w := by decide
      exact Token.sign?_eq_none (hplain _ hmem)
    · have hread : t.reads "scoped" = true := (Bool.and_eq_true_iff.mp h).1
      exact sign?_of_reads hread (by decide)

/-- A parameter is quoted with its name and its default value. -/
theorem tells_parameter : Tells parameter (Only Param.quotes Param.Sound) := by
  have hmodifiers : Tells (repeatWhile do
      if ← ahead startsParameterModifier then
        advance
        return true
      else
        return false) Silent := by
    refine Tells.repeatWhile fun ts hts => .ahead ?_
    split
    · rename_i h
      exact .advance (sign?_of_startsParameterModifier h) hts fun _ => tellsAt_pure rfl
    · exact tellsAt_pure rfl
  intro ts hts
  refine (tells_attributeLists.silent ts hts).skip hts fun _ mid _ hmid => .ahead ?_
  refine (hmodifiers mid hmid).skip hmid fun _ mid _ hmid => ?_
  refine (tells_typeReference mid hmid).skip hmid fun _ mid _ hmid => ?_
  refine .identifier hmid fun name mid _ _ hname hmid => ?_
  refine .accept (by decide) hmid (fun _ hrest => ?_) (tellsAt_pure ⟨rfl, hname, nofun⟩)
  refine (tells_expression_text _ _ hrest).bind hrest fun s qs _ hs _ _ => tellsAt_pure ?_
  obtain ⟨rfl, hs⟩ := hs
  refine ⟨rfl, hname, ?_⟩
  rintro _ ⟨⟩
  exact hs

theorem tells_parameters : Tells parameters (EachOf Param.quotes Param.Sound) :=
  tells_parameter.listed

/-- The statements of a block are quoted in order, and the braces around them pair. -/
theorem tells_block : Tells block (EachOf textQuote IsCodeText) := by
  intro ts hts
  refine .opens .curly hts fun hrest => ?_
  have hstatements : Tells (gather do
      if ← isAt Text.closeBrace then return none
      else if ← atEnd then fail (.expected (.word Text.closeBrace))
      else return some [← verbatim statement]) (EachOf textQuote IsCodeText) := by
    refine Tells.gather (fun ts hts => .ahead ?_) ⟨rfl, nofun⟩ fun _ _ _ _ h h' => h.append h'
    split
    · exact tellsAt_pure rfl
    · refine .ahead ?_
      split
      · exact tellsAt_fail
      · refine (tells_statement_text ts hts).bind hts fun s qs _ hs _ _ => tellsAt_pure ?_
        rw [List.append_nil]
        exact EachOf.single hs
  refine (hstatements _ hrest).bind hrest fun ss qs mid hss _ hmid => ?_
  refine .closes .curly hmid fun _ => tellsAt_pure ?_
  rwa [List.append_nil]

/-- An expression between `=>` and `;` that is made a statement. -/
theorem tellsAt_value (returns : Bool) {a : Token} (ha : a.reads "=>" = true)
    (hts : Lexed (a :: ts)) {s : String} (hs : verbatim (expression [";"]) ts = .ok (s, rest))
    (hrest : Ahead.reads ";" rest = true) :
    IsCodeText ((if returns then "return " else "") ++ s ++ ";") ∧
      Passage [] [.value returns ((if returns then "return " else "") ++ s ++ ";")]
      (a :: ts) rest := by
  obtain ⟨hp, htext⟩ := of_verbatim hs
  obtain ⟨w, rfl, hspans⟩ := exists_append_of_reads (Comparison.sim_expression _) hp
  obtain rfl := htext w rfl
  have hw : w ≠ [] := hspans.progress rfl
  have hlexed : Lexed w := Lexed.of_append_left (hts.drop 1)
  have hbalanced : Balanced w := hspans.balanced rfl
  constructor
  · obtain ⟨us, hus, halike, hspelling⟩ := hlexed.statement returns
    refine ⟨us, ?_, hus, ?_, hspelling.symm⟩
    · rintro rfl
      simpa using halike.length_eq
    · unfold Balanced
      rw [← halike.signs_eq, signs_append, signs_append]
      refine Dyck.append (Dyck.append ?_ hbalanced) .nil
      cases returns <;> exact .nil
  · have hplain := Passage.plain (sign?_of_reads ha (by decide)) (w ++ rest)
    exact ⟨(hplain.trans (.balanced hbalanced rest)).parts,
      .value returns ha hw hrest (.nil rest)⟩

/-- The quotes of a body, whose statements are sound. -/
def BodyTold (returns : Bool) (b : Option (List String)) (qs : List Quote) : Prop :=
  BodyQuotes returns b qs ∧ ∀ ss ∈ b, ∀ s ∈ ss, IsCodeText s

/-- A body is quoted statement by statement.  One that is an expression is quoted as a
statement that returns it. -/
theorem tells_body (returns : Bool) : Tells (body returns) (BodyTold returns) := by
  intro ts hts
  refine .ahead ?_
  split
  · refine (tells_block ts hts).bind hts fun ss qs _ hss _ _ => tellsAt_pure ?_
    obtain ⟨rfl, hss⟩ := hss
    rw [List.append_nil, flatMap_textQuote]
    refine ⟨.block ss, ?_⟩
    rintro _ ⟨⟩
    exact hss
  · intro b rest hrun
    rw [accept_bind] at hrun
    split at hrun
    · rename_i harrow
      obtain ⟨a, ts, rfl, ha⟩ := Comparison.exists_reads (by decide) harrow
      obtain ⟨s, mid, hs, hrun⟩ := bind_eq_ok.mp hrun
      obtain ⟨hsemicolon, hpure⟩ := expect_bind_eq_ok.mp hrun
      cases hpure
      obtain ⟨t, mid, rfl, ht⟩ := Comparison.exists_reads (by decide) hsemicolon
      obtain ⟨hcode, hpassage⟩ := tellsAt_value returns ha hts hs hsemicolon
      refine ⟨_, ⟨.value _, ?_⟩, hpassage.trans (.plain (sign?_of_reads ht (by decide)) mid)⟩
      rintro _ ⟨⟩ s hs
      rw [List.mem_singleton.mp hs]
      exact hcode
    · have hnone : TellsAt [] (expect ";" >>= fun _ => pure none) (BodyTold returns) ts :=
        .expect (by decide) hts fun _ _ => tellsAt_pure ⟨.none, nofun⟩
      exact hnone hrun

/-! ## Names -/

/-- What has been read for the name of a member: all of it, and its last token is that of the
name unless `this` comes next. -/
structure NameRead (name : Token) (ts rest : List Token) : Prop where
  word : IsWordText name.text
  passage : Passage [] [] ts rest
  last : name.kind.isIdentifier = true ∧ Passage [] [] ts (name :: rest) ∨
    Ahead.reads "this" rest = true

/-- What is passed over in search of the end of type arguments pairs its brackets. -/
theorem passage_argumentsEnd {mid : List Token} (hts : Lexed ts)
    (h : argumentsEnd ts = .ok mid) :
    Passage [] [] ts mid := by
  unfold argumentsEnd at h
  split at h
  · rename_i hread
    have hrun : typeArguments ts = .ok ((), mid) := by rw [typeArguments_eq hread, h]; rfl
    obtain ⟨_, rfl, hpassage⟩ := tells_typeArguments ts hts hrun
    exact hpassage
  · cases h
    exact .refl ts

/-- What is read behind a name, where all before it is on the way already. -/
theorem nameRead_namesBehind {start : List Token} {name : Token} {n : Nat} {first : Token}
    (hts : Lexed (first :: ts)) (hident : first.kind.isIdentifier = true)
    (hpassage : Passage [] [] start (first :: ts))
    (h : Comparison.namesBehind n first ts = .ok (name, rest)) : NameRead name start rest := by
  induction n generalizing first ts with
  | zero => cases h
  | succ n ih =>
    have hword : IsWordText first.text := (hts.wellShaped first List.mem_cons_self).word_text
      (Kind.isWord_of_isIdentifier hident)
    have hfirst : Passage [] [] start ts :=
      hpassage.trans (.plain (Token.sign?_of_isIdentifier hident) ts)
    rw [← bind_pure (Comparison.namesBehind _ _), Comparison.namesBehind_succ] at h
    cases hend : argumentsEnd ts with
    | error e =>
      rw [hend] at h
      cases h
    | ok mid =>
      rw [hend] at h
      dsimp only at h
      split at h
      · rename_i hpoint
        obtain ⟨t, mid, rfl, ht⟩ := Comparison.exists_reads (by decide) hpoint
        have hargs := passage_argumentsEnd (hts.drop 1) hend
        have hmid : Passage [] [] start mid :=
          (hfirst.trans hargs).trans (.plain (sign?_of_reads ht (by decide)) mid)
        split at h
        · rename_i hthis
          cases h
          exact ⟨hword, hmid, .inr hthis⟩
        · obtain ⟨next, us, hnext, hrun⟩ := bind_eq_ok.mp h
          obtain ⟨hus : mid = next :: us, hident'⟩ := of_identifier hnext
          subst hus
          have hlexed : Lexed (t :: next :: us) := hargs.lexed (hts.drop 1)
          rw [bind_pure] at hrun
          exact ih (hlexed.drop 1) hident' hmid hrun
      · cases h
        exact ⟨hword, hfirst, .inl ⟨hident, hpassage⟩⟩

/-- The name of a member is quoted from the last part of a qualified name. -/
theorem nameRead_memberName {name : Token} (hts : Lexed ts)
    (h : memberName ts = .ok (name, rest)) :
    NameRead name ts rest := by
  rw [memberName_eq] at h
  obtain ⟨first, mid, hfirst, hloop⟩ := bind_eq_ok.mp h
  obtain ⟨rfl, hident⟩ := of_identifier hfirst
  rw [Comparison.loop_nameRound] at hloop
  exact nameRead_namesBehind hts hident (.refl _) hloop

/-! ## The forms of members -/

/-- The quotes of a member, whose names and code are sound. -/
def FormTold (form : MemberForm) (qs : List Quote) : Prop := form.Quotes qs ∧ form.Sound

/-- A method behind its name.  Its type has been quoted before it, and decides whether a body
of one expression returns it. -/
theorem tells_method {type name : String} (hname : IsWordText name) :
    Tells (method name (type != "void")) fun form qs =>
      FormTold form (.type name type :: qs) := by
  intro ts hts
  refine TellsAt.optional (fun _ => tells_typeArguments ts hts) hts fun mid hmid => ?_
  refine (tells_parameters mid hmid).bind hmid fun ps qs mid hps _ hmid => ?_
  obtain ⟨rfl, hps⟩ := hps
  refine (tells_constraints mid hmid).skip hmid fun _ mid _ hmid => ?_
  refine (tells_body _ mid hmid).bind hmid fun b qs _ hb _ _ => tellsAt_pure ?_
  rw [List.append_nil]
  exact ⟨.method type name ps hb.1, .method hname hps hb.2⟩

theorem tells_constructorRest : Tells constructorRest (BodyTold false) := fun _ hts =>
  .optional (fun _ => tells_group _ hts) hts (tells_body false)

/-- What comes behind the parameters of a constructor: perhaps the call of another one, and the
body. -/
def constructorEnd : Parser (Option (List String)) := do
  if ← accept ":" then
    advance
    constructorRest
  else
    body false

/-- Behind the parameters of a constructor there may be a call of another one, which is not
quoted. -/
theorem tells_constructorEnd : Tells constructorEnd (BodyTold false) := by
  intro ts hts b rest hrun
  unfold constructorEnd at hrun
  rw [accept_bind] at hrun
  split at hrun
  · rename_i hcolon
    obtain ⟨c, us, rfl, hc⟩ := Comparison.exists_reads (by decide) hcolon
    cases us with
    | nil =>
      exact (tells_constructorRest [] lexed_nil).plain (sign?_of_reads hc (by decide)) hrun
    | cons t us =>
      obtain ⟨qs, hb, hpassage⟩ := tells_constructorRest us (hts.drop 2) hrun
      have htarget : Passage [] [] ([c, t] ++ us) us := .loose (.target hc hrun)
      exact ⟨qs, hb, htarget.trans hpassage⟩
  · exact tells_body false ts hts hrun

/-- A constructor in three parts, of which the last one is the only one that branches. -/
theorem constructor_eq : constructor = (do
    let name ← identifier
    let params ← parameters
    return .constructor name.text params (← constructorEnd)) := by
  unfold constructor constructorEnd constructorRest
  congr 1
  funext name
  congr 1
  funext params
  simp only [bind_assoc]
  congr 1
  funext b
  cases b
  · rfl
  · simp only [if_true, bind_assoc]
    congr 1
    funext _
    congr 1
    funext b
    cases b <;> simp

/-- A constructor is quoted with its name, its parameters and its body. -/
theorem tells_constructor : Tells constructor FormTold := by
  rw [constructor_eq]
  intro ts hts
  refine .identifier hts fun name mid _ _ _ hmid => ?_
  refine (tells_parameters mid hmid).bind hmid fun ps qs mid hps _ hmid => ?_
  obtain ⟨rfl, hps⟩ := hps
  refine (tells_constructorEnd mid hmid).bind hmid fun b qs _ hb _ _ => tellsAt_pure ?_
  rw [List.append_nil]
  exact ⟨.constructor name.text ps hb.1, .constructor hps hb.2⟩

theorem tells_accessorBody : Tells accessorBody Silent := by
  intro ts hts
  refine .ahead ?_
  split
  · exact tells_group ts hts
  · refine .accept (by decide) hts (fun _ hrest => ?_) (tells_expect (by decide) ts hts)
    exact (tells_expression _ _ hrest).skip hrest fun _ mid _ hmid =>
      tells_expect (by decide) mid hmid

/-- An accessor is quoted by no text: only its word counts. -/
theorem tells_accessor : Tells accessor Silent := by
  intro ts hts
  refine (tells_attributeLists.silent ts hts).skip hts fun _ mid _ hmid => ?_
  refine (tells_modifiers mid hmid).skip hmid fun _ mid _ hmid => .ahead ?_
  split
  · exact tellsAt_fail
  · refine .identifier hmid fun word mid _ _ _ hmid => ?_
    exact (tells_accessorBody mid hmid).skip hmid fun _ _ _ _ => tellsAt_pure rfl

/-- A property is quoted by its name. -/
theorem tells_property {name : String} (hname : IsWordText name) :
    Tells (property name) FormTold := by
  have hdone :
      ∀ getter setter ts, TellsAt [] (pure (.property name getter setter)) FormTold ts :=
    fun getter setter _ => tellsAt_pure ⟨.property name getter setter,
      .property hname getter setter⟩
  have hvalue :
      ∀ getter setter ts, Lexed ts →
        TellsAt [] (expression [";"] >>= fun _ => expect ";" >>= fun _ =>
          pure (.property name getter setter)) FormTold ts := by
    intro getter setter ts hts
    refine (tells_expression _ ts hts).skip hts fun _ mid _ hmid => ?_
    exact .expect (by decide) hmid fun _ _ => hdone getter setter _
  have hwords : Tells (gather do
      if ← isAt Text.closeBrace then return none else return some [← accessor]) Silent := by
    refine Tells.gather (fun ts hts => .ahead ?_) rfl fun _ _ _ _ h h' => by rw [h, h']; rfl
    split
    · exact tellsAt_pure rfl
    · exact (tells_accessor ts hts).skip hts fun _ _ _ _ => tellsAt_pure rfl
  intro ts hts
  refine .accept (by decide) hts (fun _ hrest => hvalue _ _ _ hrest) ?_
  refine .opens .curly hts fun hrest => ?_
  refine (hwords _ hrest).skip hrest fun words mid _ hmid => ?_
  refine .closes .curly hmid fun hrest => ?_
  exact .accept (by decide) hrest (fun _ hrest => hvalue _ _ _ hrest) (hdone _ _ _)

/-- A variable of a field, together with its name. -/
theorem tells_fieldVariable :
    Tells (identifier >>= fieldVariable) (Only textQuote IsCodeText) := by
  intro ts hts s rest hrun
  obtain ⟨name, mid, hname, hvariable⟩ := bind_eq_ok.mp hrun
  obtain ⟨rfl, hident⟩ := of_identifier hname
  obtain ⟨⟨⟨⟩, us⟩, _, hconsumed, hpure⟩ := bind_eq_ok.mp hvariable
  cases hpure
  obtain ⟨hp, hus⟩ := of_consumed hconsumed
  obtain ⟨w, rfl, hspans⟩ := exists_append_of_reads Comparison.sim_fieldValue hp
  obtain rfl := hus w rfl
  have hbalanced : Balanced (name :: us) :=
    (balanced_single (Token.sign?_of_isIdentifier hident)).append (hspans.balanced rfl)
  obtain ⟨hcode, hpassage⟩ := passage_code hts (List.cons_ne_nil name us) hbalanced
  exact ⟨_, ⟨rfl, hcode⟩, hpassage⟩

/-- A field is quoted variable by variable, from its name on. -/
theorem tells_field : Tells (identifier >>= field) FormTold := by
  have hfield : identifier >>= field = (identifier >>= fieldVariable) >>= fun first =>
      (gather do
        if ← accept "," then return some [← fieldVariable (← identifier)]
            else return none) >>= fun rest =>
      expect ";" >>= fun _ => pure (.field (first :: rest)) := by
    rw [bind_assoc]
    rfl
  have hothers : Tells (gather do
      if ← accept "," then return some [← fieldVariable (← identifier)] else return none)
      (EachOf textQuote IsCodeText) := by
    refine Tells.gather (fun ts hts => ?_) ⟨rfl, nofun⟩ fun _ _ _ _ h h' => h.append h'
    refine .accept (by decide) hts (fun _ hrest => ?_) (tellsAt_pure rfl)
    have hone : TellsAt [] ((identifier >>= fieldVariable) >>= fun s => pure (some [s]))
        (PerRound (EachOf textQuote IsCodeText)) ts.tail := by
      refine (tells_fieldVariable _ hrest).bind hrest fun s qs _ hs _ _ => tellsAt_pure ?_
      rw [List.append_nil]
      exact EachOf.single hs
    rwa [bind_assoc] at hone
  rw [hfield]
  intro ts hts
  refine (tells_fieldVariable ts hts).bind hts fun first qs mid hfirst _ hmid => ?_
  refine (hothers mid hmid).bind hmid fun ds qs' mid hds _ hmid => ?_
  refine .expect (by decide) hmid fun _ _ => tellsAt_pure ?_
  obtain ⟨hqs, hall⟩ := (EachOf.single hfirst).append hds
  rw [List.append_nil, hqs, flatMap_textQuote]
  exact ⟨.field _, .field hall⟩

/-- A member with no counterpart is not quoted. -/
theorem tells_other (kind : String) :
    Tells (restOfMember >>= fun _ => pure (.other kind)) FormTold := fun ts hts =>
  (tells_restOfMember ts hts).skip hts fun _ _ _ _ => tellsAt_pure ⟨.other kind, .other kind⟩

/-- A member with a type before its name, where the type is quoted first. -/
theorem tells_typedMember : Tells typedMember FormTold := by
  intro ts hts form rest hrun
  obtain ⟨type, mid, htype, hrun⟩ := bind_eq_ok.mp hrun
  obtain ⟨hp, htext⟩ := of_verbatim htype
  obtain ⟨w, rfl, hspans⟩ := exists_append_of_reads Comparison.sim_typeReference hp
  obtain ⟨_, rfl, hpassage⟩ := tells_typeReference _ hts hp
  obtain rfl := htext w rfl
  have hmid : Lexed mid := hpassage.lexed hts
  -- Only a method keeps its type.
  have hforget : ∀ {us : List Token} {p : Parser MemberForm}, Passage [] [] mid us →
      TellsAt [] p FormTold us → p us = .ok (form, rest) →
      ∃ qs, FormTold form qs ∧ Passage [] qs (w ++ mid) rest := by
    intro us p hus hp hrun
    obtain ⟨qs, hform, hpassage'⟩ := hp hrun
    exact ⟨qs, hform, (hpassage.trans hus).trans hpassage'⟩
  unfold isAt at hrun
  rw [ahead_bind] at hrun
  split at hrun
  · exact hforget (.refl mid) (tells_other "operator" mid hmid) hrun
  rw [ahead_bind] at hrun
  split at hrun
  · exact hforget (.refl mid) (tells_other "indexer" mid hmid) hrun
  obtain ⟨name, us, hname, hrun⟩ := bind_eq_ok.mp hrun
  have hread := nameRead_memberName hmid hname
  have hus : Lexed us := hread.passage.lexed hmid
  rw [ahead_bind] at hrun
  split at hrun
  · obtain ⟨qs, hform, hpassage'⟩ := tells_method hread.word us hus hrun
    have hrest := hread.passage.trans hpassage'
    exact ⟨_, hform, (hpassage.trans hrest).parts,
      .type (hspans.progress rfl) hp hname hrest.cites⟩
  rw [ahead_bind] at hrun
  split at hrun
  · exact hforget hread.passage (tells_property hread.word us hus) hrun
  rw [ahead_bind] at hrun
  split at hrun
  · rename_i hsign
    rcases hread.last with ⟨hident, hlast⟩ | hthis
    · refine hforget hlast (tells_field _ (hlast.lexed hmid)) ?_
      show (identifier (name :: us) >>= fun r => field r.1 r.2) = _
      rw [Comparison.identifier_cons, if_pos hident]
      exact hrun
    · -- What comes next is none of the signs behind a field if it is `this`.
      obtain ⟨w, hw, hread⟩ := List.any_eq_true.mp hsign
      have hne : ∀ w ∈ ["=", ";", ",", "["], "this" ≠ w := by decide
      rw [reads_unique hthis (hne w hw) (by decide)] at hread
      cases hread
  · cases hrun

/-- **Members that are no types are quoted in order.** -/
theorem tells_memberForm (owner : String) : Tells (memberForm owner) FormTold := by
  intro ts hts
  refine .ahead ?_
  split
  · exact tells_other "destructor" ts hts
  refine .ahead ?_
  split
  · exact tells_other "event" ts hts
  refine .ahead ?_
  split
  · exact tells_other "conversion" ts hts
  refine .ahead ?_
  split
  · exact tells_constructor ts hts
  · exact tells_typedMember ts hts

end SharpScript.Parser
