import SharpScript.Proofs.Parser.Entry
import SharpScript.Proofs.Printing.Members

/-! # Reading printed declarations

## Main Results

* `yields_typeBody`, `yields_enumBody`: types and enumerations behind their keywords;
* `readsMember`: a printed member of a type, which may be a type;
* `readsNode`: a printed declaration of a namespace, which may be a namespace.

## Design Notes

Types nest in types and namespaces in namespaces, and both rules call themselves. Printed
declarations are therefore read with any number of nested calls that the tokens leave room for.
-/

namespace SharpScript

open Lexer

namespace Parser

variable {n : Nat} {G H : List Token → Prop} {ts us vs rest : List Token}

/-! ## Lists -/

/-- Declarations that agree one by one agree. -/
theorem itemsAgree_of_forall₂ {is js : List Item}
    (h : List.Forall₂ (Item.Agrees Eq Eq) is js) :
    ItemsAgree Eq Eq is js := by
  induction h with
  | nil => exact .nil
  | cons head _ ih => exact .cons head ih

/-- Printed declarations, one by one. -/
theorem blocks_items {is : List Item} (h : Lines (itemLines is) ts) :
    Blocks (fun i => Lines i.lines) is ts := by
  induction is generalizing ts with
  | nil =>
    cases h
    exact .nil
  | cons i is ih =>
    rw [itemLines] at h
    obtain ⟨us, vs, rfl, hus, hvs⟩ := h.of_append
    exact .cons hus (ih hvs)

/-! ## Starts and ends -/

/-- The tokens start with a word or with the bracket of an annotation. -/
def StartsItem (ts : List Token) : Prop :=
  Ahead.text 0 ts = "[" ∨ startsWord (Ahead.text 0 ts) = true

/-- A declaration begins with a word or a square bracket, so with no other sign. -/
theorem StartsItem.text_not_mem (h : StartsItem ts) {ws : List String} (hbracket : "[" ∉ ws)
    (hws : ws.any startsWord = false) : Ahead.text 0 ts ∉ ws := by
  rcases h with h | h
  · rwa [h]
  · exact not_mem_of_startsWord h hws

/-- What begins a declaration does not go on with the member before it. -/
theorem StartsItem.endsMember (h : StartsItem ts) : EndsMember ts :=
  h.text_not_mem (by decide) (by decide)

theorem StartsItem.ne_nil (h : StartsItem ts) : ts ≠ [] := by
  rintro rfl
  exact h.elim (by decide) (by decide)

/-- A declaration begins with its annotations, its modifiers or its own word. -/
theorem startsItem_lead {l : Lead} (hl : l.isPrintable = true) (h : Lines l.lines us)
    (hrest : startsWord (Ahead.text 0 rest) = true) : StartsItem (us ++ rest) := by
  obtain ⟨pos, as, ws⟩ := l
  obtain ⟨as', ws', rfl, has, hws⟩ := h.of_append
  cases as with
  | cons a as =>
    obtain ⟨g, p, vs, rfl, -⟩ := Lines.word (k := .operator) (by decide) has
    exact .inl rfl
  | nil =>
    cases has
    cases hws with
    | nil => exact .inr hrest
    | @cons w ws vs _ head tail =>
      have hw := List.all_eq_true.mp ((Bool.and_eq_true _ _).mp hl).2 w List.mem_cons_self
      obtain ⟨k, g, p, rfl, -⟩ := line_modifier hw head
      have hwords : ∀ w ∈ modifierWords ++ contextualWords, startsWord w = true := by
        decide +kernel
      exact .inr (hwords w (List.contains_iff_mem.mp hw))

/-! ## Bases -/

/-- The bases are printed behind a colon with commas between them, before the brace. -/
theorem yields_baseList {bases : List String} (hbases : bases.all isType = true)
    (h : Lines (baseLines bases) ts) :
    Yields n baseList (SignNext Text.openBrace) (List.Forall₂ Eq bases) ts := by
  unfold baseLines at h
  by_cases hne : bases = []
  · subst hne
    cases h
    refine .skip ?_ (yields_pure .nil)
    rintro _ ⟨g, p, us, rfl⟩
    rfl
  · rw [if_neg (by simpa using hne)] at h
    obtain ⟨g, p, us, rfl, hus⟩ := Lines.word (k := .operator) (by decide) h
    refine (Yields.accept rfl ?_).less
    refine yields_commas (H := fun rest => Ahead.text 0 rest ∈ [",", Text.openBrace]) hne hus
      (fun base hbase ts hts => ?_) (fun _ _ _ _ _ _ _ => ⟨List.mem_cons_self, rfl⟩) ?_
    · obtain ⟨us, _, rfl, hline, hnil⟩ := hts.text
      cases hnil
      have hread :=
        (reads_type hline (List.all_eq_true.mp hbases base hbase)).yields_trim (n := n)
      refine .bind hread (fun rest hrest => ?_) fun b hb => .neg (fun rest hrest => ?_)
        (yields_pure hb.symm)
      · exact endsType_of_text fun hmem => by
          rcases List.mem_pair.mp hrest with heq | heq <;>
            rw [List.nil_append, heq] at hmem <;> exact absurd hmem (by decide)
      · refine reads_of_text_ne fun heq => ?_
        rw [List.nil_append] at heq
        rw [heq] at hrest
        exact absurd hrest (by decide)
    · rintro _ ⟨g, p, us, rfl⟩
      exact ⟨List.mem_cons_of_mem _ List.mem_cons_self, rfl⟩

/-- No `;` is passed over where something else comes next. -/
theorem accept_semicolon (h : EndsMember rest) : accept ";" rest = .ok (false, rest) := by
  have hread : Ahead.reads ";" rest = false := reads_eq_false h ";" (by simp)
  unfold accept
  rw [isAt, ahead_bind, hread]
  rfl

/-! ## Types -/

/-- The members of a type, given how each of them is read. -/
theorem yields_items {member : String → Parser Item} {name : String} {items : List Item}
    (hitem : ∀ i ∈ items, ∀ ts, Lines i.lines ts →
      (∀ rest, StartsItem (ts ++ rest)) ∧
      Yields n (member name) EndsMember (i.Agrees Eq Eq) ts)
    (h : Blocks (fun i => Lines i.lines) items ts) :
    Yields n (gather do
      if ← isAt Text.closeBrace then return none
      else if ← atEnd then fail (.expected (.word Text.closeBrace))
      else if ← accept ";" then return some []
      else return some [← member name]) (SignNext Text.closeBrace) (ItemsAgree Eq
          Eq items) ts := by
  refine (yields_gather (H := EndsMember) (R := fun i a => ∃ j, a = [j] ∧ i.Agrees Eq Eq j)
    (fun i hi ts hts => ?_) (fun i hi ts rest hts _ => ?_) ?_ h).mono (fun _ h => h) ?_
  · obtain ⟨hstart, hread⟩ := hitem i hi ts hts
    have hne : ts ≠ [] := by simpa using (hstart []).ne_nil
    have hfalse : ∀ w ∈ [Text.closeBrace, ";"], ∀ rest, Ahead.reads w (ts ++ rest) = false :=
      fun w hw rest => reads_eq_false ((hstart rest).text_not_mem (by decide) (by decide)) w hw
    refine ⟨hne, .neg (fun rest _ => hfalse _ (by simp) rest) (.neg (fun rest _ => ?_)
      (.skip (fun rest _ => hfalse _ (by simp) rest)
        (hread.map fun j hj => ⟨[j], rfl, j, rfl, hj⟩)))⟩
    simp [hne]
  · exact ((hitem i (List.mem_of_mem_tail hi) ts hts).1 rest).endsMember
  · rintro _ ⟨g, p, us, rfl⟩
    exact ⟨fun hmem => by simp [Ahead.text] at hmem, rfl⟩
  · rintro _ ⟨as, has, rfl⟩
    exact itemsAgree_of_forall₂ (foldr_singletons has)

/-- A class or an interface behind its keyword. -/
theorem yields_typeBody {member : String → Parser Item} {sort : TypeSort} {l l' : Lead}
    {name : String} {bases : List String} {items : List Item} (hl : l.Agrees Eq Eq l')
    (hname : isName name = true) (hbases : bases.all isType = true)
    (hitem : ∀ i ∈ items, ∀ ts, Lines i.lines ts →
      (∀ rest, StartsItem (ts ++ rest)) ∧
      Yields n (member name) EndsMember (i.Agrees Eq Eq) ts)
    (h : Lines
      (name :: (baseLines bases ++ ([Text.openBrace] ++ itemLines items ++ [Text.closeBrace])))
      ts) :
    Yields n (typeBody member sort l') EndsMember
      ((Item.type sort l name bases items).Agrees Eq Eq) ts := by
  obtain ⟨g, p, _, rfl, hrest⟩ := Lines.name hname h
  obtain ⟨us, _, rfl, hus, hbody⟩ := hrest.of_append
  obtain ⟨g₁, p₁, _, rfl, hinner⟩ := Lines.word (k := .operator) (by decide) hbody
  obtain ⟨vs, _, rfl, hvs, hclose⟩ := hinner.of_append
  obtain ⟨g₂, p₂, _, rfl, hnil⟩ := Lines.word (k := .operator) (by decide) hclose
  cases hnil
  have hnext : ∀ w ∉ [":", Text.openBrace], ∀ rest, Ahead.reads w
      (us ++ ⟨.operator, Text.openBrace, g₁, p₁⟩ ::
        (vs ++ [⟨.operator, Text.closeBrace, g₂, p₂⟩]) ++ rest) = false := by
    intro w hw rest
    refine reads_of_text_ne fun heq => hw ?_
    rw [← heq]
    unfold baseLines at hus
    split at hus
    · cases hus
      exact List.mem_cons_of_mem _ List.mem_cons_self
    · obtain ⟨_, _, _, rfl, -⟩ := Lines.word (k := .operator) (by decide) hus
      exact List.mem_cons_self
  refine .identifier rfl (.neg (fun rest _ => hnext "<" (by decide) rest)
    (.neg (fun rest _ => hnext "(" (by decide) rest) (.bind (yields_baseList hbases hus)
      (fun rest _ => ⟨g₁, p₁, _, rfl⟩) fun bs hbs => .nothing () (fun rest _ => ?_)
        (.expect rfl
          (.bind (yields_items hitem (blocks_items hvs)) (fun rest _ => ⟨g₂, p₂, _, rfl⟩)
            fun is his =>
          .expect rfl (.nothing false (fun rest hrest => accept_semicolon hrest)
            (yields_pure (.type sort hl name hbs his))))))))
  exact constraints_none (by simp [Ahead.text])

/-! ## Enumerations -/

/-- A member of an enumeration is printed as it stands, before a comma or the brace. -/
theorem yields_enumMember {m : EnumMember} (hm : m.isPrintable = true)
    (h : Lines [m.text] ts) :
    Yields n enumMember (fun rest => Ahead.isOperator [",", Text.closeBrace] rest = true)
      (m.Agrees Eq) ts := by
  obtain ⟨us, _, rfl, hline, hnil⟩ := h.text
  cases hnil
  rw [List.append_nil]
  obtain ⟨hverbatim, name, rest, rfl, hident, hname, hvalue⟩ := reads_enumMember hline hm
  have hstart : name.text ≠ "[" := by
    intro hbracket
    have hword :=
      (hverbatim.wellShaped name List.mem_cons_self).startsWord
        (Kind.isWord_of_isIdentifier hident)
    rw [hbracket] at hword
    cases hword
  refine .nothing [] (fun rest _ => attributeLists_none hstart) (.here fun pos => ?_)
  refine Yields.map
    (Yields.spelled (V := fun r => r = (m.name, m.value)) (.identifier hident ?_)
      (List.cons_ne_nil _ _)) ?_
  · rcases hvalue with ⟨rfl, hvalue⟩ | ⟨sign, us, rfl, hsign, hvalue, hread⟩
    · refine .skip (fun rest hrest => reads_of_text_ne fun heq => ?_)
        (yields_pure (by rw [hname, hvalue]))
      cases rest with
      | nil => exact absurd heq (by decide)
      | cons t rest =>
        obtain ⟨-, htext⟩ : t.kind = .operator ∧ t.text ∈ [",", Text.closeBrace] := by
          simpa [Ahead.isOperator] using hrest
        rw [show t.text = "=" from heq] at htext
        exact absurd htext (by decide)
    · refine (Yields.accept hsign ?_).less
      have hvalue' : Yields n (expression [",", Text.closeBrace])
          (fun rest => Ahead.isOperator [",", Text.closeBrace] rest = true)
          (fun _ => True) us :=
        fun rest _ hrest => ⟨(), hread rest hrest, trivial⟩
      have hus : us ≠ [] :=
        (expression_swap (r := [signToken ","]) rfl (hread [signToken ","] rfl) rfl).1
      exact (hvalue'.verbatim hus).map fun text htext => by rw [hname, hvalue, htext]
  · rintro ⟨_, text⟩ ⟨rfl, rfl⟩
    refine ⟨rfl, ?_, hverbatim.spelling.symm⟩
    cases m.value with
    | none => exact .none
    | some v => exact .some rfl

/-- It begins with its name, so it is not taken for the end. -/
theorem reads_enumMember_start {m : EnumMember} (hm : m.isPrintable = true)
    (h : Lines [m.text] ts) (rest : List Token) :
    Ahead.reads Text.closeBrace (ts ++ rest) = false := by
  obtain ⟨us, _, rfl, hline, hnil⟩ := h.text
  cases hnil
  obtain ⟨hverbatim, name, vs, rfl, hident, -⟩ := reads_enumMember hline hm
  have hword :=
    (hverbatim.wellShaped name List.mem_cons_self).startsWord
      (Kind.isWord_of_isIdentifier hident)
  refine reads_of_text_ne fun heq => ?_
  rw [show name.text = Text.closeBrace from heq] at hword
  cases hword

/-- Members with commas between them, without one behind the last. -/
theorem yields_enumMembers {ms : List EnumMember} (hne : ms ≠ [])
    (hms : ms.all EnumMember.isPrintable = true)
    (h : Lines (commaLines (ms.map fun m => [m.text])) ts) :
    Yields n (collect enumMember (commaBefore Text.closeBrace)) (SignNext Text.closeBrace)
      (List.Forall₂ (EnumMember.Agrees Eq) ms) ts := by
  refine yields_commas (H := fun rest => Ahead.isOperator [",", Text.closeBrace] rest = true)
    hne h (fun m hm ts hts => yields_enumMember (List.all_eq_true.mp hms m hm) hts)
    (fun m hm g p vs rest hvs => ⟨rfl, ?_⟩) ?_
  · unfold commaBefore
    rw [accept_bind, if_pos rfl]
    show Except.ok (!Ahead.reads Text.closeBrace (vs ++ rest), vs ++ rest) = _
    rw [reads_enumMember_start (List.all_eq_true.mp hms m hm) hvs rest]
    rfl
  · rintro _ ⟨g, p, us, rfl⟩
    exact ⟨rfl, rfl⟩

/-- An enumeration behind its keyword. -/
theorem yields_enumBody {l l' : Lead} {name : String} {ms : List EnumMember}
    (hl : l.Agrees Eq Eq l') (hname : isName name = true)
    (hms : ms.all EnumMember.isPrintable = true)
    (h : Lines
      (name :: Text.openBrace :: (commaLines (ms.map fun m => [m.text]) ++ [Text.closeBrace]))
      ts) :
    Yields n (enumBody l') EndsMember ((Item.enumeration l name ms).Agrees Eq Eq) ts := by
  obtain ⟨g, p, _, rfl, hrest⟩ := Lines.name hname h
  obtain ⟨g₁, p₁, _, rfl, hinner⟩ := Lines.word (k := .operator) (by decide) hrest
  obtain ⟨vs, _, rfl, hvs, hclose⟩ := hinner.of_append
  obtain ⟨g₂, p₂, _, rfl, hnil⟩ := Lines.word (k := .operator) (by decide) hclose
  cases hnil
  have hfinish : ∀ as, List.Forall₂ (EnumMember.Agrees Eq) ms as → Yields n
      (expect Text.closeBrace >>= fun _ => accept ";" >>= fun _ =>
        pure (Item.enumeration l' name as))
      EndsMember ((Item.enumeration l name ms).Agrees Eq Eq)
      [⟨.operator, Text.closeBrace, g₂, p₂⟩] :=
    fun as has => .expect rfl (.nothing false (fun rest hrest => accept_semicolon hrest)
      (yields_pure (.enumeration hl name has)))
  refine .identifier rfl (.skip (fun _ _ => rfl) (.expect rfl ?_))
  by_cases hne : ms = []
  · subst hne
    cases hvs
    exact .pos (fun _ _ => rfl) (hfinish [] .nil)
  · refine .neg (fun rest _ => ?_) (.bind (yields_enumMembers hne hms hvs)
      (fun rest _ => ⟨g₂, p₂, rest, rfl⟩) hfinish)
    obtain ⟨m, ms, rfl⟩ := List.exists_cons_of_ne_nil hne
    obtain ⟨us, ws, rfl, hus, -⟩ := Lines.commas hvs
    rw [List.append_assoc, List.append_assoc]
    exact reads_enumMember_start (List.all_eq_true.mp hms m List.mem_cons_self) hus _

/-! ## Members -/

/-- What is behind the lead of a type, which its keyword tells. -/
theorem yields_typeDeclaration {member : String → Parser Item} {sort : TypeSort} {l l' : Lead}
    {name : String} {bases : List String} {items : List Item} (hl : l.Agrees Eq Eq l')
    (hname : isName name = true) (hbases : bases.all isType = true)
    (hitem : ∀ i ∈ items, ∀ ts, Lines i.lines ts →
      (∀ rest, StartsItem (ts ++ rest)) ∧
      Yields n (member name) EndsMember (i.Agrees Eq Eq) ts)
    (h : Lines
      (sort.word :: name ::
        (baseLines bases ++ ([Text.openBrace] ++ itemLines items ++ [Text.closeBrace]))) ts) :
    Yields (n + 1) (typeDeclaration member l') EndsMember
      (fun o => ∃ j, o = some j ∧ (Item.type sort l name bases items).Agrees Eq Eq j) ts := by
  cases sort with
  | classType =>
    obtain ⟨g, p, us, rfl, hus⟩ := Lines.word (k := .keyword) (by decide) h
    exact .accept rfl
      ((yields_typeBody hl hname hbases hitem hus).map fun j hj => ⟨j, rfl, hj⟩)
  | interfaceType =>
    obtain ⟨g, p, us, rfl, hus⟩ := Lines.word (k := .keyword) (by decide) h
    exact .skip (fun _ _ => rfl)
      (.accept rfl ((yields_typeBody hl hname hbases hitem hus).map fun j hj => ⟨j, rfl, hj⟩))

/-- An enumeration behind what stands before it. -/
theorem yields_enumDeclaration {member : String → Parser Item} {l l' : Lead} {name : String}
    {ms : List EnumMember} (hl : l.Agrees Eq Eq l') (hname : isName name = true)
    (hms : ms.all EnumMember.isPrintable = true)
    (h : Lines
      ("enum" :: name :: Text.openBrace ::
        (commaLines (ms.map fun m => [m.text]) ++ [Text.closeBrace])) ts) :
    Yields n (typeDeclaration member l') EndsMember
      (fun o => ∃ j, o = some j ∧ (Item.enumeration l name ms).Agrees Eq Eq j) ts := by
  obtain ⟨g, p, us, rfl, hus⟩ := Lines.word (k := .keyword) (by decide) h
  exact .skip (fun _ _ => rfl) (.skip (fun _ _ => rfl)
    (Yields.accept rfl ((yields_enumBody hl hname hms hus).map fun j hj => ⟨j, rfl, hj⟩)).less)

/-- No type comes next. -/
theorem typeDeclaration_none {member : String → Parser Item} {l : Lead}
    (hreads : ∀ w ∈ ["class", "interface", "enum", "struct", "delegate"],
      Ahead.reads w ts = false)
    (hrecord : startsRecord ts = false) : typeDeclaration member l ts = .ok (none, ts) := by
  unfold typeDeclaration
  rw [accept_bind, if_neg (by simp [hreads "class" (by decide)]), if_neg Bool.false_ne_true,
    accept_bind, if_neg (by simp [hreads "interface" (by decide)]), if_neg Bool.false_ne_true,
    accept_bind, if_neg (by simp [hreads "enum" (by decide)]), if_neg Bool.false_ne_true,
    isAt, ahead_bind, if_neg (by simp [hreads "struct" (by decide)]),
    ahead_bind, if_neg (by simp [hrecord]),
    accept_bind, if_neg (by simp [hreads "delegate" (by decide)]), if_neg Bool.false_ne_true]
  rfl

/-- The first tokens of a printed member: the printed type, or the name of a constructor. -/
theorem memberForm_start {owner : String} (howner : isName owner = true) {f : MemberForm}
    (hf : f.isPrintable owner = true) (h : Lines f.lines ts) (rest : List Token) :
    ∃ w g p us, ts ++ rest = ⟨.identifier false, w, g, p⟩ :: us ∧ isName w = true ∧
      (w = "T" ∨ SignNext "(" us) := by
  have htyped : ∀ {ss : List String}, Lines ("T" :: ss) ts →
      ∃ w g p us, ts ++ rest = ⟨.identifier false, w, g, p⟩ :: us ∧ isName w = true ∧
        (w = "T" ∨ SignNext "(" us) := by
    intro ss h
    obtain ⟨g, p, us, rfl, -⟩ := Lines.word (k := .identifier false) (by decide) h
    exact ⟨"T", g, p, us ++ rest, rfl, by decide +kernel, .inl rfl⟩
  cases f with
  | method | field | property => exact htyped h
  | other | unknown => cases hf
  | constructor name ps b =>
    obtain ⟨⟨rfl, -⟩, -⟩ : (name = owner ∧ ps.all Param.isPrintable = true) ∧
        isPrintableBody b = true := by simpa [MemberForm.isPrintable] using hf
    obtain ⟨g, p, us, rfl, hus⟩ := Lines.name howner h
    obtain ⟨g', p', vs, rfl, -⟩ := Lines.word (k := .operator) (by decide) hus
    exact ⟨name, g, p, _, rfl, howner, .inr ⟨g', p', vs ++ rest, rfl⟩⟩

/-- A keyword that is no modifier ends what stands before a declaration. -/
theorem headed_keyword {w g : String} {p : Place} (hw : w ∉ modifierWords)
    (hbracket : w ≠ "[") :
    Headed (⟨.keyword, w, g, p⟩ :: us) where
  word := rfl
  modifier := by simp [modifier?, hw, Kind.isIdentifier]
  bracket := hbracket

/-- So does a name, unless it is a contextual modifier before another word. -/
theorem headed_name {w g : String} {p : Place} (hw : isName w = true)
    (h : w ∉ contextualWords ∨ Ahead.isWord 0 us = false) :
    Headed (⟨.identifier false, w, g, p⟩ :: us) where
  word := rfl
  modifier := by rcases h with h | h <;> simp [modifier?, h]
  bracket := fun heq => by
    have hword := startsWord_of_isName hw
    rw [show w = "[" from heq] at hword
    cases hword

/-- A member that is no type, given how to read the members of types. -/
theorem yields_memberStep_form {member : String → Parser Item} {owner : String}
    (howner : isName owner = true) {m : Member} (hlead : m.lead.isPrintable = true)
    (hform : m.form.isPrintable owner = true) (h : Lines (m.lead.lines ++ m.form.lines) ts) :
    (∀ rest, StartsItem (ts ++ rest)) ∧
      Yields n (memberStep member owner) EndsMember ((Item.member m).Agrees Eq Eq) ts := by
  obtain ⟨us, vs, rfl, hus, hvs⟩ := h.of_append
  refine ⟨fun rest => ?_, .bind (yields_lead hlead hus) (fun rest _ => ?_) fun l hl =>
    .nothing none (fun rest _ => ?_) ((yields_memberForm howner hform hvs).map fun f hf =>
      .member ⟨hl, hf⟩)⟩
  all_goals obtain ⟨w, g, p, ws, heq, hw, hnext⟩ := memberForm_start howner hform hvs rest
  · rw [List.append_assoc]
    refine startsItem_lead hlead hus ?_
    rw [heq]
    exact startsWord_of_isName hw
  · rw [heq]
    refine headed_name hw ?_
    rcases hnext with rfl | ⟨g', p', ws, rfl⟩
    · exact .inl (by decide)
    · exact .inr rfl
  · rw [heq]
    obtain ⟨-, -, -, -, -, hkeyword⟩ := isName_iff.mp hw
    refine typeDeclaration_none (fun w hw => reads_eq_false hkeyword w ?_) ?_
    · revert w
      decide
    rcases hnext with rfl | ⟨g', p', ws, rfl⟩
    · rfl
    · simp [startsRecord, Ahead.isIdentifier, Ahead.text, Kind.isIdentifier]

/-- The tokens `ts` are a lead and the declaration `i` of a type behind it. -/
structure Declares (n : Nat) (member : String → Parser Item) (i : Item) (l : Lead)
    (us vs : List Token) : Prop where
  printable : l.isPrintable = true
  lead : Lines l.lines us
  keyword : ∃ w g p ws, vs = ⟨.keyword, w, g, p⟩ :: ws ∧ w ∈ ["class", "interface", "enum"]
  type (l' : Lead) : l.Agrees Eq Eq l' → Yields n (typeDeclaration member l') EndsMember
    (fun o => ∃ j, o = some j ∧ i.Agrees Eq Eq j) vs

section Declares

variable {member : String → Parser Item} {i : Item} {l : Lead}

/-- A printed type begins as a declaration. -/
theorem Declares.starts (h : Declares n member i l us vs) (rest : List Token) :
    StartsItem (us ++ vs ++ rest) := by
  obtain ⟨w, g, p, ws, rfl, hw⟩ := h.keyword
  have hwords : ∀ w ∈ ["class", "interface", "enum"], startsWord w = true := by decide +kernel
  rw [List.append_assoc]
  exact startsItem_lead h.printable h.lead (hwords w hw)

/-- Behind its annotations and modifiers comes its keyword. -/
theorem Declares.headed (h : Declares n member i l us vs) (rest : List Token) :
    Headed (vs ++ rest) := by
  obtain ⟨w, g, p, ws, rfl, hw⟩ := h.keyword
  have hwords : ∀ w ∈ ["class", "interface", "enum"], w ∉ modifierWords ∧ w ≠ "[" := by decide
  exact headed_keyword (hwords w hw).1 (hwords w hw).2

/-- A printed type is read, with what stands before it. -/
theorem Declares.yields {α : Type} {V : α → Prop} {k : Lead → Option Item → Parser α}
    (h : Declares n member i l us vs)
    (hk : ∀ l' j, i.Agrees Eq Eq j → Yields n (k l' (some j)) EndsMember V []) :
    Yields n (Parser.lead >>= fun l' => typeDeclaration member l' >>= k l') EndsMember
      V (us ++ vs) := by
  refine .bind (yields_lead h.printable h.lead) (fun rest _ => h.headed rest) fun l' hl => ?_
  rw [← List.append_nil vs]
  refine .bind (h.type l' hl) (fun _ hrest => hrest) ?_
  rintro _ ⟨j, rfl, hj⟩
  exact hk l' j hj

/-- A class or an interface, given that each member of it is read. -/
theorem declares_type {sort : TypeSort} {name : String} {bases : List String}
    {items : List Item} (hl : l.isPrintable = true) (hname : isName name = true)
    (hbases : bases.all isType = true) (hitem : ∀ i ∈ items, ∀ ts, Lines i.lines ts →
      (∀ rest, StartsItem (ts ++ rest)) ∧
      Yields n (member name) EndsMember (i.Agrees Eq Eq) ts)
    (h : Lines (Item.type sort l name bases items).lines ts) :
    ∃ us vs, ts = us ++ vs ∧
      Declares (n + 1) member (.type sort l name bases items) l us vs := by
  have hlines : (Item.type sort l name bases items).lines = l.lines ++
      (sort.word :: name ::
        (baseLines bases ++ ([Text.openBrace] ++ itemLines items ++ [Text.closeBrace]))) := by
    simp [Item.lines]
  rw [hlines] at h
  obtain ⟨us, vs, rfl, hus, hvs⟩ := h.of_append
  refine ⟨us, vs, rfl, hl, hus, ?_,
    fun l' hl' => yields_typeDeclaration hl' hname hbases hitem hvs⟩
  have hprinted : (Kind.keyword, sort.word) ∈ printedWords := by cases sort <;> decide
  obtain ⟨g, p, ws, rfl, -⟩ := Lines.word hprinted hvs
  exact ⟨_, g, p, ws, rfl, by cases sort <;> decide⟩

/-- An enumeration, whose members are read by themselves. -/
theorem declares_enumeration {name : String} {ms : List EnumMember} (hl : l.isPrintable = true)
    (hname : isName name = true) (hms : ms.all EnumMember.isPrintable = true)
    (h : Lines (Item.enumeration l name ms).lines ts) :
    ∃ us vs, ts = us ++ vs ∧ Declares n member (.enumeration l name ms) l us vs := by
  have hlines : (Item.enumeration l name ms).lines = l.lines ++
      ("enum" :: name :: Text.openBrace ::
        (commaLines (ms.map fun m => [m.text]) ++ [Text.closeBrace])) := by
    simp [Item.lines]
  rw [hlines] at h
  obtain ⟨us, vs, rfl, hus, hvs⟩ := h.of_append
  refine ⟨us, vs, rfl, hl, hus, ?_, fun l' hl' => yields_enumDeclaration hl' hname hms hvs⟩
  obtain ⟨g, p, ws, rfl, -⟩ := Lines.word (k := .keyword) (by decide) hvs
  exact ⟨_, g, p, ws, rfl, by decide⟩

end Declares

/-- Declarations are printable one by one. -/
theorem arePrintable_cons {owner : Option String} {i : Item} {is : List Item} :
    arePrintable owner (i :: is) = true ↔ i.isPrintable owner = true ∧
      arePrintable owner is = true := by
  simp [arePrintable]

/-- The tokens of a member of the type `owner`, which is read with any
number of nested calls. -/
def ReadsMember (owner : String) (i : Item) (ts : List Token) : Prop :=
  (∀ rest, StartsItem (ts ++ rest)) ∧
    ∀ n, Yields n (descend memberStep n owner) EndsMember (i.Agrees Eq Eq) ts

/-- A member is read if one step does so, whatever fuel is left for the members in it. -/
theorem readsMember_of_step {owner : String} {i : Item}
    (h : ∀ n, (∀ rest, StartsItem (ts ++ rest)) ∧
      Yields (n + 1) (memberStep (descend memberStep n) owner) EndsMember
        (i.Agrees Eq Eq) ts) :
    ReadsMember owner i ts := by
  refine ⟨(h 0).1, fun n => ?_⟩
  cases n with
  | zero => exact fun _ hn _ => absurd hn (Nat.not_lt_zero _)
  | succ n => exact (h n).2

mutual

/-- **A printed member of a type is read back,** and it may be a type. -/
theorem readsMember : ∀ (i : Item) {owner : String}, isName owner = true →
    i.isPrintable (some owner) = true → ∀ {ts : List Token}, Lines i.lines ts →
    ReadsMember owner i ts
  | .member m, owner, howner, hi, ts, h => by
    obtain ⟨hlead, hform⟩ : m.lead.isPrintable = true ∧ m.form.isPrintable owner = true := by
      simpa [Item.isPrintable] using hi
    rw [Item.lines] at h
    exact readsMember_of_step fun n => yields_memberStep_form howner hlead hform h
  | .type sort l name bases items, owner, howner, hi, ts, h => by
    obtain ⟨⟨⟨hl, hname⟩, hbases⟩, hitems⟩ : ((l.isPrintable = true ∧ isName name = true) ∧
        bases.all isType = true) ∧ arePrintable (some name) items = true := by
      simpa [Item.isPrintable] using hi
    have hitem := readsMembers items hname hitems
    refine readsMember_of_step fun n => ?_
    obtain ⟨us, vs, rfl, hdeclares⟩ := declares_type hl hname hbases
      (fun i hi ts hts => ⟨(hitem i hi hts).1, (hitem i hi hts).2 n⟩) h
    refine ⟨hdeclares.starts, ?_⟩
    unfold memberStep
    exact hdeclares.yields fun _ j hj => yields_pure hj
  | .enumeration l name ms, owner, howner, hi, ts, h => by
    obtain ⟨⟨hl, hname⟩, hms⟩ : (l.isPrintable = true ∧ isName name = true) ∧
        ms.all EnumMember.isPrintable = true := by simpa [Item.isPrintable] using hi
    refine readsMember_of_step fun n => ?_
    obtain ⟨us, vs, rfl, hdeclares⟩ := declares_enumeration hl hname hms h
    refine ⟨hdeclares.starts, ?_⟩
    unfold memberStep
    exact hdeclares.yields fun _ j hj => yields_pure hj
  | .scope .., _, _, hi, _, _ => by simp [Item.isPrintable] at hi
  | .skipped .., _, _, hi, _, _ => by simp [Item.isPrintable] at hi

/-- Every member of a printed type is read. -/
theorem readsMembers : ∀ (is : List Item) {owner : String}, isName owner = true →
    arePrintable (some owner) is = true → ∀ i ∈ is, ∀ {ts : List Token}, Lines i.lines ts →
    ReadsMember owner i ts
  | [], _, _, _ => fun _ hi => nomatch hi
  | i :: is, owner, howner, his => by
    obtain ⟨hi, his⟩ := arePrintable_cons.mp his
    intro j hj ts hts
    rcases List.mem_cons.mp hj with heq | hj
    · rw [heq] at hts ⊢
      exact readsMember i howner hi hts
    · exact readsMembers is howner his j hj hts

end

/-! ## Namespaces -/

/-- The tokens of a name with points between its parts. -/
theorem blocks_dotted {part : String} {parts : List String}
    (h : ts.map Token.content = dottedContents (part :: parts)) :
    ∃ t us, ts = [t] ++ us ∧ t.content = (.identifier false, part) ∧
      Blocks (fun y us => ∃ s vs, us = s :: vs ∧ s.content = (.operator, ".") ∧
        ∃ t, vs = [t] ∧ t.content = (.identifier false, y)) parts us := by
  induction parts generalizing part ts with
  | nil =>
    obtain ⟨t, rfl, ht⟩ := List.map_eq_singleton_iff.mp h
    exact ⟨t, [], rfl, ht, .nil⟩
  | cons next parts ih =>
    match ts, h with
    | [_], h => simp [dottedContents] at h
    | t :: s :: ts, h =>
      obtain ⟨ht, hs, hrest⟩ :
          t.content = (.identifier false, part) ∧ s.content = (.operator, ".") ∧
            ts.map Token.content = dottedContents (next :: parts) := by
        simpa [dottedContents] using h
      obtain ⟨u, us, rfl, hu, hus⟩ := ih hrest
      refine ⟨t, [s, u] ++ us, rfl, ht, .cons ⟨s, [u], rfl, hs, u, rfl, hu⟩ hus⟩

/-- A qualified name in its parts. -/
theorem dotted_parts {name : String} (h : isDotted name = true) :
    ∃ parts, parts ≠ [] ∧ (∀ s ∈ parts, isName s = true) ∧ ".".intercalate parts = name := by
  refine ⟨(name.toList.splitOn '.').map String.ofList,
    by simp, by simpa [isDotted] using h, ?_⟩
  apply String.toList_injective
  rw [String.toList_intercalate, List.map_map]
  have hid : (String.toList ∘ String.ofList) = id := funext fun _ => String.toList_ofList
  rw [hid, List.map_id]
  exact List.intercalate_splitOn '.'

/-- The name of a namespace. -/
theorem yields_dotted {name : String} (hname : isDotted name = true) (h : Line name ts) :
    Yields n (collect (Token.text <$> identifier) (accept ".")) (SignNext Text.openBrace)
      (fun parts => ".".intercalate parts = name) ts := by
  obtain ⟨parts, hne, hparts, hwhole⟩ := dotted_parts hname
  obtain ⟨t, ht, hcontents⟩ := tokenize_dotted hne hparts
  rw [hwhole] at ht
  obtain ⟨t', ht', hshift⟩ := h
  obtain rfl : t = t' := Except.ok.inj (ht.symm.trans ht')
  have hmap : ts.map Token.content = dottedContents parts :=
    Eq.trans (Eq.symm hshift.alike) hcontents
  rw [← hwhole]
  obtain ⟨part, others, hcons⟩ := List.exists_cons_of_ne_nil hne
  rw [hcons] at hmap ⊢
  obtain ⟨t, us, rfl, ht, hus⟩ := blocks_dotted hmap
  refine (yields_collect (B := fun y us => ∃ t, us = [t] ∧ t.content = (.identifier false, y))
    (S := fun s => s.content = (.operator, ".")) (R := Eq) (H := fun _ => True) ⟨t, rfl, ht⟩
    hus ?_ ?_ ?_).mono (fun _ h => h) ?_
  · rintro y - _ ⟨⟨kind, text, g, p⟩, rfl, hcontent⟩ rest - -
    obtain ⟨rfl, rfl⟩ := Prod.mk.inj hcontent
    exact ⟨text, rfl, rfl⟩
  · rintro y - ⟨kind, text, g, p⟩ vs rest hcontent -
    obtain ⟨rfl, rfl⟩ := Prod.mk.inj hcontent
    exact ⟨trivial, rfl⟩
  · rintro _ ⟨g, p, us, rfl⟩
    exact ⟨trivial, rfl⟩
  · intro as has
    rw [List.forall₂_eq_eq_eq] at has
    rw [has]

/-- The first tokens of a lead and of what is behind it. -/
theorem lead_start {l : Lead} (hl : l.isPrintable = true) (h : Lines l.lines us)
    (rest : List Token) :
    Ahead.text 0 (us ++ rest) = "[" ∨ us = [] ∨
      Ahead.text 0 (us ++ rest) ∈ modifierWords ++ contextualWords ∧
        Ahead.text 1 (us ++ rest) ∈ Ahead.text 0 rest ::
        (modifierWords ++ contextualWords) := by
  obtain ⟨pos, as, ws⟩ := l
  have hmodifier : ∀ w ∈ ws, ∀ {ts : List Token}, Line w ts →
      w ∈ modifierWords ++ contextualWords ∧ ∃ k g p, ts = [⟨k, w, g, p⟩] := by
    intro w hw ts hts
    have hw := List.all_eq_true.mp ((Bool.and_eq_true _ _).mp hl).2 w hw
    obtain ⟨k, g, p, rfl, -⟩ := line_modifier hw hts
    exact ⟨List.contains_iff_mem.mp hw, k, g, p, rfl⟩
  obtain ⟨as', ws', rfl, has, hws⟩ := h.of_append
  cases as with
  | cons a as =>
    obtain ⟨g, p, vs, rfl, -⟩ := Lines.word (k := .operator) (by decide) has
    exact .inl rfl
  | nil =>
    cases has
    cases hws with
    | nil => exact .inr (.inl rfl)
    | @cons w ws _ _ head tail =>
      obtain ⟨hw, k, g, p, rfl⟩ := hmodifier w List.mem_cons_self head
      refine .inr (.inr ⟨hw, ?_⟩)
      cases tail with
      | nil => exact List.mem_cons_self
      | @cons w' ws _ _ head tail =>
        obtain ⟨hw', k', g', p', rfl⟩ := hmodifier w' (by simp) head
        exact List.mem_cons_of_mem _ hw'

/-- A declaration is told from a `;`, a using directive and the name of an assembly by its
first words. -/
theorem plain_of_text (h : Ahead.text 0 ts ∉ [";", "global", "using"])
    (houter : Ahead.text 0 ts = "extern" → Ahead.text 1 ts ≠ "alias") : Plain ts where
  semicolon := reads_eq_false h ";" (by simp)
  directive := by
    rw [startsUsing, reads_eq_false h "global" (by simp), reads_eq_false h "using" (by simp)]
    rfl
  assembly := by
    rw [Bool.and_eq_false_imp]
    exact fun hread => beq_eq_false_iff_ne.mpr (houter (text_of_reads hread))

/-- A lead and a keyword behind it are no using directive. -/
theorem plain_lead {l : Lead} (hl : l.isPrintable = true) (h : Lines l.lines us)
    (hrest : Ahead.text 0 rest ∈ ["class", "interface", "enum", "namespace"]) :
    Plain (us ++ rest) := by
  have hwords : ∀ w ∈ modifierWords ++ contextualWords,
      w ∉ [";", "global", "using"] ∧ w ≠ "alias" := by decide
  have hkeywords : ∀ w ∈ ["class", "interface", "enum", "namespace"],
      w ∉ [";", "global", "using"] ∧ w ≠ "extern" ∧ w ≠ "alias" := by decide
  rcases lead_start hl h rest with heq | rfl | ⟨hfirst, hsecond⟩
  · refine plain_of_text ?_ fun houter => ?_
    · rw [heq]
      decide
    · rw [heq] at houter
      exact absurd houter (by decide)
  · exact plain_of_text (hkeywords _ hrest).1 fun houter =>
      absurd houter (hkeywords _ hrest).2.1
  · refine plain_of_text (hwords _ hfirst).1 fun _ heq => ?_
    rcases List.mem_cons.mp hsecond with hsecond | hsecond
    · exact (hkeywords _ hrest).2.2 (hsecond.symm.trans heq)
    · exact (hwords _ hsecond).2 heq

/-- The tokens of a declaration of a namespace, which is read with any
number of nested calls. -/
structure ReadsNode (i : Item) (ts : List Token) : Prop where
  starts : ∀ rest, StartsItem (ts ++ rest)
  plain : ∀ rest, Plain (ts ++ rest)
  yields : ∀ n, Yields n (descend (fun again (_ : Unit) => nodeStep (again ())) n ())
    EndsMember (fun r => i.Agrees Eq Eq r.1 ∧ r.2 = []) ts

/-- A declaration of a namespace is read if one step does so. -/
theorem readsNode_of_step {i : Item}
    (h : ∀ n, (∀ rest, StartsItem (ts ++ rest)) ∧ (∀ rest, Plain (ts ++ rest)) ∧
      Yields (n + 1) (nodeStep (descend (fun again (_ : Unit) => nodeStep (again ())) n ()))
        EndsMember (fun r => i.Agrees Eq Eq r.1 ∧ r.2 = []) ts) : ReadsNode i ts := by
  refine ⟨(h 0).1, (h 0).2.1, fun n => ?_⟩
  cases n with
  | zero => exact fun _ hn _ => absurd hn (Nat.not_lt_zero _)
  | succ n => exact (h n).2.2

/-- A type among declarations of a namespace. -/
theorem Declares.node {i : Item} {l : Lead} (h : Declares n member i l us vs)
    {node : Parser (Item × List String)} :
    (∀ rest, StartsItem (us ++ vs ++ rest)) ∧ (∀ rest, Plain (us ++ vs ++ rest)) ∧
      Yields n (nodeStep node) EndsMember (fun r => i.Agrees Eq Eq r.1 ∧ r.2 = [])
      (us ++ vs) := by
  obtain ⟨w, g, p, ws, hvs, hw⟩ := h.keyword
  have hwords : ∀ w ∈ ["class", "interface", "enum"],
      w ∈ ["class", "interface", "enum", "namespace"] ∧ w ≠ "namespace" := by decide
  refine ⟨h.starts, fun rest => ?_, ?_⟩
  · rw [List.append_assoc]
    refine plain_lead h.printable h.lead ?_
    rw [hvs]
    exact (hwords w hw).1
  · refine .bind (yields_lead h.printable h.lead) (fun rest _ => h.headed rest) fun l' hl =>
      .neg (fun rest _ => reads_of_text_ne ?_) ?_
    · rw [hvs]
      exact (hwords w hw).2
    · rw [← List.append_nil vs]
      refine .bind (h.type l' hl) (fun _ hrest => hrest) ?_
      rintro _ ⟨j, rfl, hj⟩
      exact yields_pure ⟨hj, rfl⟩

/-- What comes behind the declarations of a namespace: its closing brace, or the end. -/
def EndsNodes (closing : Bool) (rest : List Token) : Prop :=
  if closing then SignNext Text.closeBrace rest else rest = []

/-- The end of a namespace does not go on with a member. -/
theorem EndsNodes.endsMember {closing : Bool} (h : EndsNodes closing rest) :
    EndsMember rest := by
  cases closing with
  | false =>
    obtain rfl : rest = [] := h
    exact fun hmem => by simp [Ahead.text] at hmem
  | true =>
    obtain ⟨g, p, us, rfl⟩ : SignNext Text.closeBrace rest := h
    exact fun hmem => by simp [Ahead.text] at hmem

/-- At the end of a namespace there is no further declaration. -/
theorem nodeRound_end {node : Parser (Item × List String)} {closing : Bool}
    (h : EndsNodes closing rest) : nodeRound node closing rest = .ok (none, rest) := by
  cases closing with
  | false =>
    obtain rfl : rest = [] := h
    rfl
  | true =>
    obtain ⟨g, p, us, rfl⟩ : SignNext Text.closeBrace rest := h
    rfl

/-- Nothing but a semicolon is passed over before the next declaration. -/
theorem yields_nodeRound {node : Parser (Item × List String)} {closing : Bool}
    {V : Option CompilationUnit → Prop} (hne : ts ≠ [])
    (htext : ∀ rest, Ahead.text 0 (ts ++ rest) ∉ [Text.closeBrace, ";"])
    (h : Yields n (do
      if ← ahead startsUsing then return some ⟨[← usingDirective], []⟩
      else if ← ahead fun ts => Ahead.reads "extern" ts && Ahead.text 1 ts == "alias" then
        restOfMember
        return some ∅
      else
        let (item, usings) ← node
        return some ⟨usings, [item]⟩) EndsMember V ts) :
    Yields n (nodeRound node closing) EndsMember V ts := by
  refine .neg (fun rest _ => by simp [hne]) (.ahead false (fun rest _ => ?_) ?_)
  · exact reads_eq_false (htext rest) Text.closeBrace (by simp)
  rw [Bool.and_false, if_neg Bool.false_ne_true]
  exact .skip (fun rest _ => reads_eq_false (htext rest) ";" (by simp)) h

/-- A using directive is read through its `;`. -/
theorem yields_usingDirective {ws : List Token} {t : Token}
    (hws : ∀ u ∈ ws, u.reads ";" = false) (ht : t.reads ";" = true) :
    Yields n usingDirective (fun _ => True) (· = Token.spelling (ws ++ [t])) (ws ++ [t]) := by
  refine Yields.verbatim (V := fun _ => True) ?_
    (List.append_ne_nil_of_right_ne_nil _ (List.cons_ne_nil _ _))
  have hrun : ∀ rest, repeatWhile directiveRound (ws ++ t :: rest) = .ok ((), t :: rest) := by
    intro rest
    induction ws with
    | nil =>
      refine (repeatWhile_eq_ok fun _ _ => directiveRound_lt).mpr (.inl ?_)
      rw [List.nil_append, directiveRound, isAt, ahead_bind,
        if_pos (show Ahead.reads ";" (t :: rest) = true from ht)]
      rfl
    | cons u ws ih =>
      refine (repeatWhile_eq_ok fun _ _ => directiveRound_lt).mpr (.inr ⟨ws ++ t :: rest, ?_,
        ih fun v hv => hws v (List.mem_cons_of_mem _ hv)⟩)
      have hu : Ahead.reads ";" (u :: (ws ++ t :: rest)) = false := hws u List.mem_cons_self
      rw [List.cons_append, directiveRound, isAt, ahead_bind, if_neg (by simp [hu])]
      rfl
  intro rest _ _
  refine ⟨(), bind_eq_ok.mpr ⟨(), t :: rest, ?_, rfl⟩, trivial⟩
  rw [List.append_assoc]
  exact hrun rest

/-- One round for a using directive. -/
theorem yields_directive {node : Parser (Item × List String)} {closing : Bool} {s : String}
    (hs : isDirective s = true) (h : Line s ts) :
    ts ≠ [] ∧ (∀ rest, EndsMember (ts ++ rest)) ∧ Yields n (nodeRound node closing) EndsMember
      (· = some ⟨[s], []⟩) ts := by
  obtain ⟨ws, t, rfl, hverbatim, hstart, hws, ht⟩ := reads_directive h hs
  -- The directive has a first word and a last sign.
  obtain ⟨u, vs, rfl⟩ : ∃ u vs, ws = u :: vs := by
    cases ws with
    | cons u vs => exact ⟨u, vs, rfl⟩
    | nil =>
      have hread : Ahead.reads ";" [t] = true := ht
      have htext : t.text = ";" := text_of_reads hread
      simp [startsUsing, Ahead.reads, Token.reads, htext] at hstart
  have hstart' : ∀ rest, startsUsing (u :: vs ++ [t] ++ rest) = true := by
    intro rest
    have hsecond : Ahead.text 1 (u :: vs ++ [t] ++ rest) = Ahead.text 1 (u :: vs ++ [t]) := by
      cases vs <;> rfl
    have hfirst :
        ∀ w, Ahead.reads w (u :: vs ++ [t] ++ rest) = Ahead.reads w (u :: vs ++ [t]) :=
      fun _ => rfl
    rw [startsUsing, hsecond, hfirst, hfirst]
    exact hstart
  have htext : ∀ ws : List String, "global" ∉ ws → "using" ∉ ws →
      ∀ rest, Ahead.text 0 (u :: vs ++ [t] ++ rest) ∉ ws := by
    intro ws hglobal husing rest hmem
    rcases Bool.or_eq_true_iff.mp (hstart' rest) with h | h
    · rw [text_of_reads (Bool.and_eq_true_iff.mp h).1] at hmem
      exact hglobal hmem
    · rw [text_of_reads (Bool.and_eq_true_iff.mp h).1] at hmem
      exact husing hmem
  have hne : u :: vs ++ [t] ≠ [] := List.cons_ne_nil _ _
  refine ⟨hne, htext _ (by decide) (by decide),
    yields_nodeRound hne (htext _ (by decide) (by decide))
      (.pos (fun rest _ => hstart' rest)
        (((yields_usingDirective hws ht).mono (fun _ _ => trivial) fun _ h => h).map
          fun text htext => ?_))⟩
  rw [htext, hverbatim.spelling]

/-- One round for a declaration. -/
theorem yields_declaration {node : Parser (Item × List String)} {closing : Bool} {i : Item}
    (hstart : ∀ rest, StartsItem (ts ++ rest)) (hplain : ∀ rest, Plain (ts ++ rest))
    (h : Yields n node EndsMember (fun r => i.Agrees Eq Eq r.1 ∧ r.2 = []) ts) :
    Yields n (nodeRound node closing) EndsMember
      (fun o => ∃ j, o = some ⟨[], [j]⟩ ∧ i.Agrees Eq Eq j) ts := by
  have hne : ts ≠ [] := by simpa using (hstart []).ne_nil
  refine yields_nodeRound hne (fun rest => (hstart rest).text_not_mem (by decide) (by decide))
    (.neg (fun rest _ => (hplain rest).directive)
      (.neg (fun rest _ => (hplain rest).assembly) (h.map ?_)))
  rintro ⟨j, _⟩ ⟨hj, rfl⟩
  exact ⟨j, rfl, hj⟩

/-- The lines of a using directive or of a declaration. -/
def entryLines : String ⊕ Item → List String
  | .inl s => [s]
  | .inr i => i.lines

/-- A using directive or a declaration alone. -/
def entryUnit : String ⊕ Item → CompilationUnit
  | .inl s => ⟨[s], []⟩
  | .inr i => ⟨[], [i]⟩

/-- Using directives and declarations, put together entry by entry. -/
theorem entryUnits_eq (usings : List String) (items : List Item) :
    ((usings.map Sum.inl ++ items.map Sum.inr).map entryUnit).foldr (· ++ ·) ∅ =
      ⟨usings, items⟩ := by
  induction usings with
  | cons s usings ih => exact congrArg ((⟨[s], []⟩ : CompilationUnit) ++ ·) ih
  | nil =>
    induction items with
    | nil => rfl
    | cons i items ih => exact congrArg ((⟨[], [i]⟩ : CompilationUnit) ++ ·) ih

/-- Entries that agree one by one agree together. -/
theorem agrees_entryUnits {xs : List (String ⊕ Item)} {vs : List CompilationUnit}
    (h : List.Forall₂ (fun x v => CompilationUnit.Agrees Eq Eq (entryUnit x) v) xs vs) :
    CompilationUnit.Agrees Eq Eq ((xs.map entryUnit).foldr (· ++ ·) ∅)
      (vs.foldr (· ++ ·) ∅) := by
  induction h with
  | nil => exact CompilationUnit.agrees_empty
  | cons head _ ih => exact head.append ih

/-- Using directives and declarations, given how to read each declaration. -/
theorem yields_nodes {node : Parser (Item × List String)} {closing : Bool}
    {usings : List String} {items : List Item} (husings : usings.all isDirective = true)
    (hitem : ∀ i ∈ items, ∀ ts, Lines i.lines ts → (∀ rest, StartsItem (ts ++ rest)) ∧
      (∀ rest, Plain (ts ++ rest)) ∧
      Yields n node EndsMember (fun r => i.Agrees Eq Eq r.1 ∧ r.2 = []) ts)
    (h : Lines (usings ++ itemLines items) ts) :
    Yields n (nodesWith node closing) (EndsNodes closing)
      (CompilationUnit.Agrees Eq Eq ⟨usings, items⟩) ts := by
  obtain ⟨us, vs, rfl, hus, hvs⟩ := h.of_append
  have hblocks : Blocks (fun x => Lines (entryLines x)) (usings.map .inl ++ items.map .inr)
      (us ++ vs) := by
    refine .append (.map (hus.imp fun s us hs => ?_)) (.map (blocks_items hvs))
    rw [← List.append_nil us]
    exact .cons hs .nil
  have hround : ∀ x ∈ usings.map .inl ++ items.map .inr, ∀ ts, Lines (entryLines x) ts →
      ts ≠ [] ∧ (∀ rest, EndsMember (ts ++ rest)) ∧
      Yields n (nodeRound node closing) EndsMember (fun o =>
        ∃ v, o = some v ∧ CompilationUnit.Agrees Eq Eq (entryUnit x) v) ts := by
    intro x hx ts hts
    rcases List.mem_append.mp hx with hx | hx
    · obtain ⟨s, hs, rfl⟩ := List.mem_map.mp hx
      obtain ⟨us, _, rfl, hline, hnil⟩ := Lines.text hts
      cases hnil
      rw [List.append_nil]
      obtain ⟨hne, hends, hread⟩ := yields_directive (List.all_eq_true.mp husings s hs) hline
      refine ⟨hne, hends, hread.mono (fun _ h => h) ?_⟩
      rintro _ rfl
      exact ⟨_, rfl, .cons rfl .nil, .nil⟩
    · obtain ⟨i, hi, rfl⟩ := List.mem_map.mp hx
      obtain ⟨hstart, hplain, hread⟩ := hitem i hi ts hts
      refine ⟨by simpa using (hstart []).ne_nil, fun rest => (hstart rest).endsMember,
        (yields_declaration hstart hplain hread).mono (fun _ h => h) ?_⟩
      rintro _ ⟨j, rfl, hj⟩
      exact ⟨_, rfl, .nil, .cons hj .nil⟩
  rw [nodesWith_eq]
  refine (yields_gather (H := EndsMember)
    (R := fun x v => CompilationUnit.Agrees Eq Eq (entryUnit x) v)
    (fun x hx ts hts => ⟨(hround x hx ts hts).1, (hround x hx ts hts).2.2⟩)
    (fun x hx ts rest hts _ => (hround x (List.mem_of_mem_tail hx) ts hts).2.1 rest)
    (fun rest hrest => ⟨hrest.endsMember, nodeRound_end hrest⟩) hblocks).mono (fun _ h => h) ?_
  rintro _ ⟨as, has, rfl⟩
  rw [← entryUnits_eq usings items]
  exact agrees_entryUnits has

mutual

/-- **A printed declaration of a namespace is read back,** and it may be a namespace. -/
theorem readsNode : ∀ (i : Item), i.isPrintable none = true → ∀ {ts : List Token},
    Lines i.lines ts → ReadsNode i ts
  | .scope pos name items, hi, ts, h => by
    obtain ⟨hname, hitems⟩ : isDotted name = true ∧ arePrintable none items = true := by
      simpa [Item.isPrintable] using hi
    have hitem := readsNodes items hitems
    rw [Item.lines] at h
    obtain ⟨g, p, _, rfl, hrest⟩ := Lines.word (k := .keyword) (by decide) h
    obtain ⟨us, _, rfl, hus, hbody⟩ := Lines.text hrest
    obtain ⟨g₁, p₁, _, rfl, hinner⟩ := Lines.word (k := .operator) (by decide) hbody
    obtain ⟨vs, _, rfl, hvs, hclose⟩ := hinner.of_append
    obtain ⟨g₂, p₂, _, rfl, hnil⟩ := Lines.word (k := .operator) (by decide) hclose
    cases hnil
    have hword : startsWord "namespace" = true := by decide +kernel
    refine readsNode_of_step fun n => ⟨fun rest => .inr hword, fun rest => ?_, ?_⟩
    · exact plain_of_text (by simp [Ahead.text]) fun h => absurd h (by simp [Ahead.text])
    · have hlead : Yields (n + 1) lead Headed (Lead.Agrees Eq Eq ⟨pos, [], []⟩) [] :=
        yields_lead rfl .nil
      refine hlead.bind (fun rest _ => headed_keyword (by decide) (by decide)) fun l _ =>
        .pos (fun _ _ => rfl) (.expect_succ rfl (.bind (yields_dotted hname hus)
          (fun rest _ => ⟨g₁, p₁, _, rfl⟩) fun parts hparts => .skip (fun _ _ => rfl)
            (.expect rfl
              (.bind (yields_nodes rfl (fun i hi ts hts => ?_) hvs)
                (fun rest _ => ⟨g₂, p₂, rest, rfl⟩) fun u hu =>
                .expect rfl (yields_pure ?_)))))
      · have hread := hitem i hi hts
        exact ⟨hread.starts, hread.plain, hread.yields n⟩
      · rw [hparts]
        refine ⟨.scope pos l.pos name hu.items, ?_⟩
        have := hu.usings
        rw [List.forall₂_eq_eq_eq] at this
        exact this.symm
  | .type sort l name bases items, hi, ts, h => by
    obtain ⟨⟨⟨hl, hname⟩, hbases⟩, hitems⟩ : ((l.isPrintable = true ∧ isName name = true) ∧
        bases.all isType = true) ∧ arePrintable (some name) items = true := by
      simpa [Item.isPrintable] using hi
    have hitem := readsMembers items hname hitems
    refine readsNode_of_step fun n => ?_
    obtain ⟨us, vs, rfl, hdeclares⟩ := declares_type hl hname hbases
      (fun i hi ts hts => ⟨(hitem i hi hts).1, yields_fix (hitem i hi hts).2⟩) h
    exact hdeclares.node
  | .enumeration l name ms, hi, ts, h => by
    obtain ⟨⟨hl, hname⟩, hms⟩ : (l.isPrintable = true ∧ isName name = true) ∧
        ms.all EnumMember.isPrintable = true := by simpa [Item.isPrintable] using hi
    refine readsNode_of_step fun n => ?_
    obtain ⟨us, vs, rfl, hdeclares⟩ := declares_enumeration hl hname hms h
    exact hdeclares.node
  | .member m, hi, _, _ => by simp [Item.isPrintable] at hi
  | .skipped .., hi, _, _ => by simp [Item.isPrintable] at hi

/-- Every declaration of a printed namespace is read. -/
theorem readsNodes : ∀ (is : List Item), arePrintable none is = true → ∀ i ∈ is,
    ∀ {ts : List Token}, Lines i.lines ts → ReadsNode i ts
  | [], _ => fun _ hi => nomatch hi
  | i :: is, his => by
    obtain ⟨hi, his⟩ := arePrintable_cons.mp his
    intro j hj ts hts
    rcases List.mem_cons.mp hj with heq | hj
    · rw [heq] at hts ⊢
      exact readsNode i hi hts
    · exact readsNodes is his j hj hts

end

end Parser

end SharpScript
