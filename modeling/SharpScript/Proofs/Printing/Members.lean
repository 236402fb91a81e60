import SharpScript.Proofs.Printing.Texts

/-! # Reading printed members

## Main Results

* `yields_lead`: annotations and modifiers;
* `yields_parameters`, `yields_body`: the parts of methods and constructors;
* `yields_memberForm`: **a printed member is read back**.
-/

namespace SharpScript

open Lexer

namespace Parser

variable {α β : Type} {n : Nat} {G H : List Token → Prop} {ts : List Token}

/-- The sign `w` comes next. -/
def SignNext (w : String) (rest : List Token) : Prop :=
  ∃ g p us, rest = ⟨.operator, w, g, p⟩ :: us

/-! ## Lists -/

/-- Items with commas between them. -/
theorem yields_commas {f : β → List String} {item : Parser α} {more : Parser Bool}
    {R : β → α → Prop} {xs : List β} (hne : xs ≠ []) (h : Lines (commaLines (xs.map f)) ts)
    (hitem : ∀ x ∈ xs, ∀ ts, Lines (f x) ts → Yields n item H (R x) ts)
    (hmore : ∀ x ∈ xs, ∀ g p vs rest, Lines (f x) vs →
      H (⟨.operator, ",", g, p⟩ :: (vs ++ rest)) ∧
        more (⟨.operator, ",", g, p⟩ :: (vs ++ rest)) = .ok (true, vs ++ rest))
    (hend : ∀ rest, G rest → H rest ∧ more rest = .ok (false, rest)) :
    Yields n (collect item more) G (List.Forall₂ R xs) ts := by
  obtain ⟨x, xs, rfl⟩ := List.exists_cons_of_ne_nil hne
  obtain ⟨us, vs, rfl, hus, hvs⟩ := h.commas
  refine yields_collect hus hvs hitem ?_ hend
  rintro y hy _ vs rest ⟨g, p, rfl⟩ hvs
  exact hmore y (List.mem_cons_of_mem x hy) g p vs rest hvs

/-- What reads as a word has it as its text. -/
theorem text_of_reads {w : String} (h : Ahead.reads w ts = true) : Ahead.text 0 ts = w := by
  cases ts with
  | nil => exact (beq_iff_eq.mp h).symm
  | cons t ts => exact (by simpa [Ahead.reads, Token.reads] using h : t.text = w ∧ _).1

theorem text_of_readsAny {ws : List String} (h : Ahead.readsAny ws ts = true) :
    Ahead.text 0 ts ∈ ws := by
  obtain ⟨w, hw, hread⟩ := List.any_eq_true.mp h
  rwa [text_of_reads hread]

theorem reads_of_text_ne {w : String} (h : Ahead.text 0 ts ≠ w) :
    Ahead.reads w ts = false := by
  rw [Bool.eq_false_iff]
  exact fun hread => h (text_of_reads hread)

/-- Tokens that start with some other text do not read as the words. -/
theorem reads_eq_false {ws : List String} (h : Ahead.text 0 ts ∉ ws) :
    ∀ w ∈ ws, Ahead.reads w ts = false :=
  fun _ hw => reads_of_text_ne fun htext => h (htext ▸ hw)

/-- A type ends where no sign comes next with which one goes on. -/
theorem endsType_of_text (h : Ahead.text 0 ts ∉ [".", "::", "<", "?", "*", "["]) :
    EndsType ts :=
  reads_eq_false h

/-! ## Annotations -/

/-- A single word is a type. -/
theorem typeReference_word {t : Token} (hword : t.kind.isWord = true)
    (hsign : t.reads "(" = false) {rest : List Token} (hrest : EndsType rest) :
    typeReference (t :: rest) = .ok ((), rest) := by
  have halone : typeReference [t] = .ok ((), []) := by
    unfold typeReference
    rw [isAt, ahead_bind, if_neg (by simpa [Ahead.reads] using hsign)]
    rw [ahead_bind, if_pos (by simpa [Ahead.isWord] using hword)]
    rfl
  exact typeReference_append halone hrest

/-- A printed type is no target of annotations. -/
theorem attributeTarget_type {s : String} {rest : List Token}
    (h : ReadsText typeReference EndsType s ts) (hends : EndsType rest)
    (hcolon : Ahead.text 0 rest ≠ ":") :
    attributeTarget (ts ++ rest) = .ok ("", ts ++ rest) := by
  have htarget :
      (Ahead.isWord 0 (ts ++ rest) && Ahead.text 1 (ts ++ rest) == ":") = false := by
    rw [Bool.and_eq_false_imp]
    intro hword
    obtain ⟨t, ts, rfl⟩ := List.exists_cons_of_ne_nil h.ne_nil
    have hword : t.kind.isWord = true := by simpa [Ahead.isWord] using hword
    have hsign : t.reads "(" = false := by
      rw [Bool.eq_false_iff]
      intro hread
      have hop := (h.wellShaped t List.mem_cons_self).isOperator_of_reads hread (by decide)
      rw [hop.1] at hword
      cases hword
    -- A colon would end the type, and the type does not end before its last token.
    rw [beq_eq_false_iff_ne]
    intro hcolon'
    change Ahead.text 0 (ts ++ rest) = ":" at hcolon'
    have hends' : EndsType (ts ++ rest) := endsType_of_text (by rw [hcolon']; decide)
    have hread := typeReference_word hword hsign hends'
    have hrest := (Except.ok.inj (hread.symm.trans (h.run rest hends)))
    exact hcolon ((congrArg (fun r => Ahead.text 0 r.2) hrest).symm.trans hcolon')
  unfold attributeTarget
  rw [ahead_bind, htarget]
  rfl

/-- An expression does not start with what ends it. -/
theorem reads_expression_start {stops : List String} {s w : String}
    (h : ReadsText (expression stops) (fun rest => Ahead.isOperator stops rest = true) s ts)
    (hw : w ∈ stops) (hsign : startsWord w = false) (rest : List Token) :
    Ahead.reads w (ts ++ rest) = false := by
  obtain ⟨t, ts, rfl⟩ := List.exists_cons_of_ne_nil h.ne_nil
  rw [Bool.eq_false_iff]
  intro hread
  obtain ⟨hkind, htext⟩ :=
    (h.wellShaped t List.mem_cons_self).isOperator_of_reads (w := w) hread hsign
  have hrun := h.run [signToken w] (by simp [Ahead.isOperator, signToken, hw])
  have hstop : Ahead.isOperator stops (t :: ts ++ [signToken w]) = true := by
    simp [Ahead.isOperator, hkind, htext, hw]
  unfold expression at hrun
  rw [ahead_bind, if_pos hstop] at hrun
  cases hrun

/-- The arguments of an annotation. -/
theorem yields_arguments {args : List String} (hne : args ≠ [])
    (hargs : args.all isArgument = true)
    (h : Lines (["("] ++ commaLines (args.map ([·])) ++ [")"]) ts) :
    Yields n attributeArguments (fun _ => True) (List.Forall₂ Eq args) ts := by
  have hread : ∀ arg ∈ args, ∀ ts, Lines [arg] ts → ReadsText (expression [",", ")"])
      (fun rest => Ahead.isOperator [",", ")"] rest = true) arg ts := by
    intro arg harg ts hts
    obtain ⟨us, _, rfl, hline, hnil⟩ := hts.text
    cases hnil
    rw [List.append_nil]
    exact reads_argument hline (List.all_eq_true.mp hargs arg harg)
  obtain ⟨g, p, _, rfl, hbody⟩ := Lines.word (k := .operator) (by decide) h
  obtain ⟨us, _, rfl, hus, hclose⟩ := hbody.of_append
  obtain ⟨g', p', _, rfl, hnil⟩ := Lines.word (k := .operator) (by decide) hclose
  cases hnil
  refine .expect rfl (.skip (fun rest _ => ?_) (.bind (V := List.Forall₂ Eq args)
    (H := SignNext ")") ?_ (fun rest _ => ⟨g', p', rest, rfl⟩) fun as has =>
      .expect rfl (yields_pure has)))
  · obtain ⟨arg, args, rfl⟩ := List.exists_cons_of_ne_nil hne
    obtain ⟨as, bs, rfl, has, -⟩ := Lines.commas hus
    rw [List.append_assoc, List.append_assoc]
    exact reads_expression_start (hread arg List.mem_cons_self as has)
      (by decide) (by decide) _
  · refine yields_commas (H := fun rest => Ahead.isOperator [",", ")"] rest = true) hne hus
      (fun arg harg ts hts => ?_) (fun _ _ _ _ _ _ _ => ⟨rfl, rfl⟩) ?_
    · exact (hread arg harg ts hts).yields_trim.mono (fun _ h => h) fun _ h => h.symm
    · rintro _ ⟨g, p, us, rfl⟩
      exact ⟨rfl, rfl⟩

/-- An annotation, behind its bracket. -/
theorem yields_oneAttribute {a : Annotation} (ha : a.isPrintable = true) {us vs : List Token}
    (hus : Line a.name us)
    (hvs : Lines (if a.args.isEmpty then [] else ["("] ++ commaLines (a.args.map ([·])) ++
      [")"]) vs) :
    Yields n oneAttribute (SignNext "]") (a.Agrees Eq Eq) (us ++ vs) := by
  obtain ⟨pos, name, args⟩ := a
  obtain ⟨hname, hargs⟩ : isType name = true ∧ args.all isArgument = true := by
    unfold Annotation.isPrintable at ha
    simpa using ha
  have htype := reads_type hus hname
  refine .here fun pos' => ?_
  cases args with
  | nil =>
    cases hvs
    refine .bind htype.yields_verbatim ?_ fun _ h => .neg ?_ ?_
    · rintro _ ⟨g, p, us, rfl⟩
      exact endsType_of_text (by simp [Ahead.text])
    · rintro _ ⟨g, p, us, rfl⟩
      rfl
    · exact yields_pure ⟨h.symm, .nil⟩
  | cons arg args =>
    have hopen : ∀ rest, ∃ g p us, vs ++ rest = ⟨.operator, "(", g, p⟩ :: us := by
      obtain ⟨g, p, ws, rfl, -⟩ := Lines.word (k := .operator) (by decide) hvs
      exact fun rest => ⟨g, p, ws ++ rest, rfl⟩
    refine .bind htype.yields_verbatim ?_ fun _ h => .pos ?_ ?_
    · intro rest _
      obtain ⟨g, p, us, hrest⟩ := hopen rest
      rw [hrest]
      exact endsType_of_text (by simp [Ahead.text])
    · intro rest _
      obtain ⟨g, p, us, hrest⟩ := hopen rest
      rw [hrest]
      rfl
    · exact ((yields_arguments (List.cons_ne_nil _ _) hargs hvs).mono (fun _ _ => trivial)
        fun _ h => h).map fun as has => ⟨h.symm, has⟩

/-- An annotation in brackets. -/
theorem yields_annotation {a : Annotation} (ha : a.isPrintable = true) (h : Lines a.lines ts) :
    Yields n attributeList (fun _ => True)
      (fun as => ∃ b, as = [b] ∧ a.Agrees Eq Eq b) ts := by
  obtain ⟨g, p, _, rfl, hrest⟩ := Lines.word (k := .operator) (by decide) h
  obtain ⟨us, _, rfl, hus, hargs⟩ := Lines.text hrest
  obtain ⟨vs, _, rfl, hvs, hclose⟩ := hargs.of_append
  obtain ⟨g', p', _, rfl, hnil⟩ := Lines.word (k := .operator) (by decide) hclose
  cases hnil
  have hname : isType a.name = true := ((Bool.and_eq_true _ _).mp ha).1
  have hnext :
      ∀ rest, Ahead.text 0 (vs ++ [⟨.operator, "]", g', p'⟩] ++ rest) ∈ ["(", "]"] := by
    intro rest
    split at hvs
    · cases hvs
      exact List.mem_cons_of_mem _ List.mem_cons_self
    · obtain ⟨_, _, _, rfl, -⟩ := Lines.word (k := .operator) (by decide) hvs
      exact List.mem_cons_self
  refine .expect rfl (.nothing "" (fun rest _ => ?_) ?_)
  · rw [List.append_assoc]
    refine attributeTarget_type (reads_type hus hname) (endsType_of_text fun hmem => ?_)
      fun hcolon => ?_
    · have := hnext rest
      simp at this hmem
      rcases this with h | h <;> simp [h] at hmem
    · have := hnext rest
      rw [hcolon] at this
      simp at this
  · rw [← List.append_assoc]
    refine .bind (V := AnnotationsAgree Eq Eq [a]) (H := SignNext "]") ?_
      (fun rest _ => ⟨g', p', rest, rfl⟩) fun as has => .expect rfl (yields_pure ?_)
    · rw [← List.append_nil (us ++ vs)]
      refine yields_collect (B := fun b ts => b = a ∧ ts = us ++ vs) (S := fun _ => True)
        (H := SignNext "]") ⟨rfl, rfl⟩ .nil ?_ (fun _ h => nomatch h) ?_
      · rintro _ - _ ⟨rfl, rfl⟩
        exact yields_oneAttribute ha hus hvs
      · rintro _ ⟨g, p, us, rfl⟩
        exact ⟨⟨g, p, us, rfl⟩, rfl⟩
    · cases has with
      | cons hb hnil =>
        cases hnil
        exact ⟨_, rfl, hb⟩

/-- All annotations before a declaration. -/
theorem yields_annotations {as : List Annotation} (has : as.all Annotation.isPrintable = true)
    (h : Lines (as.flatMap Annotation.lines) ts) :
    Yields n attributeLists (fun rest => Ahead.text 0 rest ≠ "[")
      (AnnotationsAgree Eq Eq as) ts := by
  refine (yields_gather (H := fun _ => True)
    (R := fun a bs => ∃ b, bs = [b] ∧ a.Agrees Eq Eq b) (fun a ha ts hts => ?_)
    (fun _ _ _ _ _ _ => trivial) (fun rest hrest => ⟨trivial, ?_⟩) h.of_flatMap).mono
    (fun _ h => h) ?_
  · have hread := yields_annotation (n := n) (List.all_eq_true.mp has a ha) hts
    obtain ⟨g, p, us, rfl, -⟩ := Lines.word (k := .operator) (by decide) hts
    refine ⟨List.cons_ne_nil _ _, .pos (fun rest _ => rfl) (hread.map ?_)⟩
    exact fun as has => ⟨as, rfl, has⟩
  · rw [isAt, ahead_bind, reads_of_text_ne hrest]
    rfl
  · rintro _ ⟨bs, hbs, rfl⟩
    exact foldr_singletons hbs

/-! ## Modifiers -/

/-- The modifiers as they are read. -/
theorem line_modifier {w : String} (hw : (modifierWords ++ contextualWords).contains w = true)
    (h : Line w ts) : ∃ k g p, ts = [⟨k, w, g, p⟩] ∧ k.isWord = true ∧
      ∀ rest, Ahead.isWord 0 rest = true → modifier? (⟨k, w, g, p⟩ :: rest) = some w := by
  rw [List.contains_iff_mem, List.mem_append] at hw
  rcases hw with hw | hw
  · have hprinted : (Kind.keyword, w) ∈ printedWords := by simp [printedWords, hw]
    obtain ⟨g, p, rfl⟩ := h.word hprinted
    exact ⟨_, g, p, rfl, rfl, fun rest _ => by simp [modifier?, hw]⟩
  · have hprinted : (Kind.identifier false, w) ∈ printedWords := by simp [printedWords, hw]
    obtain ⟨g, p, rfl⟩ := h.word hprinted
    exact ⟨_, g, p, rfl, rfl,
      fun rest hrest => by simp [modifier?, hw, hrest, Kind.isIdentifier]⟩

/-- All modifiers before a declaration. -/
theorem yields_modifiers {ws : List String}
    (hws : ws.all (fun w => (modifierWords ++ contextualWords).contains w) = true)
    (h : Lines ws ts) :
    Yields n modifiers (fun rest => Ahead.isWord 0 rest = true ∧ modifier? rest = none)
      (· = ws) ts := by
  refine (yields_gather (H := fun rest => Ahead.isWord 0 rest = true)
    (R := fun w a => ∃ v, a = [v] ∧ w = v) (fun w hw ts hts => ?_)
    (fun w hw ts rest hts _ => ?_) (fun rest hrest => ⟨hrest.1, ?_⟩) h).mono (fun _ h => h) ?_
  · obtain ⟨k, g, p, rfl, -, hread⟩ := line_modifier (List.all_eq_true.mp hws w hw) hts
    exact ⟨List.cons_ne_nil _ _,
      .ahead (some w) hread (.advance (yields_pure ⟨[w], rfl, w, rfl, rfl⟩))⟩
  · obtain ⟨k, g, p, rfl, hk, -⟩ :=
      line_modifier (List.all_eq_true.mp hws w (List.mem_of_mem_tail hw)) hts
    exact hk
  · rw [ahead_bind, hrest.2]
    rfl
  · rintro _ ⟨as, has, rfl⟩
    have hall := foldr_singletons has
    rw [List.forall₂_eq_eq_eq] at hall
    exact hall.symm

/-- What comes behind a lead: a word that is no modifier. -/
structure Headed (rest : List Token) : Prop where
  word : Ahead.isWord 0 rest = true
  modifier : modifier? rest = none
  bracket : Ahead.text 0 rest ≠ "["

/-- **Annotations and modifiers** are read as they are printed, before what neither of them
begins with. -/
theorem yields_lead {l : Lead} (hl : l.isPrintable = true) (h : Lines l.lines ts) :
    Yields n lead Headed (l.Agrees Eq Eq) ts := by
  obtain ⟨has, hws⟩ := (Bool.and_eq_true _ _).mp hl
  obtain ⟨us, vs, rfl, hus, hvs⟩ := h.of_append
  refine .here fun pos => .bind (yields_annotations has hus)
      (fun rest hrest => ?_) fun as has =>
    ((yields_modifiers hws hvs).mono (fun rest hrest => ⟨hrest.word, hrest.modifier⟩)
      fun _ h => h).map fun ws hws => ⟨has, hws.symm⟩
  -- Behind the annotations comes a modifier, or what comes behind the lead.
  obtain ⟨_, _, ws⟩ := l
  cases hvs with
  | nil => exact hrest.bracket
  | @cons w ws _ _ head tail =>
    have hw := List.all_eq_true.mp hws w List.mem_cons_self
    obtain ⟨k, g, p, rfl, -⟩ := line_modifier hw head
    rintro rfl
    exact absurd hw (by decide)

/-! ## Parameters -/

/-- A type of one word is read before another word. -/
theorem yields_wordType {w : String} (hw : w ≠ "(") (g : String) (p : Place) :
    Yields n typeReference (fun rest => startsWord (Ahead.text 0 rest) = true) (fun _ => True)
      [⟨.identifier false, w, g, p⟩] := by
  have hround : (⟨.identifier false, w, g, p⟩ : Token).reads "(" = false := by
    simp [Token.reads, hw]
  exact fun _ _ hrest => ⟨(), typeReference_word rfl hround
    (endsType_of_text (not_mem_of_startsWord hrest (by decide))), trivial⟩

/-- No annotation is read where no bracket stands. -/
theorem attributeLists_none (h : Ahead.text 0 ts ≠ "[") :
    attributeLists ts = .ok ([], ts) := by
  have hyields : Yields (ts.length + 1) attributeLists (fun rest => Ahead.text 0 rest ≠ "[")
      (AnnotationsAgree Eq Eq []) [] := yields_annotations rfl .nil
  obtain ⟨as, has, hnil⟩ := hyields ts (by simp) h
  cases hnil
  exact has

/-- What comes behind a parameter. -/
def EndsParameter (rest : List Token) : Prop := SignNext "," rest ∨ SignNext ")" rest

/-- A parameter is read as it is printed, before a comma or the bracket. -/
theorem yields_parameter {q : Param} (hq : q.isPrintable = true) (h : Lines q.lines ts) :
    Yields n parameter EndsParameter (q.Agrees Eq) ts := by
  obtain ⟨pos, name, initial⟩ := q
  obtain ⟨hname, hinitial⟩ : isName name = true ∧ initial.all isArgument = true := by
    simpa [Param.isPrintable] using hq
  obtain ⟨g, p, _, rfl, hrest⟩ := Lines.word (k := .identifier false) (by decide) h
  obtain ⟨g', p', vs, rfl, hvs⟩ := Lines.name hname hrest
  refine .nothing [] (fun rest _ => attributeLists_none (by simp [Ahead.text]))
      (.here fun pos' =>
    .nothing () (fun rest _ => rfl) ((yields_wordType (by decide) g p).bind
      (fun rest _ => startsWord_of_isName hname) fun _ _ => .identifier rfl ?_))
  cases initial with
  | none =>
    cases hvs
    refine .skip ?_ (yields_pure ⟨rfl, .none⟩)
    rintro _ (⟨g, p, us, rfl⟩ | ⟨g, p, us, rfl⟩) <;> rfl
  | some value =>
    obtain ⟨g, p, _, rfl, hvalue⟩ := Lines.word (k := .operator) (by decide) hvs
    obtain ⟨us, _, rfl, hline, hnil⟩ := Lines.text hvalue
    cases hnil
    rw [List.append_nil]
    refine (Yields.accept rfl ?_).less
    refine ((reads_argument hline hinitial).yields_verbatim.mono ?_ fun _ h => h).map
      fun text htext => ⟨rfl, .some htext.symm⟩
    rintro _ (⟨g, p, us, rfl⟩ | ⟨g, p, us, rfl⟩) <;> rfl

/-- The list of parameters, which ends with its bracket. -/
theorem yields_parameters {ps : List Param} (hps : ps.all Param.isPrintable = true)
    (h : Lines (paramLines ps) ts) :
    Yields n parameters (fun _ => True) (List.Forall₂ (Param.Agrees Eq) ps) ts := by
  obtain ⟨g, p, _, rfl, hbody⟩ := Lines.word (k := .operator) (by decide) h
  obtain ⟨us, _, rfl, hus, hclose⟩ := hbody.of_append
  obtain ⟨g', p', _, rfl, hnil⟩ := Lines.word (k := .operator) (by decide) hclose
  cases hnil
  refine .expect rfl ?_
  by_cases hne : ps = []
  · subst hne
    cases hus
    exact (Yields.accept rfl (yields_pure .nil)).less
  · refine .skip (fun rest _ => ?_) (.bind (V := List.Forall₂ (Param.Agrees Eq) ps)
      (H := SignNext ")") ?_ (fun rest _ => ⟨g', p', rest, rfl⟩) fun as has =>
        .expect rfl (yields_pure has))
    · obtain ⟨q, ps, rfl⟩ := List.exists_cons_of_ne_nil hne
      obtain ⟨as, bs, rfl, has, -⟩ := Lines.commas hus
      obtain ⟨_, _, _, rfl, -⟩ := Lines.word (k := .identifier false) (by decide) has
      rfl
    · refine yields_commas (H := EndsParameter) hne hus
        (fun q hq ts hts => yields_parameter (List.all_eq_true.mp hps q hq) hts)
        (fun _ _ g p vs rest _ => ⟨.inl ⟨g, p, vs ++ rest, rfl⟩, rfl⟩) ?_
      rintro _ ⟨g, p, us, rfl⟩
      exact ⟨.inr ⟨g, p, us, rfl⟩, rfl⟩

/-! ## Bodies -/

/-- A statement does not start with a closing brace. -/
theorem reads_statement_start {s : String} (h : ReadsText statement EndsStatement s ts)
    (rest : List Token) : Ahead.reads Text.closeBrace (ts ++ rest) = false := by
  obtain ⟨t, ts, rfl⟩ := List.exists_cons_of_ne_nil h.ne_nil
  rw [Bool.eq_false_iff]
  intro hread
  have hsign :=
    (h.wellShaped t List.mem_cons_self).isOperator_of_reads (w := Text.closeBrace)
      hread (by decide)
  obtain ⟨m, -, hdrop, hspans⟩ :=
    Comparison.sim_statement.reads (h.run [] (reads_eq_false (by decide)))
  have htake : (t :: ts ++ []).take m = t :: ts := by
    rw [List.append_nil] at hdrop ⊢
    exact List.take_of_length_le (List.drop_eq_nil_iff.mp hdrop.symm)
  have hbalanced : Balanced (t :: ts) := htake ▸ hspans.balanced rfl
  have hclosing : signs (t :: ts) = .closing .curly :: signs ts := by
    obtain ⟨kind, text, g, p⟩ := t
    obtain ⟨rfl, rfl⟩ := hsign
    rfl
  unfold Balanced at hbalanced
  rw [hclosing] at hbalanced
  cases hbalanced

/-- A line ends the statement before it unless it begins as the rest of one. -/
theorem not_continues {s : String} (h : Line s ts) (hs : continues s = false) (hne : ts ≠ [])
    (rest : List Token) : EndsStatement (ts ++ rest) := by
  obtain ⟨t, ht, hshift⟩ := h
  have hread : Ahead.readsAny ["else", "catch", "finally"] (ts ++ rest) = false := by
    rw [readsAny_append hne, ← (tame_readsAny _).alike _ _ hshift.alike]
    simpa [continues, ht] using hs
  intro w hw
  simpa using List.any_eq_false.mp hread w hw

/-- Statements between braces: each one ends where the next one begins. -/
theorem yields_block {ss : List String} (hss : ss.all isStatement = true)
    (htail : ss.tail.all (fun s => !continues s) = true)
    (h : Lines ([Text.openBrace] ++ ss ++ [Text.closeBrace]) ts) :
    Yields n block (fun _ => True) (List.Forall₂ Eq ss) ts := by
  obtain ⟨g, p, _, rfl, hbody⟩ := Lines.word (k := .operator) (by decide) h
  obtain ⟨us, _, rfl, hus, hclose⟩ := hbody.of_append
  obtain ⟨g', p', _, rfl, hnil⟩ := Lines.word (k := .operator) (by decide) hclose
  cases hnil
  refine .expect rfl (.bind (V := List.Forall₂ Eq ss) (H := SignNext Text.closeBrace) ?_
    (fun rest _ => ⟨g', p', rest, rfl⟩) fun as has => .expect rfl (yields_pure has))
  refine (yields_gather (H := EndsStatement) (R := fun s a => ∃ v, a = [v] ∧ s = v)
    (fun s hs ts hts => ?_) (fun s hs ts rest hts _ => ?_) ?_ hus).mono (fun _ h => h) ?_
  · have hread := reads_statement hts (List.all_eq_true.mp hss s hs)
    refine ⟨hread.ne_nil,
      .neg (fun rest _ => reads_statement_start hread rest) (.neg (fun rest _ => ?_) ?_)⟩
    · obtain ⟨t, ts, rfl⟩ := List.exists_cons_of_ne_nil hread.ne_nil
      rfl
    · exact hread.yields_verbatim.map fun v hv => ⟨[v], rfl, v, rfl, hv.symm⟩
  · have hread := reads_statement hts (List.all_eq_true.mp hss s (List.mem_of_mem_tail hs))
    exact not_continues hts (by simpa using List.all_eq_true.mp htail s hs) hread.ne_nil rest
  · rintro _ ⟨g, p, us, rfl⟩
    exact ⟨reads_eq_false (by simp [Ahead.text]), rfl⟩
  · rintro _ ⟨as, has, rfl⟩
    exact foldr_singletons has

/-- A body is read as it is printed, and so is the `;` for none. -/
theorem yields_body {returns : Bool} {b : Option (List String)} (hb : isPrintableBody b = true)
    (h : Lines (bodyLines b) ts) :
    Yields n (body returns) (fun _ => True) (Option.Rel (List.Forall₂ Eq) b) ts := by
  cases b with
  | none =>
    obtain ⟨g, p, _, rfl, hnil⟩ := Lines.word (k := .operator) (by decide) h
    cases hnil
    exact .neg (fun _ _ => rfl) (.skip (fun _ _ => rfl) (.expect rfl (yields_pure .none)))
  | some ss =>
    obtain ⟨hss, htail⟩ := (Bool.and_eq_true _ _).mp hb
    refine .pos (fun rest _ => ?_) ((yields_block hss htail h).map fun as has => .some has)
    obtain ⟨_, _, _, rfl, -⟩ := Lines.word (k := .operator) (by decide) h
    rfl

/-! ## Methods and constructors -/

/-- No constraint is read where no `where` stands. -/
theorem constraints_none (h : Ahead.text 0 ts ≠ "where") : constraints ts = .ok ((), ts) := by
  unfold constraints
  rw [isAt, ahead_bind, reads_of_text_ne h]
  rfl

/-- A body starts with a brace or a semicolon. -/
theorem text_bodyLines {b : Option (List String)} (h : Lines (bodyLines b) ts)
    (rest : List Token) {w : String} (hw : w ∉ [Text.openBrace, ";"]) :
    Ahead.text 0 (ts ++ rest) ≠ w := by
  rintro rfl
  cases b with
  | none =>
    obtain ⟨_, _, _, rfl, -⟩ := Lines.word (k := .operator) (by decide) h
    exact hw (List.mem_cons_of_mem _ List.mem_cons_self)
  | some ss =>
    obtain ⟨_, _, _, rfl, -⟩ := Lines.word (k := .operator) (by decide) h
    exact hw List.mem_cons_self

/-- A method behind its name. -/
theorem yields_method {name : String} {returns : Bool} {ps : List Param}
    {b : Option (List String)} (hps : ps.all Param.isPrintable = true)
    (hb : isPrintableBody b = true) (h : Lines (paramLines ps ++ bodyLines b) ts) :
    Yields n (method name returns) (fun _ => True)
      (MemberForm.Agrees Eq (.method name ps b)) ts := by
  obtain ⟨us, vs, rfl, hus, hvs⟩ := h.of_append
  refine .neg (fun rest _ => ?_)
      (.bind (yields_parameters hps hus) (fun _ _ => trivial) fun qs hqs =>
    .nothing () (fun rest _ => constraints_none (text_bodyLines hvs rest (by decide)))
      ((yields_body hb hvs).map fun c hc => .method name hqs hc))
  obtain ⟨_, _, _, rfl, -⟩ := Lines.word (k := .operator) (by decide) hus
  rfl

/-- A constructor, which has no type before its name. -/
theorem yields_constructor {name : String} {ps : List Param} {b : Option (List String)}
    (hname : isName name = true) (hps : ps.all Param.isPrintable = true)
    (hb : isPrintableBody b = true) (h : Lines (name :: (paramLines ps ++ bodyLines b)) ts) :
    Yields n constructor (fun _ => True)
      (MemberForm.Agrees Eq (.constructor name ps b)) ts := by
  obtain ⟨g, p, _, rfl, hrest⟩ := Lines.name hname h
  obtain ⟨us, vs, rfl, hus, hvs⟩ := hrest.of_append
  exact .identifier rfl (.bind (yields_parameters hps hus) (fun _ _ => trivial) fun qs hqs =>
    .skip (fun rest _ => reads_of_text_ne (text_bodyLines hvs rest (by decide)))
      ((yields_body hb hvs).map fun c hc => .constructor name hqs hc))

/-! ## Properties -/

theorem modifiers_none (h : modifier? ts = none) : modifiers ts = .ok ([], ts) :=
  modifiers_eq_ok.mpr (.inl ⟨h, rfl, rfl⟩)

/-- An accessor without a body. -/
theorem yields_accessor {w : String} (hw : w ∈ ["get", "set"]) (h : Lines [w, ";"] ts) :
    Yields n accessor (fun _ => True) (· = w) ts := by
  have hprinted : (Kind.identifier false, w) ∈ printedWords := by
    rcases List.mem_pair.mp hw with rfl | rfl <;> decide
  obtain ⟨hbracket, hmodifier, hword⟩ : w ≠ "[" ∧ w ∉ contextualWords ∧ w ∈ accessorWords := by
    rcases List.mem_pair.mp hw with rfl | rfl <;> decide
  obtain ⟨g, p, _, rfl, hrest⟩ := Lines.word hprinted h
  obtain ⟨g', p', _, rfl, hnil⟩ := Lines.word (k := .operator) (by decide) hrest
  cases hnil
  refine .nothing [] (fun rest _ => attributeLists_none (by simpa [Ahead.text] using hbracket))
    (.nothing [] (fun rest _ => modifiers_none ?_)
      (.neg (fun rest _ => ?_) (.identifier rfl ?_)))
  · simp [modifier?, hmodifier]
  · simp [Ahead.text, hword]
  · refine Yields.map (V := fun _ => True) ?_ fun _ _ => rfl
    exact .neg (fun _ _ => rfl) (.skip (fun _ _ => rfl)
      (fun _ _ _ => ⟨(), rfl, trivial⟩))

/-- A property behind its name. -/
theorem yields_property {name : String} {getter setter : Bool}
    (h : Lines ([Text.openBrace] ++ (if getter then ["get", ";"] else []) ++
      (if setter then ["set", ";"] else []) ++ [Text.closeBrace]) ts) :
    Yields n (property name) (fun rest => Ahead.text 0 rest ≠ "=")
      (MemberForm.Agrees Eq (.property name getter setter)) ts := by
  let words := (if getter then ["get"] else []) ++ (if setter then ["set"] else [])
  have hwords : ∀ w ∈ words, w ∈ ["get", "set"] := by
    cases getter <;> cases setter <;> decide
  have hlines : [Text.openBrace] ++ (if getter then ["get", ";"] else []) ++
      (if setter then ["set", ";"] else []) ++ [Text.closeBrace] =
      Text.openBrace :: (words.flatMap ([·, ";"]) ++ [Text.closeBrace]) := by
    cases getter <;> cases setter <;> rfl
  rw [hlines] at h
  obtain ⟨g, p, _, rfl, hbody⟩ := Lines.word (k := .operator) (by decide) h
  obtain ⟨us, _, rfl, hus, hclose⟩ := hbody.of_append
  obtain ⟨g', p', _, rfl, hnil⟩ := Lines.word (k := .operator) (by decide) hclose
  cases hnil
  refine .skip (fun _ _ => rfl)
    (.expect rfl (.bind (V := (· = words)) (H := SignNext Text.closeBrace) ?_
      (fun rest _ => ⟨g', p', rest, rfl⟩) ?_))
  · refine (yields_gather (H := fun _ => True) (R := fun w a => ∃ v, a = [v] ∧ w = v)
      (fun w hw ts hts => ?_) (fun _ _ _ _ _ _ => trivial) ?_ hus.of_flatMap).mono
      (fun _ h => h) ?_
    · have hread := yields_accessor (n := n) (hwords w hw) hts
      have hprinted : (Kind.identifier false, w) ∈ printedWords := by
        rcases List.mem_pair.mp (hwords w hw) with rfl | rfl <;> decide
      obtain ⟨g, p, us, rfl, -⟩ := Lines.word hprinted hts
      refine ⟨List.cons_ne_nil _ _,
        .neg (fun rest _ => reads_of_text_ne ?_) (hread.map fun v hv => ?_)⟩
      · rintro rfl
        exact absurd (hwords _ hw) (by decide)
      · exact ⟨[v], rfl, v, rfl, hv.symm⟩
    · rintro _ ⟨g, p, us, rfl⟩
      exact ⟨trivial, rfl⟩
    · rintro _ ⟨as, has, rfl⟩
      have hall := foldr_singletons has
      rw [List.forall₂_eq_eq_eq] at hall
      exact hall.symm
  · rintro _ rfl
    refine .expect rfl (.skip (fun rest hrest => reads_of_text_ne hrest) (yields_pure ?_))
    have hget : words.contains "get" = getter := by cases getter <;> cases setter <;> decide
    have hset : words.contains "set" = setter := by cases getter <;> cases setter <;> decide
    rw [hget, hset]
    exact .property name getter setter

/-! ## Fields -/

/-- The tokens of a variable: its name and what is read behind it. -/
structure ReadsVariable (s : String) (name : Token) (us : List Token) : Prop
    extends Verbatim s (name :: us) where
  identifier : name.kind.isIdentifier = true
  name : name.text ∉ keywords
  value : variableRest (us ++ [signToken ";"]) = .ok ((), [signToken ";"])

/-- A printed variable is its name with what belongs to it. -/
theorem readsVariable_of_line {s : String} (h : Line s ts) (hs : isVariable s = true) :
    ∃ name us, ts = name :: us ∧ ReadsVariable s name us := by
  obtain ⟨name, us, rfl, hverbatim, hident, hname, hvalue⟩ := reads_variable h hs
  exact ⟨name, us, rfl, hverbatim, hident, hname, hvalue⟩

section Variables

variable {s : String} {name : Token} {us rest : List Token}

/-- What comes behind the name of a variable. -/
theorem ReadsVariable.reads_next (h : ReadsVariable s name us)
    (hrest : Ahead.readsAny [",", ";"] rest = true) :
    Ahead.readsAny ["=", ";", ",", "["] (us ++ rest) = true := by
  have hmono : ∀ {ws : List String} {ts : List Token}, (∀ w ∈ ws, w ∈ ["=", ";", ",", "["]) →
      Ahead.readsAny ws ts = true → Ahead.readsAny ["=", ";", ",", "["] ts = true := by
    intro ws ts hws hreads
    obtain ⟨w, hw, hread⟩ := List.any_eq_true.mp hreads
    exact List.any_eq_true.mpr ⟨w, hws w hw, hread⟩
  have hstart := variableRest_start h.value
  by_cases hus : us = []
  · subst hus
    exact hmono (by decide) hrest
  · rcases hstart with heq | hreads
    · exact absurd (by simpa using heq) hus
    · rw [readsAny_append hus, ← readsAny_append hus rest] at hreads
      exact hmono (by decide) hreads

/-- The name of a variable with what comes behind it begins a variable, not a method or a
property. -/
theorem ReadsVariable.startsVariable (h : ReadsVariable s name us)
    (hrest : Ahead.readsAny [",", ";"] rest = true) :
    startsVariable (name :: (us ++ rest)) = true := by
  have hident : Ahead.isIdentifier 0 (name :: (us ++ rest)) = true := by
    simpa [Ahead.isIdentifier] using h.identifier
  have hsigns : ∀ w ∈ ["=", ";", ",", "["], w ∈ ["=", ",", ";", "["] := by decide
  have htext : Ahead.text 1 (name :: (us ++ rest)) ∈ ["=", ",", ";", "["] :=
    hsigns _ (text_of_readsAny (h.reads_next hrest))
  rw [Parser.startsVariable, hident, List.contains_iff_mem.mpr htext]
  rfl

theorem endsVariable_semicolon (h : SignNext ";" rest) : EndsVariable rest := by
  obtain ⟨g, p, us, rfl⟩ := h
  exact ⟨rfl, _, us, rfl, rfl, by simp⟩

theorem endsVariable_sign : EndsVariable [signToken ";"] :=
  endsVariable_semicolon ⟨_, _, [], rfl⟩

theorem EndsVariable.reads (h : EndsVariable rest) :
    Ahead.readsAny [",", ";"] rest = true := by
  obtain ⟨-, t, us, rfl, hkind, htext⟩ := h
  exact List.any_eq_true.mpr ⟨t.text, htext,
    by simp [Ahead.reads, Token.reads, hkind, Kind.isLiteral]⟩

/-- A comma and another variable end a variable. -/
theorem ReadsVariable.ends (h : ReadsVariable s name us) (hrest : EndsVariable rest)
    (g : String) (p : Place) :
    EndsVariable (⟨.operator, ",", g, p⟩ :: (name :: us ++ rest)) := by
  refine ⟨?_, _, _, rfl, rfl, by simp⟩
  have hstart : endsInitializer (⟨.operator, ",", g, p⟩ :: (name :: us ++ rest)) =
      Parser.startsVariable (name :: (us ++ rest)) := rfl
  rw [hstart]
  exact h.startsVariable hrest.reads

/-- A variable is read as it is printed. -/
theorem ReadsVariable.yields (h : ReadsVariable s name us) :
    Yields n (fieldVariable name) EndsVariable (· = s) us := by
  have hrest : Yields n variableRest EndsVariable (fun _ => True) us :=
    fun rest _ hrest => ⟨(), variableRest_swap endsVariable_sign h.value hrest, trivial⟩
  exact hrest.consumed.map fun r hr => by rw [hr.2, h.spelling]

end Variables

/-- A field behind the name of its first variable. -/
theorem yields_field {v : String} {vs : List String} {name : Token} {us : List Token}
    (hv : ReadsVariable v name us) (hvs : vs.all isVariable = true)
    (h : Lines (vs.flatMap ([",", ·]) ++ [";"]) ts) :
    Yields n (field name) (fun _ => True) (MemberForm.Agrees Eq (.field (v :: vs)))
      (us ++ ts) := by
  obtain ⟨ws, _, rfl, hws, hclose⟩ := h.of_append
  obtain ⟨g, p, _, rfl, hnil⟩ := Lines.word (k := .operator) (by decide) hclose
  cases hnil
  have hblock : ∀ w ∈ vs, ∀ ts, Lines [",", w] ts → ∃ g p name us,
      ts = ⟨.operator, ",", g, p⟩ :: name :: us ∧ ReadsVariable w name us := by
    intro w hw ts hts
    obtain ⟨g, p, _, rfl, hrest⟩ := Lines.word (k := .operator) (by decide) hts
    obtain ⟨us, _, rfl, hline, hnil⟩ := Lines.text hrest
    cases hnil
    obtain ⟨name, us, rfl, hread⟩ := readsVariable_of_line hline (List.all_eq_true.mp hvs w hw)
    exact ⟨g, p, name, us, by rw [List.append_nil], hread⟩
  have hnext : ∀ w ∈ vs, ∀ ts rest, Lines [",", w] ts → EndsVariable rest →
      EndsVariable (ts ++ rest) := by
    intro w hw ts rest hts hrest
    obtain ⟨g, p, name, us, rfl, hread⟩ := hblock w hw ts hts
    exact hread.ends hrest g p
  have hmore : Yields n (gather do
      if ← accept "," then return some [← fieldVariable (← identifier)] else return none)
      (SignNext ";") (List.Forall₂ Eq vs) ws := by
    refine (yields_gather (H := EndsVariable) (R := fun w a => ∃ v, a = [v] ∧ w = v)
      (fun w hw ts hts => ?_) (fun w hw => hnext w (List.mem_of_mem_tail hw)) ?_
      hws.of_flatMap).mono (fun _ h => h) ?_
    · obtain ⟨g, p, name, us, rfl, hread⟩ := hblock w hw ts hts
      refine ⟨List.cons_ne_nil _ _, (Yields.accept rfl (.identifier hread.identifier ?_)).less⟩
      exact hread.yields.map fun a ha => ⟨[a], rfl, a, rfl, ha.symm⟩
    · intro rest hrest
      refine ⟨endsVariable_semicolon hrest, ?_⟩
      obtain ⟨g, p, us, rfl⟩ := hrest
      rfl
    · rintro _ ⟨as, has, rfl⟩
      exact foldr_singletons has
  refine .bind (V := (· = v)) (H := EndsVariable) hv.yields (fun rest _ => ?_) ?_
  · rw [List.append_assoc]
    exact hws.of_flatMap.behind hnext (endsVariable_semicolon ⟨g, p, rest, rfl⟩)
  · rintro _ rfl
    exact .bind hmore (fun rest _ => ⟨g, p, rest, rfl⟩) fun as has =>
      .expect rfl (yields_pure (.field (.cons rfl has)))

/-! ## Any member -/

/-- A name that is not qualified. -/
theorem memberName_plain {t : Token} (ht : t.kind.isIdentifier = true)
    (h : Ahead.text 0 ts ∉ ["<", "."]) : memberName (t :: ts) = .ok (t, ts) := by
  have hangle : Ahead.reads "<" ts = false := reads_eq_false h "<" (by simp)
  have hpoint : Ahead.reads "." ts = false := reads_eq_false h "." (by simp)
  have hends : argumentsEnd ts = .ok ts := by
    rw [argumentsEnd, if_neg (by simp [hangle])]
  rw [memberName_eq]
  refine bind_eq_ok.mpr ⟨t, ts, by rw [identifier, if_pos ht], ?_⟩
  rw [Comparison.loop_nameRound, ← bind_pure (Comparison.namesBehind _ t),
    Comparison.namesBehind_succ, hends]
  simp only [hpoint, Bool.false_eq_true, if_false]
  rfl

/-- A member with a type of one word, from its name on. -/
theorem yields_typedMember {w : String} {name : Token} {V : MemberForm → Prop}
    {g : String} {p : Place} (hw : w ≠ "(") (hword : name.kind.isIdentifier = true)
    (hname : startsWord name.text = true) (hkeyword : name.text ∉ keywords)
    (hnext : ∀ rest, G rest → Ahead.text 0 (ts ++ rest) ∉ ["<", "."])
    (hk : ∀ returns, Yields n (do
      if ← ahead (Ahead.readsAny ["<", "("]) then method name.text returns
      else if ← ahead (Ahead.readsAny [Text.openBrace, "=>"]) then property name.text
      else if ← ahead (Ahead.readsAny ["=", ";", ",", "["]) then field name
      else fail .unexpectedInMember) G V ts) :
    Yields n typedMember G V (⟨.identifier false, w, g, p⟩ :: name :: ts) := by
  have hreads : ∀ w ∈ keywords, ∀ us, Ahead.reads w (name :: us) = false :=
    fun w hw us => reads_of_text_ne fun htext =>
      hkeyword ((show name.text = w from htext) ▸ hw)
  refine ((yields_wordType hw g p).verbatim (List.cons_ne_nil _ _)).bind (fun _ _ => hname)
    fun type _ => ?_
  refine .neg (fun rest _ => hreads "operator" (by decide) _) (.neg (fun rest _ =>
    hreads "this" (by decide) _) ?_)
  intro rest hn hrest
  obtain ⟨a, ha, hV⟩ := hk (type != "void") rest (by rw [List.length_cons] at hn; omega) hrest
  exact ⟨a, bind_eq_ok.mpr ⟨name, ts ++ rest, memberName_plain hword (hnext rest hrest), ha⟩,
    hV⟩

/-- What comes behind a member: neither a semicolon nor an initial value. -/
def EndsMember (rest : List Token) : Prop := Ahead.text 0 rest ∉ [";", "="]

theorem EndsMember.value (h : EndsMember ts) : Ahead.text 0 ts ≠ "=" :=
  fun heq => h (by rw [heq]; decide)

/-- A member that begins with a type of one word and a name has a type. -/
theorem memberForm_typed {owner w : String} {g : String} {p : Place} {name : Token}
    {V : MemberForm → Prop} (hw : w ∉ ["~", "event", "implicit", "explicit"])
    (hname : startsWord name.text = true)
    (h : Yields n typedMember G V (⟨.identifier false, w, g, p⟩ :: name :: ts)) :
    Yields n (memberForm owner) G V (⟨.identifier false, w, g, p⟩ :: name :: ts) := by
  have hround : name.text ≠ "(" := by
    rintro heq
    rw [heq] at hname
    cases hname
  have hne : ∀ v ∈ ["~", "event", "implicit", "explicit"], ∀ us,
      Ahead.reads v (⟨.identifier false, w, g, p⟩ :: us) = false :=
    fun v hv us => reads_eq_false (show w ∉ _ from hw) v hv
  refine .neg (fun _ _ => hne "~" (by decide) _) (.neg (fun _ _ => hne "event" (by decide) _)
    (.neg (fun rest _ => ?_) (.neg (fun rest _ => ?_) h)))
  · simp [Ahead.readsAny, hne]
  · show (_ && name.text == "(") = false
    rw [beq_eq_false_iff_ne.mpr hround, Bool.and_false]

section Printed

variable {owner : String}

/-- A method with its type is read as it is printed. -/
theorem yields_printedMethod {name : String} {ps : List Param} {b : Option (List String)}
    (hname : isName name = true) (hps : ps.all Param.isPrintable = true)
    (hb : isPrintableBody b = true) (h : Lines (MemberForm.method name ps b).lines ts) :
    Yields n (memberForm owner) (fun _ => True)
      (MemberForm.Agrees Eq (.method name ps b)) ts := by
  obtain ⟨g, p, _, rfl, hrest⟩ := Lines.word (k := .identifier false) (by decide) h
  obtain ⟨g', p', us, rfl, hus⟩ := Lines.name hname hrest
  obtain ⟨g'', p'', vs, rfl, -⟩ := Lines.word (k := .operator) (by decide) hus
  have hword := startsWord_of_isName hname
  obtain ⟨-, -, -, -, -, hkeyword⟩ := isName_iff.mp hname
  exact memberForm_typed (by decide) hword (yields_typedMember (by decide) rfl hword hkeyword
    (fun rest _ => by simp [Ahead.text]) fun returns =>
      .pos (fun rest _ => rfl) (yields_method hps hb hus))

/-- A printed constructor is one, since it has the name of its owner and a `(` behind it. -/
theorem yields_printedConstructor (howner : isName owner = true) {ps : List Param}
    {b : Option (List String)} (hps : ps.all Param.isPrintable = true)
    (hb : isPrintableBody b = true) (h : Lines (MemberForm.constructor owner ps b).lines ts) :
    Yields n (memberForm owner) (fun _ => True)
      (MemberForm.Agrees Eq (.constructor owner ps b)) ts := by
  have hread := yields_constructor (n := n) howner hps hb h
  obtain ⟨g, p, us, rfl, hus⟩ := Lines.name howner h
  obtain ⟨-, -, -, -, -, hkeyword⟩ := isName_iff.mp howner
  have hne : ∀ w, w ∈ keywords ∨ startsWord w = false → ∀ rest,
      Ahead.reads w (⟨.identifier false, owner, g, p⟩ :: us ++ rest) = false := by
    refine fun w hw rest => reads_of_text_ne fun htext => ?_
    obtain rfl : owner = w := htext
    exact hw.elim hkeyword fun hw => by simp [startsWord_of_isName howner] at hw
  refine .neg (fun rest _ => hne "~" (.inr (by decide)) rest) (.neg
    (fun rest _ => hne "event" (.inl (by decide)) rest) (.neg (fun rest _ => ?_)
    (.pos (fun rest _ => ?_) hread)))
  · rw [Ahead.readsAny, List.any_eq_false]
    rintro w hw
    have hmem : w ∈ keywords := by
      rcases List.mem_pair.mp hw with rfl | rfl <;> decide
    simp only [hne w (.inl hmem) rest, Bool.false_eq_true, not_false_eq_true]
  · obtain ⟨_, _, vs, rfl, -⟩ := Lines.word (k := .operator) (by decide) hus
    simp [Ahead.text, Ahead.isIdentifier, Kind.isIdentifier]

/-- A printed field is one, since a sign that may stand behind a variable
comes behind its name. -/
theorem yields_printedField {v : String} {vs : List String} (hv : isVariable v = true)
    (hvs : vs.all isVariable = true) (h : Lines (MemberForm.field (v :: vs)).lines ts) :
    Yields n (memberForm owner) (fun _ => True)
      (MemberForm.Agrees Eq (.field (v :: vs))) ts := by
  obtain ⟨g, p, _, rfl, hrest⟩ := Lines.word (k := .identifier false) (by decide) h
  rw [List.map_cons, commaLines_cons, List.flatMap_map] at hrest
  obtain ⟨us, ws, rfl, hline, hws⟩ := Lines.text hrest
  obtain ⟨name, us, rfl, hread⟩ := readsVariable_of_line hline hv
  have hword : startsWord name.text = true :=
    (hread.wellShaped name List.mem_cons_self).startsWord
      (Kind.isWord_of_isIdentifier hread.identifier)
  have hnext : ∀ rest, Ahead.readsAny ["=", ";", ",", "["] (us ++ ws ++ rest) = true := by
    intro rest
    rw [List.append_assoc]
    refine hread.reads_next ?_
    cases vs with
    | nil =>
      obtain ⟨_, _, _, rfl, -⟩ := Lines.word (k := .operator) (by decide) hws
      rfl
    | cons v vs =>
      obtain ⟨_, _, _, rfl, -⟩ := Lines.word (k := .operator) (by decide) hws
      rfl
  have hother :
      ∀ rest, Ahead.text 0 (us ++ ws ++ rest) ∉ ["<", ".", "(", Text.openBrace, "=>"] := by
    intro rest hmem
    have hdisjoint :
        ∀ w ∈ ["=", ";", ",", "["], w ∉ ["<", ".", "(", Text.openBrace, "=>"] := by decide
    exact hdisjoint _ (text_of_readsAny (hnext rest)) hmem
  have hnone : ∀ rest ws', (∀ w ∈ ws', w ∈ ["<", ".", "(", Text.openBrace, "=>"]) →
      Ahead.readsAny ws' (us ++ ws ++ rest) = false := by
    intro rest ws' hws'
    rw [Bool.eq_false_iff]
    exact fun h => hother rest (hws' _ (text_of_readsAny h))
  have hname : ∀ w ∈ ["<", "."], w ∈ ["<", ".", "(", Text.openBrace, "=>"] := by decide
  exact memberForm_typed (by decide) hword
    (yields_typedMember (by decide) hread.identifier hword hread.name
      (fun rest _ hmem => hother rest (hname _ hmem)) fun returns =>
    .neg (fun rest _ => hnone rest _ (by decide))
      (.neg (fun rest _ => hnone rest _ (by decide))
    (.pos (fun rest _ => hnext rest) (yields_field hread hvs hws))))

/-- A property is read as it is printed, unless a value comes behind it. -/
theorem yields_printedProperty {name : String} (hname : isName name = true)
    {getter setter : Bool} (h : Lines (MemberForm.property name getter setter).lines ts) :
    Yields n (memberForm owner) (fun rest => Ahead.text 0 rest ≠ "=")
      (MemberForm.Agrees Eq (.property name getter setter)) ts := by
  obtain ⟨g, p, _, rfl, hrest⟩ := Lines.word (k := .identifier false) (by decide) h
  obtain ⟨g', p', us, rfl, hus⟩ := Lines.name hname hrest
  obtain ⟨g'', p'', vs, rfl, -⟩ := Lines.word (k := .operator) (by decide) hus
  have hword := startsWord_of_isName hname
  obtain ⟨-, -, -, -, -, hkeyword⟩ := isName_iff.mp hname
  exact memberForm_typed (by decide) hword (yields_typedMember (by decide) rfl hword hkeyword
    (fun rest _ => by simp [Ahead.text]) fun returns =>
      .neg (fun rest _ => rfl) (.pos (fun rest _ => rfl) (yields_property hus)))

/-- **A printed member is read back.** -/
theorem yields_memberForm (howner : isName owner = true) {f : MemberForm}
    (hf : f.isPrintable owner = true) (h : Lines f.lines ts) :
    Yields n (memberForm owner) EndsMember (f.Agrees Eq) ts := by
  cases f with
  | method name ps b =>
    obtain ⟨⟨hname, hps⟩, hb⟩ : (isName name = true ∧ ps.all Param.isPrintable = true) ∧
        isPrintableBody b = true := by simpa [MemberForm.isPrintable] using hf
    exact (yields_printedMethod hname hps hb h).mono (fun _ _ => trivial) fun _ h => h
  | constructor name ps b =>
    obtain ⟨⟨rfl, hps⟩, hb⟩ : (name = owner ∧ ps.all Param.isPrintable = true) ∧
        isPrintableBody b = true := by simpa [MemberForm.isPrintable] using hf
    exact (yields_printedConstructor howner hps hb h).mono (fun _ _ => trivial) fun _ h => h
  | field vs =>
    obtain ⟨hne, hvs⟩ : vs ≠ [] ∧ vs.all isVariable = true := by
      simpa [MemberForm.isPrintable] using hf
    obtain ⟨v, vs, rfl⟩ := List.exists_cons_of_ne_nil hne
    obtain ⟨hv, hvs⟩ : isVariable v = true ∧ vs.all isVariable = true := by simpa using hvs
    exact (yields_printedField hv hvs h).mono (fun _ _ => trivial) fun _ h => h
  | property name getter setter =>
    exact (yields_printedProperty hf h).mono (fun _ hrest => hrest.value) fun _ h => h
  | other kind => cases hf
  | unknown => cases hf

end Printed

end Parser

end SharpScript
