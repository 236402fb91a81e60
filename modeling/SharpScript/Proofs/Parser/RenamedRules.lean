import SharpScript.Proofs.Parser.Reading
import SharpScript.Proofs.Parser.Renaming
import SharpScript.Proofs.Tree.Renaming

/-! # The rules of the grammar on renamed tokens

Every rule does the same with tokens and with the same tokens renamed.

## Main Results

* `Renaming.follows_statement`: statements;
* `Renaming.follows_memberForm`: members that are no types;
* `Renaming.follows_compilationUnit`: **all that a source text declares**.
-/

open SharpScript.Parser

namespace SharpScript.Renaming

variable {ρ : Renaming} {t u : Token} {ts us : List Token}

/-! ## Brackets -/

/-- Brackets are signs, and no sign is renamed. -/
theorem Takes.opened?_eq (h : ρ.Takes t u) : Bracket.opened? t = Bracket.opened? u := by
  simp only [Bracket.opened?, h.isOperator_eq]

theorem Takes.closed?_eq (h : ρ.Takes t u) : Bracket.closed? t = Bracket.closed? u := by
  simp only [Bracket.closed?, h.isOperator_eq]

/-- A group ends at the same place, since no bracket is renamed. -/
theorem outcome_close (h : ρ.Tokens ts us) (stack : List Bracket) :
    ρ.Outcome Any ((Bracket.close stack ts).map ((), ·))
      ((Bracket.close stack us).map ((), ·)) := by
  induction ts generalizing us stack with
  | nil =>
    obtain rfl := h.eq_nil
    cases stack with
    | nil => exact .ok trivial h
    | cons b stack => exact .error _ h
  | cons t ts ih =>
    obtain ⟨u, us, rfl, htakes, htail⟩ := h.exists_cons
    cases stack with
    | nil => exact .ok trivial h
    | cons b stack =>
      rw [Bracket.close, Bracket.close, ← htakes.opened?_eq, ← htakes.closed?_eq]
      split
      · exact ih htail _
      · split
        · exact ih htail _
        · split
          · exact ih htail _
          · exact .error _ h

/-- Type arguments end at the same place: what counts there are signs. -/
theorem outcome_closeAngles (h : ρ.Tokens ts us) (depth : Nat) :
    ρ.Outcome Any ((closeAngles depth ts).map ((), ·))
      ((closeAngles depth us).map ((), ·)) := by
  induction ts generalizing us depth with
  | nil =>
    obtain rfl := h.eq_nil
    cases depth with
    | zero => exact .ok trivial h
    | succ depth => exact .error _ h
  | cons t ts ih =>
    obtain ⟨u, us, rfl, htakes, htail⟩ := h.exists_cons
    cases depth with
    | zero => exact .ok trivial h
    | succ depth =>
      rw [closeAngles, closeAngles, ← htakes.reads_eq (v := "<") (by decide),
        ← htakes.reads_eq (v := ">") (by decide)]
      split
      · exact ih htail _
      · split
        · exact ih htail _
        · exact ih htail _

/-- Groups of brackets are passed over alike. -/
theorem follows_group : ρ.Follows Any group group := by
  intro ts us h
  cases ts with
  | nil =>
    obtain rfl := h.eq_nil
    exact .error _ h
  | cons t ts =>
    obtain ⟨u, us, rfl, htakes, htail⟩ := h.exists_cons
    rw [group, group, ← htakes.opened?_eq]
    split
    · exact outcome_close htail _
    · exact .error _ h

/-- One chunk is passed over alike: whether a token is a bracket does not depend on names. -/
theorem follows_chunk : ρ.Follows Any chunk chunk := by
  intro ts us h
  cases ts with
  | nil =>
    obtain rfl := h.eq_nil
    exact .error _ h
  | cons t ts =>
    obtain ⟨u, us, rfl, htakes, htail⟩ := h.exists_cons
    rw [chunk, chunk, ← htakes.opened?_eq, ← htakes.closed?_eq]
    split
    · exact follows_group _ _ h
    · split
      · exact .error _ h
      · exact .ok trivial htail

/-- Chunks up to a place, if the test for the place does not look at names. -/
theorem follows_skipTo {stop : List Token → Bool} (hstop : ρ.Steady stop) :
    ρ.Follows Any (skipTo stop) (skipTo stop) :=
  .repeatWhile (.ite hstop.follows (follows_pure rfl)
    (follows_chunk.next (follows_pure rfl)))

theorem follows_typeArguments : ρ.Follows Any typeArguments typeArguments :=
  (follows_expect (by decide)).bind fun _ _ _ _ _ h => outcome_closeAngles h 1

/-! ## What is passed over -/

theorem follows_typePart : ρ.Follows Eq typePart typePart := by
  refine .ite (steady_readsAny (by decide)).follows (follows_advance.next ?_) ?_
  · refine .ite (steady_isWord 0).follows ?_ ?_
    · exact follows_advance.next (follows_pure rfl)
    · exact (follows_fail (V := Any) _).next (follows_pure rfl)
  · refine .ite (follows_isAt (by decide)) ?_ (follows_pure rfl)
    exact follows_typeArguments.next (follows_pure rfl)

theorem follows_typeSuffix : ρ.Follows Eq typeSuffix typeSuffix := by
  refine .ite (steady_readsAny (by decide)).follows ?_ ?_
  · exact follows_advance.next (follows_pure rfl)
  · refine .ite ((steady_reads (by decide)).and (steady_textAny 1 (by decide))).follows ?_
      (follows_pure rfl)
    exact follows_group.next (follows_pure rfl)

/-- Types are passed over alike.  Their words may be renamed, their signs are not. -/
theorem follows_typeReference : ρ.Follows Any typeReference typeReference := by
  have hsuffixes : ρ.Follows Any (repeatWhile typeSuffix) (repeatWhile typeSuffix) :=
    .repeatWhile follows_typeSuffix
  refine .ite (follows_isAt (by decide)) (follows_group.next hsuffixes) ?_
  refine .ite (steady_isWord 0).follows ?_ ?_
  · exact follows_advance.next ((Follows.repeatWhile follows_typePart).next hsuffixes)
  · exact (follows_fail (V := Any) _).next
      ((Follows.repeatWhile follows_typePart).next hsuffixes)

/-- Expressions are passed over up to the same stop sign. -/
theorem follows_expression (stops : List String) :
    ρ.Follows Any (expression stops) (expression stops) :=
  .ite (steady_isOperator stops).follows (follows_fail _)
    (follows_skipTo (steady_isOperator stops))

theorem steady_startsVariable : ρ.Steady startsVariable :=
  (steady_isIdentifier 0).and (steady_textAny 1 (by decide))

theorem steady_endsInitializer : ρ.Steady endsInitializer :=
  (steady_isOperator _).or
    ((steady_isOperator _).and fun _ _ h => steady_startsVariable _ _ h.tail)

/-- The value of a variable ends at the same comma or semicolon. -/
theorem follows_initializer : ρ.Follows Any initializer initializer :=
  .ite steady_endsInitializer.follows (follows_fail _) (follows_skipTo steady_endsInitializer)

/-- The rest of a head, up to words that are never renamed. -/
theorem follows_restOfHead {stops : List String} (hstops : stops ⊆ ruleWords) :
    ρ.Follows Any (restOfHead stops) (restOfHead stops) := by
  refine .repeatWhile (.ite (steady_readsAny hstops).follows (follows_pure rfl) ?_)
  refine .ite follows_atEnd (follows_fail _) (.ite (follows_isAt (by decide)) ?_ ?_)
  · exact follows_group.next (follows_pure rfl)
  · exact follows_advance.next (follows_pure rfl)

theorem follows_constraints : ρ.Follows Any constraints constraints :=
  .ite (follows_isAt (by decide)) (follows_restOfHead (by decide)) (follows_pure trivial)

/-- A member with no counterpart is passed over alike. -/
theorem follows_restOfMember : ρ.Follows Any restOfMember restOfMember := by
  refine .loop (S := Eq) ?_ rfl
  rintro assigned _ rfl
  refine .ite (steady_isOperator _).follows ?_ (.ite (steady_isOperator _).follows ?_ ?_)
  · exact follows_advance.next (follows_pure (.done trivial))
  · refine follows_group.next ?_
    cases assigned with
    | true => exact follows_pure (.again rfl)
    | false => exact (follows_accept (by decide)).next (follows_pure (.done trivial))
  · refine (steady_isOperator _).follows.bind ?_
    rintro assigns _ rfl
    exact follows_chunk.next (follows_pure (.again rfl))

/-! ## Statements -/

/-- Whether a token is a modifier of a local function, which is a keyword or one of the words
that rules look for. -/
theorem Takes.localModifier_eq (h : ρ.Takes t u) :
    (localModifiers.contains t.text && !t.kind.isLiteral) =
      (localModifiers.contains u.text && !u.kind.isLiteral) := by
  rw [h.word.contains_eq (by decide), h.isLiteral_eq]

/-- The words that tell a local function apart are not renamed, so it begins alike. -/
theorem steady_mayBeFunction : ρ.Steady mayBeFunction := by
  intro ts us h
  induction ts generalizing us with
  | nil => rw [h.eq_nil]
  | cons t ts ih =>
    obtain ⟨u, us, rfl, htakes, htail⟩ := h.exists_cons
    rw [mayBeFunction_cons, mayBeFunction_cons, htakes.localModifier_eq,
      htakes.isIdentifier_eq,
      htakes.word.contains_eq (show ["yield", "await"] ⊆ ruleWords by decide), ih us htail]

/-- One round of a simple statement, after which the same has been seen. -/
theorem follows_statementChunk (mayDeclare : Bool) (seen : Seen) :
    ρ.Follows (Round Eq Any) (statementChunk mayDeclare seen)
      (statementChunk mayDeclare seen) := by
  refine .ite (steady_isOperator _).follows ?_ (.ite (steady_isOperator _).follows ?_ ?_)
  · exact follows_advance.next (follows_pure (.done trivial))
  · refine follows_group.next ?_
    split
    · exact follows_pure (.done trivial)
    · exact follows_pure (.again rfl)
  · refine (steady_isOperator _).follows.bind ?_
    rintro assigns _ rfl
    refine ((steady_isIdentifier 0).and (steady_text 0 (by decide))).follows.bind ?_
    rintro constrains _ rfl
    refine (steady_isOperator _).follows.bind ?_
    rintro parenthesizes _ rfl
    exact follows_chunk.next (follows_pure (.again rfl))

/-- A statement without a word of its own ends at the same place. -/
theorem follows_simpleStatement : ρ.Follows Any simpleStatement simpleStatement := by
  refine steady_mayBeFunction.follows.bind ?_
  rintro mayDeclare _ rfl
  refine .loop (S := Eq) ?_ rfl
  rintro seen _ rfl
  exact follows_statementChunk mayDeclare seen

theorem follows_catchClause : ρ.Follows Eq catchClause catchClause := by
  refine .ite (follows_accept (by decide)) ?_ (follows_pure rfl)
  refine .optional (follows_isAt (by decide)) follows_group ?_
  refine .optional (follows_accept (by decide)) follows_group ?_
  exact follows_group.next (follows_pure rfl)

/-- A label stays one: an identifier is renamed to an identifier. -/
theorem steady_startsLabel : ρ.Steady startsLabel := by
  intro ts us h
  match ts with
  | [] => rw [h.eq_nil]
  | [t] =>
    obtain ⟨u, us, rfl, -, htail⟩ := h.exists_cons
    rw [htail.eq_nil]
    rfl
  | t :: t' :: ts =>
    obtain ⟨u, us, rfl, htakes, htail⟩ := h.exists_cons
    obtain ⟨u', us, rfl, htakes', -⟩ := htail.exists_cons
    exact congrArg₂ and htakes.isIdentifier_eq (htakes'.isOperator_eq ":")

theorem steady_startsNested : ρ.Steady startsNested :=
  (steady_readsAny (by decide)).or ((steady_reads (by decide)).and (steady_text 1 (by decide)))

theorem steady_startsMarkedBlock : ρ.Steady startsMarkedBlock :=
  (steady_readsAny (by decide)).and (steady_text 1 (by decide))

/-- The statements with a word of their own, given those that stand in them. -/
theorem follows_statementForm {p q : Parser Unit} (h : ρ.Follows Any p q) :
    ρ.Follows Any (statementForm p) (statementForm q) := by
  refine .ite (follows_accept (by decide)) ?_ (.ite steady_startsNested.follows ?_
    (.ite (follows_accept (by decide)) ?_ (.ite (follows_accept (by decide)) ?_
      (.ite ((steady_reads (by decide)).and (steady_text 1 (by decide))).follows ?_
        (.ite steady_startsMarkedBlock.follows ?_ follows_simpleStatement)))))
  · refine follows_group.next <| h.next ?_
    exact .ite (follows_accept (by decide)) h (follows_pure trivial)
  · exact follows_advance.next <| follows_group.next h
  · refine h.next <| (follows_expect (by decide)).next ?_
    exact follows_group.next (follows_expect (by decide))
  · refine follows_group.next <| (Follows.repeatWhile follows_catchClause).next ?_
    exact .ite (follows_accept (by decide)) follows_group (follows_pure trivial)
  · exact follows_advance.next <| follows_group.next follows_group
  · exact follows_advance.next follows_group

/-- One statement, given those that stand in it. -/
theorem follows_statementStep {p q : Parser Unit} (h : ρ.Follows Any p q) :
    ρ.Follows Any (statementStep p) (statementStep q) := by
  refine .ite (follows_isAt (by decide)) follows_group (.ite (follows_isAt (by decide))
    follows_advance (.ite steady_startsLabel.follows ?_
      (.ite ((steady_reads (by decide)).and (steady_textAny 1 (by decide))).follows ?_
        (follows_statementForm h))))
  · exact follows_advance.next <| follows_advance.next h
  · exact follows_advance.next (follows_statementForm h)

/-- **Statements are passed over alike.** -/
theorem follows_statement : ρ.Follows Any statement statement :=
  .fix (I := Eq) (fun _ _ hpq _ _ _ => follows_statementStep (hpq () () rfl)) rfl

/-- The statements of a block are the same pieces of the two texts. -/
theorem follows_block : ρ.Follows (List.Forall₂ ρ.Slices) block block := by
  refine (follows_expect (by decide)).next ?_
  refine (Follows.gatherList (V := ρ.Slices) ?_).bind fun _ _ hstatements => ?_
  · refine .ite (follows_isAt (by decide)) (follows_pure .none)
      (.ite follows_atEnd (follows_fail _) ?_)
    exact follows_statement.verbatim.bind fun _ _ hs => follows_pure (.some (.cons hs .nil))
  · exact (follows_expect (by decide)).next (follows_pure hstatements)

/-! ## Annotations and modifiers -/

/-- The arguments of an annotation are the same pieces of the two texts. -/
theorem follows_attributeArguments :
    ρ.Follows (List.Forall₂ ρ.Slices) attributeArguments attributeArguments := by
  refine (follows_expect (by decide)).next ?_
  refine .ite (follows_accept (by decide)) (follows_pure .nil) ?_
  have hargument := (follows_expression (ρ := ρ) [",", ")"]).verbatim.map
    (f := Text.trim) (g := Text.trim) (W := ρ.Slices) fun _ _ h => h.trim
  refine (hargument.collect (follows_accept (by decide))).bind fun _ _ hargs => ?_
  exact (follows_expect (by decide)).next (follows_pure hargs)

/-- An annotation is read alike, up to what is renamed in its name and its arguments. -/
theorem follows_oneAttribute :
    ρ.Follows (fun a b => a.Agrees ρ.Slices ρ.Slices b) oneAttribute oneAttribute := by
  refine follows_here.bind fun _ _ _ => follows_typeReference.verbatim.bind fun _ _ hname => ?_
  refine .ite (follows_isAt (by decide)) ?_ ?_
  · exact follows_attributeArguments.bind fun _ _ hargs => follows_pure ⟨hname, hargs⟩
  · exact follows_pure ⟨hname, .nil⟩

/-- What a list of annotations is addressed to, which is one of two words or does not matter.
-/
theorem follows_attributeTarget : ρ.Follows ρ.Word attributeTarget attributeTarget := by
  refine (follows_ahead (V := Option.Rel ρ.Word) fun ts us h => ?_).bind ?_
  · rw [steady_isWord 0 ts us h, (word_text 1 h).beq_eq (v := ":") (by decide)]
    split
    · exact .some (word_text 0 h)
    · exact .none
  · rintro _ _ (⟨hw⟩ | _)
    · exact follows_advance.next <| follows_advance.next (follows_pure hw)
    · exact follows_pure (.inl rfl)

/-- A list of annotations, which is left out if it is addressed to the assembly. -/
theorem follows_attributeList :
    ρ.Follows (AnnotationsAgree ρ.Slices ρ.Slices) attributeList attributeList := by
  refine (follows_expect (by decide)).next <| follows_attributeTarget.bind ?_
  intro target target' htarget
  refine (follows_oneAttribute.collect (follows_commaBefore (by decide))).bind
    fun _ _ hlist => ?_
  refine (follows_expect (by decide)).next <| follows_pure ?_
  rw [htarget.contains_eq (show ["assembly", "module"] ⊆ ruleWords by decide)]
  split
  · exact .nil
  · exact hlist

/-- All lists of annotations before a declaration. -/
theorem follows_attributeLists :
    ρ.Follows (AnnotationsAgree ρ.Slices ρ.Slices) attributeLists attributeLists := by
  refine .gatherList (.ite (follows_isAt (by decide)) ?_ (follows_pure .none))
  exact follows_attributeList.bind fun _ _ hlist => follows_pure (.some hlist)

/-- The next modifier is the same: modifiers are keywords or words that rules look for. -/
theorem steady_modifier? : ρ.Steady modifier? := by
  intro ts us h
  cases ts with
  | nil => rw [h.eq_nil]
  | cons t ts =>
    obtain ⟨u, us, rfl, htakes, htail⟩ := h.exists_cons
    have hcontextual : contextualWords ⊆ ruleWords := by decide
    rw [modifier?, modifier?, htakes.guarded_eq (k := .keyword) rfl modifierWords.contains,
      htakes.isIdentifier_eq, htakes.word.contains_eq hcontextual, steady_isWord 0 ts us htail]
    rcases htakes.cases with ⟨-, htext, -⟩ | ⟨-, -, hkind, hnew⟩
    · rw [htext]
    · have hcontains : contextualWords.contains ρ.new = false := by
        rw [← Bool.not_eq_true, List.contains_iff_mem]
        exact fun hmem => ρ.new_not_mem_ruleWords (hcontextual hmem)
      rw [hkind, hnew, hcontains]
      rfl

/-- All modifiers are the same. -/
theorem follows_modifiers : ρ.Follows Eq modifiers modifiers := by
  refine .gather (.bind steady_modifier?.follows ?_) rfl ?_
  · rintro w _ rfl
    cases w with
    | some w => exact follows_advance.next (follows_pure (.some rfl))
    | none => exact follows_pure .none
  · rintro a _ b _ rfl rfl
    rfl

/-- What stands before a declaration is read alike. -/
theorem follows_lead : ρ.Follows (Lead.Agrees ρ.Slices ρ.Slices) lead lead := by
  refine follows_here.bind fun _ _ _ => follows_attributeLists.bind fun _ _ hannotations => ?_
  exact follows_modifiers.bind fun _ _ hmodifiers => follows_pure ⟨hannotations, hmodifiers⟩

/-! ## Members -/

variable (ρ) in
/-- Corresponding parameters. -/
def Params (p q : Param) : Prop := (p.rename ρ.word).Agrees ρ.Slices q

variable (ρ) in
/-- Corresponding forms of members. -/
def Forms (f g : MemberForm) : Prop := (f.rename ρ.word).Agrees ρ.Slices g

/-- Words before the type of a parameter are told from the type alike. -/
theorem steady_startsParameterModifier : ρ.Steady startsParameterModifier := by
  refine .or (fun ts us h => ?_) ((steady_reads (by decide)).and (steady_isWord 1))
  cases ts with
  | nil => rw [h.eq_nil]
  | cons t ts =>
    obtain ⟨u, us, rfl, htakes, -⟩ := h.exists_cons
    change (!t.kind.isIdentifier && parameterWords.contains t.text) =
      (!u.kind.isIdentifier && parameterWords.contains u.text)
    rcases htakes.cases with ⟨hkind, htext, -⟩ | ⟨hkind, -, hkind', -⟩
    · rw [hkind, htext]
    · rw [hkind, hkind']
      rfl

/-- A parameter is read alike, and its name may be the one that is renamed. -/
theorem follows_parameter : ρ.Follows ρ.Params parameter parameter := by
  refine follows_attributeLists.next <| follows_here.bind fun _ _ _ => ?_
  refine (Follows.repeatWhile (.ite steady_startsParameterModifier.follows
    (follows_advance.next (follows_pure rfl)) (follows_pure rfl))).next ?_
  refine follows_typeReference.next <| follows_identifier.bind fun _ _ hname => ?_
  refine .ite (follows_accept (by decide)) ?_ ?_
  · exact (follows_expression _).verbatim.bind fun _ _ hs =>
      follows_pure ⟨hname.text_eq.symm, .some hs⟩
  · exact follows_pure ⟨hname.text_eq.symm, .none⟩

theorem follows_parameters : ρ.Follows (List.Forall₂ ρ.Params) parameters parameters := by
  refine (follows_expect (by decide)).next ?_
  refine .ite (follows_accept (by decide)) (follows_pure .nil) ?_
  refine (follows_parameter.collect (follows_accept (by decide))).bind fun _ _ hparams => ?_
  exact (follows_expect (by decide)).next (follows_pure hparams)

/-- A body is read alike: its statements are the same pieces, behind `return` if it is one
expression. -/
theorem follows_body (returns : Bool) :
    ρ.Follows (Option.Rel (List.Forall₂ ρ.Slices)) (body returns) (body returns) := by
  refine .ite (follows_isAt (by decide)) ?_ (.ite (follows_accept (by decide)) ?_ ?_)
  · exact follows_block.bind fun _ _ hblock => follows_pure (.some hblock)
  · refine (follows_expression _).verbatim.bind fun _ _ hs => ?_
    exact (follows_expect (by decide)).next <| follows_pure
      (.some (.cons (hs.statement returns) .nil))
  · exact (follows_expect (by decide)).next (follows_pure .none)

/-- One part of a qualified name, which may be renamed. -/
theorem follows_nameRound {name name' : Token} (hname : ρ.Identifiers name name') :
    ρ.Follows (Round ρ.Identifiers ρ.Identifiers) (nameRound name) (nameRound name') := by
  intro ts us h
  refine Follows.optional (follows_isAt (by decide)) follows_typeArguments ?_ ts us h
  refine .ite (follows_accept (by decide)) (.ite (follows_isAt (by decide)) ?_ ?_) ?_
  · exact follows_pure (.done hname)
  · exact follows_identifier.bind fun _ _ hnext => follows_pure (.again hnext)
  · exact fun _ _ _ => .ok (.done hname) h

/-- The last part of a qualified name is what names the member. -/
theorem follows_memberName : ρ.Follows ρ.Identifiers memberName memberName :=
  follows_identifier.bind fun _ _ hname => .loop (fun _ _ => follows_nameRound) hname

/-- What is said of the parameters of a member is said of its parameters renamed. -/
theorem params_rename {ps qs : List Param} (h : List.Forall₂ ρ.Params ps qs) :
    List.Forall₂ (Param.Agrees ρ.Slices) (ps.map (Param.rename ρ.word)) qs :=
  List.forall₂_map_left_iff.mpr h

/-- A method behind its name. -/
theorem follows_method {name name' : Token} (hname : ρ.Identifiers name name')
    (returns : Bool) :
    ρ.Follows ρ.Forms (method name.text returns) (method name'.text returns) := by
  refine .optional (follows_isAt (by decide)) follows_typeArguments ?_
  refine follows_parameters.bind fun _ _ hparams => follows_constraints.next ?_
  refine (follows_body returns).bind fun _ _ hbody => follows_pure ?_
  rw [hname.text_eq]
  exact .method _ (params_rename hparams) hbody

/-- A constructor, whose name is the name of its class. -/
theorem follows_constructor : ρ.Follows ρ.Forms constructor constructor := by
  refine follows_identifier.bind fun name name' hname => ?_
  refine follows_parameters.bind fun params params' hparams => ?_
  have hbody : ρ.Follows ρ.Forms
      (body false >>= fun b => pure (.constructor name.text params b))
      (body false >>= fun b => pure (.constructor name'.text params' b)) := by
    refine (follows_body false).bind fun _ _ hbody => follows_pure ?_
    rw [hname.text_eq]
    exact .constructor _ (params_rename hparams) hbody
  refine .ite (follows_accept (by decide)) (follows_advance.next ?_) hbody
  exact .optional (follows_isAt (by decide)) follows_group hbody

theorem follows_accessorBody : ρ.Follows Any accessorBody accessorBody := by
  refine .ite (follows_isAt (by decide)) follows_group (.ite (follows_accept (by decide)) ?_
    (follows_expect (by decide)))
  exact (follows_expression _).next (follows_expect (by decide))

/-- An accessor, of which only the word before it is kept. -/
theorem follows_accessor : ρ.Follows ρ.Word accessor accessor := by
  refine follows_attributeLists.next <| follows_modifiers.next ?_
  refine .ite ((steady_isIdentifier 0).and (steady_textAny 0 (by decide)).not).follows
    (follows_fail _) ?_
  refine follows_identifier.bind fun _ _ hword => follows_accessorBody.next ?_
  exact follows_pure hword.1.word

/-- Which accessors there are does not change. -/
theorem contains_words {ws ws' : List String} (h : List.Forall₂ ρ.Word ws ws') {v : String}
    (hv : v ∈ ruleWords) : ws.contains v = ws'.contains v := by
  induction h with
  | nil => rfl
  | cons hhead _ ih =>
    rw [List.contains_cons, List.contains_cons, ih, BEq.comm, hhead.beq_eq hv, BEq.comm]

/-- A property behind its name has the same accessors. -/
theorem follows_property {name name' : Token} (hname : ρ.Identifiers name name') :
    ρ.Follows ρ.Forms (property name.text) (property name'.text) := by
  have hform : ∀ getter setter, ρ.Forms (.property name.text getter setter)
      (.property name'.text getter setter) := by
    intro getter setter
    rw [hname.text_eq]
    exact .property _ getter setter
  refine .ite (follows_accept (by decide)) ?_ ?_
  · refine (follows_expression _).next <| (follows_expect (by decide)).next ?_
    exact follows_pure (hform true false)
  · refine (follows_expect (by decide)).next ?_
    refine (Follows.gatherList (V := ρ.Word)
      (.ite (follows_isAt (by decide)) (follows_pure .none)
        (follows_accessor.bind fun _ _ hw => follows_pure (.some (.cons hw .nil))))).bind ?_
    intro words words' hwords
    refine (follows_expect (by decide)).next ?_
    have hend : ρ.Forms (.property name.text (words.contains "get") (words.contains "set"))
        (.property name'.text (words'.contains "get") (words'.contains "set")) := by
      rw [contains_words hwords (v := "get") (by decide),
        contains_words hwords (v := "set") (by decide)]
      exact hform _ _
    refine .ite (follows_accept (by decide)) ?_ (follows_pure hend)
    refine (follows_expression _).next <| (follows_expect (by decide)).next ?_
    exact follows_pure hend

/-! ## Fields -/

/-- A variable of a field, right behind its name. -/
theorem outcome_fieldVariable (h : ρ.Tokens (t :: ts) (u :: us)) :
    ρ.Outcome ρ.Slices (fieldVariable t ts) (fieldVariable u us) := by
  have hrest : ρ.Follows Any
      (do if ← isAt "[" then group
          if ← accept "=" then initializer)
      (do if ← isAt "[" then group
          if ← accept "=" then initializer) := by
    refine .optional (follows_isAt (by decide)) follows_group ?_
    exact .ite (follows_accept (by decide)) follows_initializer (follows_pure trivial)
  refine (hrest.consumed_at (h.drop 1)).bind ?_
  rintro ⟨_, _⟩ ⟨_, _⟩ mid mid' ⟨-, n, rfl, rfl⟩ hmid - -
  exact .ok ((h.take (n + 1)).slices (List.cons_ne_nil _ _)) hmid

/-- A field from its name on.  Its variables are cut from the text, so they are read from
tokens that correspond. -/
theorem outcome_field (h : ρ.Tokens (t :: ts) (u :: us)) :
    ρ.Outcome ρ.Forms (field t ts) (field u us) := by
  have hmore : ρ.Follows (List.Forall₂ ρ.Slices)
      (gather do
        if ← accept "," then return some [← fieldVariable (← identifier)]
        else return none)
      (gather do
        if ← accept "," then return some [← fieldVariable (← identifier)]
        else return none) := by
    refine .gatherList (.ite (follows_accept (by decide)) ?_ (follows_pure .none))
    refine follows_identifier_bind fun t u ts us _ h => (outcome_fieldVariable h).bind ?_
    exact fun _ _ _ _ hs hmid _ _ => .ok (.some (.cons hs .nil)) hmid
  refine (outcome_fieldVariable h).bind fun first first' mid mid' hfirst hmid _ _ => ?_
  refine hmore.bind (fun rest rest' hrest => ?_) mid mid' hmid
  refine (follows_expect (by decide)).next <| follows_pure ?_
  exact .field (.cons hfirst hrest)

/-! ## The forms of members -/

/-- A member with no counterpart keeps its kind. -/
theorem follows_other (kind : String) :
    ρ.Follows ρ.Forms (restOfMember >>= fun _ => pure (.other kind))
      (restOfMember >>= fun _ => pure (.other kind)) :=
  follows_restOfMember.next (follows_pure (.other kind))

/-- What comes behind the name of a member that starts with a type. -/
def namedMember (type : String) (name : Token) : Parser MemberForm := do
  if ← ahead (Ahead.readsAny ["<", "("]) then method name.text (type != "void")
  else if ← ahead (Ahead.readsAny [Text.openBrace, "=>"]) then property name.text
  else if ← ahead (Ahead.readsAny ["=", ";", ",", "["]) then field name
  else fail .unexpectedInMember

/-- What stands behind a type and a name decides the form of a member: brackets, a body, an
arrow or none of them. -/
theorem outcome_namedMember {type type' : String} (htype : ρ.Slices type type')
    (hname : ρ.Identifiers t u) (h : ρ.Tokens ts us)
    (hlast : ρ.Tokens (t :: ts) (u :: us) ∨ Ahead.reads "this" ts = true) :
    ρ.Outcome ρ.Forms (namedMember type t ts) (namedMember type' u us) := by
  have hvoid : (type != "void") = (type' != "void") := by
    rw [Bool.eq_iff_iff, bne_iff_ne, bne_iff_ne, not_iff_not]
    exact htype.eq_void_iff
  refine (steady_readsAny (by decide)).outcome h (fun _ => ?_) fun _ => ?_
  · rw [hvoid]
    exact follows_method hname _ ts us h
  refine (steady_readsAny (by decide)).outcome h (fun _ => follows_property hname ts us h)
    fun _ => ?_
  refine (steady_readsAny (by decide)).outcome h (fun hsign => ?_) fun _ => .error _ h
  rcases hlast with hlast | hthis
  · exact outcome_field hlast
  · -- What comes next is none of the signs behind a field if it is `this`.
    obtain ⟨w, hw, hread⟩ := List.any_eq_true.mp hsign
    have hne : ∀ w ∈ ["=", ";", ",", "["], "this" ≠ w := by decide
    rw [reads_unique hthis (hne w hw) (by decide)] at hread
    cases hread

/-- A member with a type before its name. -/
theorem follows_typedMember : ρ.Follows ρ.Forms typedMember typedMember := by
  refine follows_typeReference.verbatim.bind fun type type' htype => ?_
  refine .ite (follows_isAt (by decide)) (follows_other "operator") ?_
  refine .ite (follows_isAt (by decide)) (follows_other "indexer") ?_
  intro ts us h
  refine (follows_memberName ts us h).bind fun t u mid mid' hname hmid hrun hrun' => ?_
  refine outcome_namedMember htype hname hmid ?_
  rcases (nameRead_memberName h.lexed hrun).last with ⟨-, hlast⟩ | hthis
  · rcases (nameRead_memberName h.lexed' hrun').last with ⟨-, hlast'⟩ | hthis
    · exact .inl ⟨.cons hname.1 hmid.takes, hlast.lexed h.lexed, hlast'.lexed h.lexed'⟩
    · exact .inr ((steady_reads (by decide) mid mid' hmid).trans hthis)
  · exact .inr hthis

variable (ρ) in
/-- A name that comes from an identifier, and the name that it is renamed to. -/
structure Names (a b : String) : Prop where
  eq : b = ρ.word a
  fresh : a ≠ ρ.new
  plain : '.' ∉ a.toList

/-- Identifiers that correspond have names that correspond. -/
theorem Identifiers.names (h : ρ.Identifiers t u) : ρ.Names t.text u.text where
  eq := h.text_eq
  fresh := h.1.fresh
  plain := by
    obtain ⟨c, v, hchars, hc, hv⟩ := h.1.shaped.word_text (Kind.isWord_of_isIdentifier h.2)
    rw [hchars]
    intro hmem
    rcases List.mem_cons.mp hmem with rfl | hmem
    · exact absurd hc (by decide)
    · exact absurd (hv _ hmem) (by decide)

/-- Names stay different. -/
theorem Names.eq_iff {a b a' b' : String} (h : ρ.Names a b) (h' : ρ.Names a' b') :
    a = a' ↔ b = b' := by
  rw [h.eq, h'.eq]
  constructor
  · exact congrArg ρ.word
  · unfold Renaming.word
    intro heq
    split at heq
    · split at heq
      · simp_all
      · exact absurd heq.symm h'.fresh
    · split at heq
      · exact absurd heq h.fresh
      · exact heq

/-- A constructor is told by the name of its class, which is renamed together with it. -/
theorem steady_startsConstructor {owner owner' : String} (howner : ρ.Names owner owner')
    (h : ρ.Tokens ts us) :
    (Ahead.isIdentifier 0 ts && Ahead.text 0 ts == owner && Ahead.text 1 ts == "(") =
      (Ahead.isIdentifier 0 us && Ahead.text 0 us == owner' && Ahead.text 1 us == "(") := by
  rw [(word_text 1 h).beq_eq (v := "(") (by decide)]
  congr 1
  cases ts with
  | nil =>
    obtain rfl := h.eq_nil
    rfl
  | cons t ts =>
    obtain ⟨u, us, rfl, htakes, -⟩ := h.exists_cons
    change (t.kind.isIdentifier && t.text == owner) = (u.kind.isIdentifier && u.text == owner')
    rw [← htakes.isIdentifier_eq]
    cases hident : t.kind.isIdentifier with
    | false => rfl
    | true =>
      have hname : ρ.Names t.text u.text := Identifiers.names ⟨htakes, hident⟩
      rw [Bool.true_and, Bool.true_and, Bool.eq_iff_iff, beq_iff_eq, beq_iff_eq]
      exact hname.eq_iff howner

/-- **Members that are no types are read alike**, given that their classes have corresponding
names. -/
theorem follows_memberForm {owner owner' : String} (howner : ρ.Names owner owner') :
    ρ.Follows ρ.Forms (memberForm owner) (memberForm owner') := by
  refine .ite (follows_isAt (by decide)) (follows_other "destructor") ?_
  refine .ite (follows_isAt (by decide)) (follows_other "event") ?_
  refine .ite (steady_readsAny (by decide)).follows (follows_other "conversion") ?_
  refine .ite ?_ follows_constructor follows_typedMember
  exact fun ts us h => .ok (steady_startsConstructor howner h) h

/-! ## Types -/

variable (ρ) in
/-- Corresponding declarations. -/
def Items (i j : Item) : Prop := Item.Agrees ρ.Slices ρ.Slices (i.rename ρ.word) j

variable (ρ) in
/-- Corresponding lists of declarations. -/
def ItemLists (is js : List Item) : Prop :=
  ItemsAgree ρ.Slices ρ.Slices (renameItems ρ.word is) js

theorem ItemLists.append {is is' js js' : List Item} (h : ρ.ItemLists is is')
    (h' : ρ.ItemLists js js') : ρ.ItemLists (is ++ js) (is' ++ js') := by
  unfold ItemLists
  rw [renameItems_append]
  exact ItemsAgree.append h h'

/-- The bases of a type are the same pieces of the two texts. -/
theorem follows_baseList : ρ.Follows (List.Forall₂ ρ.Slices) baseList baseList := by
  refine .ite (follows_accept (by decide)) (.collect ?_ (follows_accept (by decide)))
    (follows_pure .nil)
  have hbase := (follows_typeReference (ρ := ρ)).verbatim.map
    (f := Text.trim) (g := Text.trim) (W := ρ.Slices) fun _ _ h => h.trim
  exact hbase.bind fun _ _ hs => .optional (follows_isAt (by decide)) follows_group
    (follows_pure hs)

/-- A `;` that may come next is passed over at the end of a rule. -/
theorem follows_end {α : Type} {V : α → α → Prop} {a b : α} (h : V a b) :
    ρ.Follows V (accept ";" >>= fun _ => pure a) (accept ";" >>= fun _ => pure b) :=
  (follows_accept (by decide)).next (follows_pure h)

section Types

variable {member member' : String → Parser Item}
  (hmember : ∀ a b, ρ.Names a b → ρ.Follows ρ.Items (member a) (member' b))
include hmember

/-- What stands between the braces of a type, given how its members are read. -/
theorem follows_typeItems {name name' : String} (hname : ρ.Names name name') :
    ρ.Follows ρ.ItemLists
      (gather do
        if ← isAt Text.closeBrace then return none
        else if ← atEnd then fail (.expected (.word Text.closeBrace))
        else if ← accept ";" then return some []
        else return some [← member name])
      (gather do
        if ← isAt Text.closeBrace then return none
        else if ← atEnd then fail (.expected (.word Text.closeBrace))
        else if ← accept ";" then return some []
        else return some [← member' name']) := by
  refine .gather ?_ .nil .append
  refine .ite (follows_isAt (by decide)) (follows_pure .none)
    (.ite follows_atEnd (follows_fail _)
      (.ite (follows_accept (by decide)) (follows_pure (.some .nil)) ?_))
  exact (hmember _ _ hname).bind fun _ _ hitem => follows_pure (.some (.cons hitem .nil))

/-- A class or an interface behind its keyword. -/
theorem follows_typeBody (sort : TypeSort) {l l' : Lead}
    (hlead : l.Agrees ρ.Slices ρ.Slices l') :
    ρ.Follows ρ.Items (typeBody member sort l) (typeBody member' sort l') := by
  refine follows_identifier.bind fun name name' hname => ?_
  refine .optional (follows_isAt (by decide)) follows_typeArguments ?_
  refine .optional (follows_isAt (by decide)) follows_group ?_
  refine follows_baseList.bind fun _ _ hbases => follows_constraints.next ?_
  refine (follows_expect (by decide)).next ?_
  refine (follows_typeItems hmember hname.names).bind fun _ _ hitems => ?_
  refine (follows_expect (by decide)).next <| follows_end ?_
  rw [hname.text_eq]
  exact .type sort hlead _ hbases hitems

end Types

variable (ρ) in
/-- Corresponding members of enumerations. -/
def EnumMembers (m n : EnumMember) : Prop := (m.rename ρ.word).Agrees ρ.Slices n

/-- A member of an enumeration, with the text of its value. -/
theorem follows_enumMember : ρ.Follows ρ.EnumMembers enumMember enumMember := by
  refine follows_attributeLists.next <| follows_here.bind fun _ _ _ => ?_
  have hvalue : ρ.Follows (fun r r' => r'.1 = ρ.word r.1 ∧ Option.Rel ρ.Slices r.2 r'.2)
      (do
        let name ← identifier
        let value ←
          if ← accept "=" then pure (some (← verbatim (expression [",", Text.closeBrace])))
          else pure none
        return (name.text, value))
      (do
        let name ← identifier
        let value ←
          if ← accept "=" then pure (some (← verbatim (expression [",", Text.closeBrace])))
          else pure none
        return (name.text, value)) := by
    refine follows_identifier.bind fun name name' hname =>
      .ite (follows_accept (by decide)) ?_ ?_
    · exact (follows_expression _).verbatim.bind fun _ _ hs =>
        follows_pure ⟨hname.text_eq, .some hs⟩
    · exact follows_pure ⟨hname.text_eq, .none⟩
  refine hvalue.spelled.bind ?_
  rintro ⟨⟨name, value⟩, text⟩ ⟨⟨name', value'⟩, text'⟩ ⟨⟨hname, hvalue⟩, htext⟩
  exact follows_pure ⟨hname.symm, hvalue, htext⟩

/-- An enumeration behind its keyword. -/
theorem follows_enumBody {l l' : Lead} (hlead : l.Agrees ρ.Slices ρ.Slices l') :
    ρ.Follows ρ.Items (enumBody l) (enumBody l') := by
  refine follows_identifier.bind fun name name' hname => ?_
  refine .optional (follows_accept (by decide)) follows_typeReference ?_
  refine (follows_expect (by decide)).next ?_
  have hend : ∀ {ms ms' : List EnumMember}, List.Forall₂ ρ.EnumMembers ms ms' →
      ρ.Follows ρ.Items
        (expect Text.closeBrace >>= fun _ => accept ";" >>= fun _ =>
          pure (.enumeration l name.text ms))
        (expect Text.closeBrace >>= fun _ => accept ";" >>= fun _ =>
          pure (.enumeration l' name'.text ms')) := by
    intro ms ms' hms
    refine (follows_expect (by decide)).next <| follows_end ?_
    rw [hname.text_eq]
    exact .enumeration hlead _ (List.forall₂_map_left_iff.mpr hms)
  refine .ite (follows_isAt (by decide)) (hend .nil) ?_
  exact (follows_enumMember.collect (follows_commaBefore (by decide))).bind
    fun _ _ hms => hend hms

/-- A declaration of which only the name is kept. -/
theorem skipped_items (pos pos' : Pos) (hname : ρ.Identifiers t u) (kind : String) :
    ρ.Items (.skipped pos t.text (some kind)) (.skipped pos' u.text (some kind)) := by
  rw [hname.text_eq]
  exact .skipped pos pos' _ _

theorem follows_skippedType (pos pos' : Pos) (kind : String) :
    ρ.Follows ρ.Items (skippedType pos kind) (skippedType pos' kind) := by
  refine follows_advance.next ?_
  refine .optional (steady_readsAny (by decide)).follows follows_advance ?_
  refine follows_identifier.bind fun _ _ hname => ?_
  refine (follows_restOfHead (by decide)).next ?_
  refine .optional (follows_isAt (by decide)) follows_group ?_
  exact follows_end (skipped_items pos pos' hname kind)

theorem follows_skippedDelegate (pos pos' : Pos) :
    ρ.Follows ρ.Items (skippedDelegate pos) (skippedDelegate pos') := by
  refine follows_typeReference.next <| follows_identifier.bind fun _ _ hname => ?_
  exact follows_restOfMember.next (follows_pure (skipped_items pos pos' hname "delegate"))

theorem steady_startsRecord : ρ.Steady startsRecord :=
  (steady_reads (by decide)).and ((steady_isIdentifier 1).or (steady_textAny 1 (by decide)))

/-- A type of any sort, or none, given how members are read. -/
theorem follows_typeDeclaration {member member' : String → Parser Item}
    (hmember : ∀ a b, ρ.Names a b → ρ.Follows ρ.Items (member a) (member' b))
    {l l' : Lead} (hlead : l.Agrees ρ.Slices ρ.Slices l') :
    ρ.Follows (Option.Rel ρ.Items) (typeDeclaration member l)
      (typeDeclaration member' l') := by
  have hsome : ∀ {p q : Parser Item}, ρ.Follows ρ.Items p q →
      ρ.Follows (Option.Rel ρ.Items) (p >>= fun i => pure (some i))
      (q >>= fun i => pure (some i)) :=
    fun h => h.bind fun _ _ hitem => follows_pure (.some hitem)
  refine .ite (follows_accept (by decide)) (hsome (follows_typeBody hmember _ hlead)) ?_
  refine .ite (follows_accept (by decide)) (hsome (follows_typeBody hmember _ hlead)) ?_
  refine .ite (follows_accept (by decide)) (hsome (follows_enumBody hlead)) ?_
  refine .ite (follows_isAt (by decide)) (hsome (follows_skippedType _ _ _)) ?_
  refine .ite steady_startsRecord.follows (hsome (follows_skippedType _ _ _)) ?_
  exact .ite (follows_accept (by decide)) (hsome (follows_skippedDelegate _ _))
    (follows_pure .none)

/-- A member of a type, which may be a type itself. -/
theorem follows_member {owner owner' : String} (howner : ρ.Names owner owner') :
    ρ.Follows ρ.Items (member owner) (member owner') := by
  refine .fix (fun p q hpq owner owner' howner => follows_lead.bind
    fun l l' hlead => ?_) howner
  refine (follows_typeDeclaration hpq hlead).bind ?_
  rintro _ _ (⟨hitem⟩ | _)
  · exact follows_pure hitem
  · exact (follows_memberForm howner).bind fun _ _ hform =>
      follows_pure (.member ⟨hlead, hform⟩)

/-! ## Namespaces -/

variable (ρ) in
/-- Corresponding compilation units. -/
def Units (u v : CompilationUnit) : Prop := (u.rename ρ.word).Agrees ρ.Slices ρ.Slices v

variable (ρ) in
/-- A declaration and using directives that correspond to others. -/
def Nodes (r r' : Item × List String) : Prop :=
  ρ.Items r.1 r'.1 ∧ List.Forall₂ ρ.Slices r.2 r'.2

theorem Units.append {u u' v v' : CompilationUnit} (h : ρ.Units u u') (h' : ρ.Units v v') :
    ρ.Units (u ++ v) (u' ++ v') :=
  ⟨List.rel_append h.usings h'.usings, ItemLists.append h.items h'.items⟩

/-- A using directive is told by words that are not renamed. -/
theorem steady_startsUsing : ρ.Steady startsUsing := by
  refine ((steady_reads (by decide)).and (steady_text 1 (by decide))).or
    ((steady_reads (by decide)).and ?_)
  exact (steady_text 1 (v := "(") (by decide)).not

/-- A using directive is the same piece of the two texts. -/
theorem follows_usingDirective : ρ.Follows ρ.Slices usingDirective usingDirective := by
  refine Follows.verbatim (V := Any) ((Follows.repeatWhile ?_).next follows_advance)
  refine .ite (follows_isAt (by decide)) (follows_pure rfl)
    (.ite follows_atEnd (follows_fail _) ?_)
  exact follows_advance.next (follows_pure rfl)

/-- What stands in a namespace, given how one declaration is read. -/
theorem follows_nodesWith {node node' : Parser (Item × List String)}
    (hnode : ρ.Follows ρ.Nodes node node') (closing : Bool) :
    ρ.Follows ρ.Units (nodesWith node closing) (nodesWith node' closing) := by
  refine .gather ?_ ⟨.nil, .nil⟩ .append
  refine .ite follows_atEnd ?_ ((follows_isAt (by decide)).bind ?_)
  · cases closing with
    | true => exact follows_fail _
    | false => exact follows_pure .none
  rintro b _ rfl
  split
  · exact follows_pure .none
  refine .ite (follows_accept (by decide)) (follows_pure (.some ⟨.nil, .nil⟩)) ?_
  refine .ite steady_startsUsing.follows ?_ ?_
  · exact follows_usingDirective.bind fun _ _ hs => follows_pure (.some ⟨.cons hs .nil, .nil⟩)
  refine .ite ((steady_reads (by decide)).and (steady_text 1 (by decide))).follows ?_ ?_
  · exact follows_restOfMember.next (follows_pure (.some ⟨.nil, .nil⟩))
  · refine hnode.bind ?_
    rintro ⟨i, us⟩ ⟨j, vs⟩ ⟨hitem, husings⟩
    exact follows_pure (.some ⟨husings, .cons hitem .nil⟩)

/-- The empty text, which stands for a missing token, is not renamed. -/
theorem word_empty : ρ.word "" = "" := by
  have hempty : "" ∉ Lexer.keywords := by decide
  have hold : "" ≠ ρ.old := fun h => hempty (h ▸ ρ.old_mem)
  exact if_neg hold

/-- The name of a namespace is renamed part by part. -/
theorem renameDotted_names {ps qs : List String} (h : List.Forall₂ ρ.Names ps qs) :
    renameDotted ρ.word (".".intercalate ps) = ".".intercalate qs := by
  obtain ⟨hqs, hplain⟩ : qs = ps.map ρ.word ∧ ∀ s ∈ ps, '.' ∉ s.toList := by
    induction h with
    | nil => exact ⟨rfl, nofun⟩
    | cons hhead _ ih =>
      exact ⟨by rw [List.map_cons, ← ih.1, hhead.eq],
        List.forall_mem_cons.mpr ⟨hhead.plain, ih.2⟩⟩
  by_cases hps : ps = []
  · subst hps hqs
    exact word_empty
  · rw [hqs, renameDotted_intercalate hps hplain]

/-- A namespace, whose name may hold the word that is renamed. -/
theorem follows_namespaceWith {node node' : Parser (Item × List String)}
    (hnode : ρ.Follows ρ.Nodes node node') (pos pos' : Pos) :
    ρ.Follows ρ.Nodes (namespaceWith node pos) (namespaceWith node' pos') := by
  refine (follows_expect (by decide)).next ?_
  have hpart :=
    (follows_identifier (ρ := ρ)).map (f := Token.text) (g := Token.text) (W := ρ.Names)
    fun _ _ h => h.names
  refine (hpart.collect (follows_accept (by decide))).bind fun parts parts' hparts => ?_
  have hscope : ∀ {u v : CompilationUnit}, ρ.Units u v →
      ρ.Nodes (.scope pos (".".intercalate parts) u.items, u.usings)
        (.scope pos' (".".intercalate parts') v.items, v.usings) := by
    intro u v huv
    refine ⟨?_, huv.usings⟩
    rw [← renameDotted_names hparts]
    exact .scope pos pos' _ huv.items
  refine .ite (follows_accept (by decide)) ?_ ?_
  · exact (follows_nodesWith hnode false).bind fun _ _ huv => follows_pure (hscope huv)
  · refine (follows_expect (by decide)).next ?_
    refine (follows_nodesWith hnode true).bind fun _ _ huv => ?_
    exact (follows_expect (by decide)).next (follows_pure (hscope huv))

/-- One declaration or statement of a namespace. -/
theorem follows_node : ρ.Follows ρ.Nodes node node := by
  refine .fix (I := Eq) (fun p q hpq _ _ _ => follows_lead.bind fun l l' hlead => ?_) rfl
  refine .ite (follows_isAt (by decide)) (follows_namespaceWith (hpq () () rfl) _ _) ?_
  refine (follows_typeDeclaration (fun _ _ => follows_member) hlead).bind ?_
  rintro _ _ (⟨hitem⟩ | _)
  · exact follows_pure ⟨hitem, .nil⟩
  · refine follows_statement.next (follows_pure ⟨?_, .nil⟩)
    rw [Items, Item.rename, word_empty]
    exact .skipped _ _ _ _

/-- **What is read from tokens is read from the tokens renamed**, with its names renamed. -/
theorem follows_compilationUnit : ρ.Follows ρ.Units compilationUnit compilationUnit :=
  follows_nodesWith follows_node false

end SharpScript.Renaming
