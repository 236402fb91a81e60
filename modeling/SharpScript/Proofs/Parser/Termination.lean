import SharpScript.Parser.Session
import SharpScript.Proofs.Parser.Declaration
import SharpScript.Proofs.Parser.Progress
import SharpScript.Token.Display

/-! # The grammar terminates

Whatever tokens there are, each rule of the grammar comes to an end.  It leaves the
tokens from one of them on, or it fails at one of them, and most rules have read at
least one token by then.

## Main Definitions

* `Rule`: the rules of the grammar that may be applied to a session;
* `Rule.advances`: whether a rule reads at least one token;
* `Session.before`: the session that stands before a given token.

## Main Results

* `Parser.consumes_statement`, `Parser.consumes_member`, `Parser.consumes_node`: the
  rules that call themselves;
* `Session.apply_settles`: **a rule that is applied to a session moves it
  on, or fails at a token**.

## Design Notes

A rule stalls when the calls of itself are nested deeper than there are tokens, or when it is
asked for the source text of no tokens.  A problem that arises in a part of a rule is the
problem of the rule, so a rule that does not stall has met neither on its way.
-/

namespace SharpScript

namespace Parser

variable {ts : List Token}

/-! ## Brackets -/

/-- The brackets that are open are closed, or one of them is not: each token is looked at once.
-/
theorem settles_close (bs : List Bracket) (ts : List Token) :
    Settles (fun ts => (Bracket.close bs ts).map ((), ·)) ts := by
  induction ts generalizing bs with
  | nil =>
    cases bs with
    | nil => exact (settles_pure ()).congr rfl
    | cons b bs => exact (settlesBy_fail (q := .expected (.word b.closing)) nofun).congr rfl
  | cons t ts ih =>
    have htail : ts <:+ t :: ts := List.suffix_cons t ts
    cases bs with
    | nil => exact (settles_pure ()).congr rfl
    | cons b bs =>
      cases hopened : Bracket.opened? t with
      | some c => exact (ih (c :: b :: bs)).behind htail (by simp [Bracket.close, hopened])
      | none =>
        cases hclosed : Bracket.closed? t with
        | none => exact (ih (b :: bs)).behind htail (by simp [Bracket.close, hopened, hclosed])
        | some c =>
          by_cases h : c = b
          · exact (ih bs).behind htail (by simp [Bracket.close, hopened, hclosed, h])
          · exact (settlesBy_fail (q := .expected (.word b.closing)) nofun).congr
              (by simp [Bracket.close, hopened, hclosed, h, fail, Except.map])

/-- The same for angle brackets. -/
theorem settles_closeAngles (depth : Nat) (ts : List Token) :
    Settles (fun ts => (closeAngles depth ts).map ((), ·)) ts := by
  induction ts generalizing depth with
  | nil =>
    cases depth with
    | zero => exact (settles_pure ()).congr rfl
    | succ depth => exact (settlesBy_fail (q := .expected (.word ">")) nofun).congr rfl
  | cons t ts ih =>
    have htail : ts <:+ t :: ts := List.suffix_cons t ts
    cases depth with
    | zero => exact (settles_pure ()).congr rfl
    | succ depth =>
      by_cases hless : t.reads "<" = true
      · exact (ih (depth + 2)).behind htail (by simp [closeAngles, hless])
      by_cases hgreater : t.reads ">" = true
      · exact (ih depth).behind htail (by simp [closeAngles, hless, hgreater])
      · exact (ih (depth + 1)).behind htail (by simp [closeAngles, hless, hgreater])

/-- A group starts with a bracket, which is read whatever comes behind it. -/
theorem consumes_group : Consumes group ts := by
  cases ts with
  | nil => exact (settlesBy_fail (q := .expected .bracket) nofun).congr rfl
  | cons t ts =>
    cases hopened : Bracket.opened? t with
    | some b => exact consumes_cons (settles_close [b] ts) (by simp [group, hopened])
    | none =>
      exact (settlesBy_fail (q := .expected .bracket) nofun).congr
        (by simp [group, hopened, fail])

/-- A chunk has at least one token. -/
theorem consumes_chunk : Consumes chunk ts := by
  cases ts with
  | nil => exact (settlesBy_fail (q := .unexpected) nofun).congr rfl
  | cons t ts =>
    by_cases hopened : (Bracket.opened? t).isSome = true
    · exact consumes_group.congr (by simp [chunk, hopened])
    by_cases hclosed : (Bracket.closed? t).isSome = true
    · exact (settlesBy_fail (q := .unexpected) nofun).congr
        (by simp [chunk, hopened, hclosed, fail])
    · exact consumes_cons (settles_pure ()) (by simp [chunk, hopened, hclosed]; rfl)

/-- There may be nothing before the place that is looked for, so nothing need be read. -/
theorem settles_skipTo (stop : List Token → Bool) : Settles (skipTo stop) ts :=
  settles_repeatWhile fun _ => .ite (fun _ => settlesBy_pure Bool.false_ne_true)
    fun _ => consumes_chunk.map

/-- Chunks are passed over up to a place where the test holds, so there are some if it
does not hold at once. -/
theorem consumes_skipTo {stop : List Token → Bool} (h : stop ts = false) :
    Consumes (skipTo stop) ts where
  ok {_ rest} hrun := by
    obtain ⟨hrest, -⟩ := (settles_skipTo stop).ok hrun
    refine ⟨hrest, fun _ => Nat.lt_of_le_of_ne hrest.length_le fun hlen => ?_⟩
    rw [← hrest.eq_of_length hlen, Comparison.skipTo_stops hrun] at h
    cases h
  error := (settles_skipTo stop).error

theorem consumes_typeArguments : Consumes typeArguments ts :=
  (consumes_expect (by decide)).bind fun _ mid _ => settles_closeAngles 1 mid

/-! ## Types and expressions -/

/-- A further part of a name has been read if the rule says that there is one. -/
theorem settlesBy_typePart : SettlesBy (· = true) typePart ts := by
  refine .ite (fun _ => settles_advance.bind fun _ mid _ => ?_) fun _ =>
    .ite (fun _ => ?_) fun _ => ?_
  · exact .pass rfl nofun fun _ _ => settles_pure true
  · exact consumes_typeArguments.map
  · exact settlesBy_pure Bool.false_ne_true

theorem settlesBy_typeSuffix : SettlesBy (· = true) typeSuffix ts := by
  refine .ite (fun h => ?_) fun _ => .ite (fun _ => ?_) fun _ => ?_
  · exact (consumes_advance (ne_nil_of_test rfl h)).map
  · exact consumes_group.map
  · exact settlesBy_pure Bool.false_ne_true

/-- A type starts with a word or a bracket. -/
theorem consumes_typeReference : Consumes typeReference ts := by
  have hsuffixes : ∀ us, Settles (repeatWhile typeSuffix) us :=
    fun _ => settles_repeatWhile fun _ => settlesBy_typeSuffix
  refine .ite (fun _ => consumes_group.bind fun _ mid _ => hsuffixes mid) fun _ => ?_
  refine .pass rfl nofun fun mid _ => ?_
  exact (settles_repeatWhile fun _ => settlesBy_typePart).bind fun _ mid _ => hsuffixes mid

/-- An expression that is empty is an error, so one that is read has a token. -/
theorem consumes_expression (stops : List String) : Consumes (expression stops) ts :=
  .ite (fun _ => settlesBy_fail nofun) fun h => consumes_skipTo h

theorem consumes_initializer : Consumes initializer ts :=
  .ite (fun _ => settlesBy_fail nofun) fun h => consumes_skipTo h

theorem settles_restOfHead (stops : List String) : Settles (restOfHead stops) ts := by
  refine settles_repeatWhile fun us =>
      .ite (fun _ => settlesBy_pure Bool.false_ne_true) fun _ =>
    .unlessEnd nofun fun hne => .ite (fun _ => ?_) fun _ => ?_
  · exact consumes_group.map
  · exact (consumes_advance hne).map

theorem settles_constraints : Settles constraints ts :=
  .ite (fun _ => settles_restOfHead _) fun _ => settles_pure ()

/-- A member ends behind a `;` or a brace, which is read with it. -/
theorem consumes_restOfMember : Consumes restOfMember ts := by
  refine settlesBy_loop (fun assigned us => Consumes.settlesBy ?_) false
  refine .ite (fun h => ?_) fun _ => .ite (fun _ => ?_) fun _ => ?_
  · exact (consumes_advance (ne_nil_of_test rfl h)).map
  · refine consumes_group.bind fun _ mid _ => ?_
    split
    · exact settles_pure _
    · exact (settles_accept _).map
  · exact (settles_ahead _).bind fun _ mid _ => consumes_chunk.map

/-! ## Statements -/

/-- Each round of a statement reads a token, whether it is the last one or not. -/
theorem consumes_statementChunk (mayDeclare : Bool) (seen : Seen) :
    Consumes (statementChunk mayDeclare seen) ts := by
  refine .ite (fun h => ?_) fun _ => .ite (fun _ => ?_) fun _ => ?_
  · exact (consumes_advance (ne_nil_of_test rfl h)).map
  · refine consumes_group.bind fun _ mid _ => ?_
    split
    · exact settles_pure _
    · exact settles_pure _
  · refine (settles_ahead _).bind fun _ mid _ => (settles_ahead _).bind fun _ mid _ =>
      (settles_ahead _).bind fun _ mid _ => ?_
    exact consumes_chunk.map

/-- So a statement without a word of its own comes to an end. -/
theorem consumes_simpleStatement : Consumes simpleStatement ts :=
  (settles_ahead _).bind fun _ _ _ => settlesBy_loop
    (fun seen _ => (consumes_statementChunk _ seen).settlesBy) _

/-- A clause has been read if the rule says that there is one. -/
theorem settlesBy_catchClause : SettlesBy (· = true) catchClause ts := by
  refine .ifAccept (by decide) (fun mid _ => ?_) (settlesBy_pure Bool.false_ne_true)
  refine .optional consumes_group.settles fun us _ => ?_
  exact .acceptOptional (fun _ => consumes_group.settles) fun _ _ => consumes_group.map

/-- A statement calls itself only behind its first token. -/
theorem consumes_statementForm {statement : Parser Unit}
    (ih : ∀ us, us.length < ts.length → Consumes statement us) :
    Consumes (statementForm statement) ts := by
  refine .ifAccept (by decide) (fun mid hmid => ?_) (.ite (fun _ => ?_) fun _ =>
    .ifAccept (by decide) (fun mid hmid => ?_) (.ifAccept (by decide) (fun mid hmid => ?_)
      (.ite (fun _ => ?_) fun _ => .ite (fun _ => ?_) fun _ => consumes_simpleStatement)))
  · -- `if`, perhaps with `else`.
    refine consumes_group.bind fun _ us hus => (ih us (by omega)).bind fun _ vs hvs => ?_
    exact .ifAccept (by decide) (fun ws hws => (ih ws (by omega)).settles) (settles_pure ())
  · -- A head in brackets, and a statement under it.
    refine settles_advance.bind fun _ us hus => consumes_group.bind fun _ vs hvs => ?_
    exact (ih vs (by omega)).settles
  · -- `do`, which has its head at the end.
    refine (ih mid hmid).bind fun _ us hus => (settles_expect _).bind fun _ us _ => ?_
    exact consumes_group.bind fun _ us _ => settles_expect _
  · -- `try`, with its clauses.
    refine consumes_group.bind fun _ us _ => ?_
    refine (settles_repeatWhile fun _ => settlesBy_catchClause).bind fun _ us _ => ?_
    exact .ifAccept (by decide) (fun _ _ => consumes_group.settles) (settles_pure ())
  · exact settles_advance.bind fun _ _ _ => consumes_group.bind fun _ _ _ =>
      consumes_group.settles
  · exact settles_advance.bind fun _ _ _ => consumes_group

/-- One statement, given that those in it, which have fewer tokens, come to an end. -/
theorem consumes_statementStep {statement : Parser Unit}
    (ih : ∀ us, us.length < ts.length → Consumes statement us) :
    Consumes (statementStep statement) ts := by
  refine .ite (fun _ => consumes_group) fun _ => .ite (fun h => ?_) fun _ => .ite (fun h => ?_)
    fun _ => .ite (fun _ => ?_) fun _ => consumes_statementForm ih
  · exact consumes_advance (ne_nil_of_test rfl h)
  · -- A label stands before a statement, and the name of the label has been read by then.
    refine (consumes_advance (ne_nil_of_test rfl h)).bind fun _ us hus => ?_
    exact settles_advance.bind fun _ vs hvs => (ih vs (by omega)).settles
  · exact settles_advance.bind fun _ us hus => consumes_statementForm
      fun vs hvs => ih vs (by omega)

/-- **Statements come to an end**, however deep they are nested. -/
theorem consumes_statement : Consumes statement ts :=
  settlesBy_fix (fun _ _ _ _ ih => consumes_statementStep (ih ())) ()

/-- A block starts with a brace, and each of its statements reads a token. -/
theorem consumes_block : Consumes block ts := by
  refine (consumes_expect (by decide)).bind fun _ us _ =>
    Settles.bind (settles_gather fun vs _ => ?_) fun _ _ _ => (settles_expect _).map
  exact .ite (fun _ => settlesBy_pure Bool.false_ne_true) fun _ => .unlessEnd nofun fun _ =>
    consumes_statement.verbatim.map

/-! ## Annotations and modifiers -/

/-- Items in round brackets. -/
theorem consumes_listed {α : Type} {item : Parser α} (hitem : ∀ us, Consumes item us) :
    Consumes (listed item) ts := by
  refine (consumes_expect (by decide)).bind fun _ us _ => ?_
  refine .ifAccept (by decide) (fun _ _ => settles_pure []) ?_
  exact (consumes_collect hitem fun _ => settles_accept _).bind
    fun _ _ _ => (settles_expect _).map

/-- Arguments stand in brackets, with commas between them. -/
theorem consumes_attributeArguments : Consumes attributeArguments ts :=
  consumes_listed fun _ => (consumes_expression _).verbatim.map

theorem consumes_oneAttribute : Consumes oneAttribute ts := by
  refine (settles_ahead _).bind fun _ us _ =>
    consumes_typeReference.verbatim.bind fun _ vs _ => ?_
  exact .ite (fun _ => consumes_attributeArguments.map) fun _ => settles_pure _

theorem settles_attributeTarget : Settles attributeTarget ts := by
  refine (settles_ahead _).bind fun target us _ => ?_
  cases target with
  | some w => exact settles_advance.bind fun _ _ _ => settles_advance.map
  | none => exact settles_pure ""

/-- A list of annotations stands in brackets, and annotations have names. -/
theorem consumes_attributeList : Consumes attributeList ts := by
  refine (consumes_expect (by decide)).bind fun _ us _ =>
    settles_attributeTarget.bind fun _ vs _ => ?_
  exact (consumes_collect (fun _ => consumes_oneAttribute) fun _ => settles_commaBefore _).bind
    fun _ _ _ => (settles_expect _).map

/-- There may be no list, but every list reads a token. -/
theorem settles_attributeLists : Settles attributeLists ts :=
  settles_gather fun _ _ => .ite (fun _ => consumes_attributeList.map)
    fun _ => settlesBy_pure Bool.false_ne_true

/-- There may be no modifier. -/
theorem settles_modifiers : Settles modifiers ts := by
  refine settles_gather fun us _ => ?_
  refine (settles_ahead modifier?).bind_by (S := fun _ o => o.isSome = true)
    (fun w mid hw => ?_) fun _ _ => .inr
  cases hw
  cases hmodifier : modifier? us with
  | some w =>
    have hne : us ≠ [] := by
      rintro rfl
      cases hmodifier
    exact (consumes_advance hne).map
  | none => exact settlesBy_pure Bool.false_ne_true

theorem settles_lead : Settles lead ts :=
  (settles_ahead _).bind fun _ _ _ => settles_attributeLists.bind fun _ _ _ =>
    settles_modifiers.map

/-! ## Members -/

/-- A parameter has a type before its name. -/
theorem consumes_parameter : Consumes parameter ts := by
  refine settles_attributeLists.bind fun _ us _ => (settles_ahead _).bind fun _ us _ => ?_
  refine Settles.bind (settles_repeatWhile fun vs => .ite (fun h => ?_) fun _ => ?_)
    fun _ us _ => ?_
  · exact (consumes_advance (ne_nil_of_test rfl h)).map
  · exact settlesBy_pure Bool.false_ne_true
  refine consumes_typeReference.bind fun _ us _ => consumes_identifier.bind fun _ us _ => ?_
  exact .ifAccept (by decide) (fun _ _ => (consumes_expression _).verbatim.map)
    (settles_pure _)

theorem consumes_parameters :
    Consumes parameters ts := consumes_listed fun _ => consumes_parameter

/-- A body is a block, an expression behind an arrow, or a `;`. -/
theorem consumes_body (returns : Bool) : Consumes (body returns) ts := by
  refine .ite (fun _ => consumes_block.map) fun _ => .ifAccept (by decide) (fun _ _ => ?_) ?_
  · exact (consumes_expression _).verbatim.bind fun _ _ _ => (settles_expect _).map
  · exact (consumes_expect (by decide)).map

/-- The search for the end of type arguments ends with the tokens. -/
theorem settles_argumentsEnd (ts : List Token) :
    Settles (fun ts => (argumentsEnd ts).map ((), ·)) ts := by
  by_cases h : Ahead.reads "<" ts = true
  · exact (settles_closeAngles 1 ts.tail).behind (List.tail_suffix ts)
      (by simp [argumentsEnd, h])
  · exact (settles_pure ()).congr (by simp [argumentsEnd, h]; rfl)

/-- A name that is read behind a point is read for good.  Where no point follows what looks
like type arguments, the rule goes back to where it has started. -/
theorem settlesBy_nameRound (name : Token) :
    SettlesBy (fun r => r.isLeft = true) (nameRound name) ts := by
  have hrun := nameRound_eq name ts
  cases hend : argumentsEnd ts with
  | error e =>
    have hfail : (argumentsEnd ts).map ((), ·) = .error e := by rw [hend, Except.map]
    obtain ⟨hleft, hproblem⟩ := (settles_argumentsEnd ts).error hfail
    exact (settlesBy_fail hproblem).behind hleft (by rw [hrun, hend]; rfl)
  | ok mid =>
    have hread : (argumentsEnd ts).map ((), ·) = .ok ((), mid) := by rw [hend, Except.map]
    obtain ⟨hmid, -⟩ := (settles_argumentsEnd ts).ok hread
    have htail : mid.tail <:+ ts := (List.tail_suffix mid).trans hmid
    rw [hend] at hrun
    dsimp only at hrun
    split at hrun
    · split at hrun
      · exact SettlesBy.behind (q := pure (.inr name))
          (settlesBy_pure Bool.false_ne_true) htail hrun
      · refine SettlesBy.behind (q := identifier >>= fun t => pure (.inl t))
          consumes_identifier.map htail (hrun.trans ?_)
        show _ = identifier mid.tail >>= fun r => pure (Sum.inl r.1, r.2)
        cases identifier mid.tail <;> rfl
    · exact SettlesBy.congr (q := pure (.inr name)) (settlesBy_pure Bool.false_ne_true) hrun

/-- The name of a member has at least one part, and each round reads one more. -/
theorem consumes_memberName : Consumes memberName ts := by
  rw [memberName_eq]
  exact consumes_identifier.bind fun name _ _ => settlesBy_loop
    (fun name _ => (settlesBy_nameRound name).mono fun _ h => h.resolve_right id) name

/-- Round brackets come behind the name of a method. -/
theorem consumes_method (name : String) (returns : Bool) :
    Consumes (method name returns) ts := by
  refine .optional consumes_typeArguments.settles fun us _ =>
    consumes_parameters.bind fun _ us _ => ?_
  exact settles_constraints.bind fun _ _ _ => (consumes_body returns).map

theorem consumes_constructor : Consumes constructor ts := by
  refine consumes_identifier.bind fun name us _ => consumes_parameters.bind
    fun params us _ => ?_
  refine .ifAccept (by decide) (fun us _ => ?_) (consumes_body false).map
  exact settles_advance.bind fun _ _ _ => .optional consumes_group.settles
    fun _ _ => (consumes_body false).map

theorem consumes_accessorBody : Consumes accessorBody ts := by
  refine .ite (fun _ => consumes_group) fun _ => .ifAccept (by decide) (fun _ _ => ?_) ?_
  · exact (consumes_expression _).bind fun _ _ _ => settles_expect _
  · exact consumes_expect (by decide)

theorem consumes_accessor : Consumes accessor ts := by
  refine settles_attributeLists.bind fun _ us _ => settles_modifiers.bind fun _ us _ => ?_
  refine .ite (fun _ => settlesBy_fail nofun) fun _ => ?_
  exact consumes_identifier.bind fun _ _ _ => consumes_accessorBody.map

/-- A property has braces or an arrow. -/
theorem consumes_property (name : String) : Consumes (property name) ts := by
  refine .ifAccept (by decide) (fun _ _ => ?_) ?_
  · exact (consumes_expression _).bind fun _ _ _ => (settles_expect _).map
  refine (consumes_expect (by decide)).bind fun _ us _ =>
    Settles.bind (settles_gather fun vs _ => ?_) fun _ us _ =>
    (settles_expect _).bind fun _ us _ => ?_
  · exact .ite (fun _ => settlesBy_pure Bool.false_ne_true) fun _ => consumes_accessor.map
  · refine .ifAccept (by decide) (fun _ _ => ?_) (settles_pure _)
    exact (consumes_expression _).bind fun _ _ _ => (settles_expect _).map

theorem settles_fieldVariable (name : Token) : Settles (fieldVariable name) ts := by
  refine Settles.map (SettlesBy.consumed (R := fun _ => False) ?_)
  refine .optional consumes_group.settles fun us _ => ?_
  exact .ifAccept (by decide) (fun _ _ => consumes_initializer.settles) (settles_pure ())

/-- A field ends with a `;`. -/
theorem consumes_field (name : Token) : Consumes (field name) ts := by
  refine (settles_fieldVariable name).bind fun _ us _ => ?_
  refine Settles.bind (settles_gather fun vs _ => .ifAccept (by decide) (fun _ _ => ?_) ?_)
    fun _ us _ => (consumes_expect (by decide)).map
  · exact consumes_identifier.bind fun name _ _ => (settles_fieldVariable name).map
  · exact settlesBy_pure Bool.false_ne_true

/-- A member with a type before its name. -/
theorem consumes_typedMember : Consumes typedMember ts := by
  refine consumes_typeReference.verbatim.bind fun type us _ => ?_
  refine .ite (fun _ => consumes_restOfMember.map) fun _ =>
    .ite (fun _ => consumes_restOfMember.map) fun _ => consumes_memberName.bind
    fun name us _ => ?_
  exact .ite (fun _ => (consumes_method _ _).settles) fun _ =>
    .ite (fun _ => (consumes_property _).settles) fun _ =>
      .ite (fun _ => (consumes_field _).settles) fun _ => settlesBy_fail nofun

/-- Whatever form a member has, a token of it is read. -/
theorem consumes_memberForm (owner : String) : Consumes (memberForm owner) ts :=
  .ite (fun _ => consumes_restOfMember.map) fun _ =>
      .ite (fun _ => consumes_restOfMember.map) fun _ =>
    .ite (fun _ => consumes_restOfMember.map) fun _ => .ite (fun _ => consumes_constructor)
      fun _ => consumes_typedMember

/-! ## Types -/

theorem settles_baseList : Settles baseList ts := by
  refine .ifAccept (by decide) (fun us _ => ?_) (settles_pure [])
  refine (consumes_collect (fun vs => ?_) fun _ => settles_accept _).settles
  refine Consumes.bind consumes_typeReference.verbatim.map fun _ ws _ => ?_
  exact .optional consumes_group.settles fun _ _ => settles_pure _

/-- The members of a type stand behind its name. -/
theorem consumes_typeBody {member : String → Parser Item} (sort : TypeSort) (lead : Lead)
    (ih : ∀ owner us, us.length < ts.length → Consumes (member owner) us) :
    Consumes (typeBody member sort lead) ts := by
  refine consumes_identifier.bind fun name us hus => .optional consumes_typeArguments.settles
    fun us hus => .optional consumes_group.settles fun us hus => ?_
  refine settles_baseList.bind fun bases us hus => settles_constraints.bind fun _ us hus =>
    (settles_expect _).bind fun _ us hus => ?_
  refine Settles.bind (settles_gather fun vs hvs => ?_) fun _ us _ => (settles_expect _).bind
    fun _ us _ => (settles_accept _).map
  refine .ite (fun _ => settlesBy_pure Bool.false_ne_true) fun _ =>
    .unlessEnd nofun fun _ => ?_
  exact .ifAccept (by decide) (fun _ _ => settles_pure _) (ih name.text vs (by omega)).map

/-- A member of an enumeration has a name. -/
theorem consumes_enumMember : Consumes enumMember ts := by
  refine settles_attributeLists.bind fun _ us _ => (settles_ahead _).bind fun _ us _ => ?_
  refine Consumes.map (Consumes.spelled (consumes_identifier.bind fun _ vs _ => ?_))
  exact .ifAccept (by decide) (fun _ _ => (consumes_expression _).verbatim.map)
    (settles_pure _)

theorem consumes_enumBody (lead : Lead) : Consumes (enumBody lead) ts := by
  refine consumes_identifier.bind fun name us _ => .acceptOptional
    (fun _ => consumes_typeReference.settles) fun us _ =>
    (settles_expect _).bind fun _ us _ => ?_
  have hrest : ∀ (members : List EnumMember) us, Settles (expect Text.closeBrace >>= fun _ =>
      accept ";" >>= fun _ => pure (Item.enumeration lead name.text members)) us :=
    fun _ _ => (settles_expect _).bind fun _ _ _ => (settles_accept _).map
  refine .ite (fun _ => hrest [] us) fun _ => ?_
  exact (consumes_collect (fun _ => consumes_enumMember) fun _ => settles_commaBefore _).bind
    fun _ us _ => hrest _ us

theorem consumes_skippedType (pos : Pos) (kind : String) :
    Consumes (skippedType pos kind) ts := by
  refine settles_advance.bind fun _ us _ => .optional settles_advance fun us _ =>
    consumes_identifier.bind fun _ us _ => (settles_restOfHead _).bind fun _ us _ => ?_
  exact .optional consumes_group.settles fun _ _ => (settles_accept _).map

theorem consumes_skippedDelegate (pos : Pos) : Consumes (skippedDelegate pos) ts :=
  consumes_typeReference.bind fun _ _ _ => consumes_identifier.bind fun _ _ _ =>
    consumes_restOfMember.map

/-- If there is a type, it is read. -/
theorem settlesBy_typeDeclaration {member : String → Parser Item} (lead : Lead)
    (ih : ∀ owner us, us.length < ts.length → Consumes (member owner) us) :
    SettlesBy (fun o => o.isSome = true) (typeDeclaration member lead) ts := by
  have hbody : ∀ sort mid, mid.length < ts.length → Settles (typeBody member sort lead) mid :=
    fun sort mid hmid =>
      (consumes_typeBody sort lead fun owner us hus => ih owner us (by omega)).settles
  refine .ifAccept (by decide) (fun mid hmid => (hbody _ mid hmid).map) ?_
  refine .ifAccept (by decide) (fun mid hmid => (hbody _ mid hmid).map) ?_
  refine .ifAccept (by decide) (fun mid hmid => (consumes_enumBody lead).map) ?_
  refine .ite (fun _ => (consumes_skippedType _ _).map) fun _ => ?_
  refine .ite (fun _ => (consumes_skippedType _ _).map) fun _ => ?_
  exact .ifAccept (by decide) (fun _ _ => (consumes_skippedDelegate _).map)
    (settlesBy_pure Bool.false_ne_true)

/-- A member, given that those of a type in it come to an end. -/
theorem consumes_memberStep {member : String → Parser Item} (owner : String)
    (ih : ∀ owner us, us.length < ts.length → Consumes (member owner) us) :
    Consumes (memberStep member owner) ts := by
  refine settles_lead.bind fun lead us hus => SettlesBy.bind_option
    (settlesBy_typeDeclaration lead fun owner vs hvs => ih owner vs (by omega)) ?_ ?_
  · exact fun item _ _ => settles_pure item
  · exact fun _ _ => (consumes_memberForm owner).map

/-- **Members come to an end**, however deep types are nested. -/
theorem consumes_member (owner : String) : Consumes (member owner) ts :=
  settlesBy_fix (fun _ owner _ _ ih => consumes_memberStep owner ih) owner

/-! ## Namespaces -/

/-- A using directive is read through its `;`. -/
theorem consumes_usingDirective : Consumes usingDirective ts := by
  rw [usingDirective_eq]
  have hround : ∀ us, SettlesBy (· = true) directiveRound us := fun _ =>
    .ite (fun _ => settlesBy_pure Bool.false_ne_true) fun _ => .unlessEnd nofun fun hne =>
      (consumes_advance hne).map
  refine Consumes.verbatim
    (SettlesBy.bind_by (S := fun _ _ => True) (settles_repeatWhile hround)
      (fun _ mid hloop => ?_) fun _ _ => .inr)
  exact consumes_advance (ne_nil_of_reads (by decide) (directive_stops hloop))

/-- One round of a namespace reads a token, unless it is the last one. -/
theorem settlesBy_nodeRound {node : Parser (Item × List String)} (closing : Bool)
    (h : Consumes node ts) :
    SettlesBy (fun o => o.isSome = true) (nodeRound node closing) ts := by
  refine .ite (fun _ => ?_) fun _ => (settles_ahead _).bind_by
    (S := fun _ o => o.isSome = true) (fun b mid hb => ?_) fun _ _ => .inr
  · split
    · exact settlesBy_fail nofun
    · exact settlesBy_pure Bool.false_ne_true
  cases hb
  split
  · exact settlesBy_pure Bool.false_ne_true
  refine .ifAccept (by decide) (fun _ _ => settles_pure _) ?_
  exact .ite (fun _ => consumes_usingDirective.map) fun _ =>
    .ite (fun _ => consumes_restOfMember.map) fun _ => h.map

/-- What stands in a namespace, given that each declaration reads a token. -/
theorem settles_nodesWith {node : Parser (Item × List String)} (closing : Bool)
    (ih : ∀ us, us.length ≤ ts.length → Consumes node us) :
    Settles (nodesWith node closing) ts := by
  rw [nodesWith_eq]
  exact settles_gather fun us hus => settlesBy_nodeRound closing (ih us hus)

theorem consumes_scopeHead : Consumes scopeHead ts :=
  (consumes_expect (by decide)).bind fun _ _ _ =>
    (consumes_collect (fun _ => consumes_identifier.map)
      fun _ => settles_accept _).map

/-- The declarations of a namespace stand behind its name. -/
theorem consumes_namespaceWith {node : Parser (Item × List String)} (pos : Pos)
    (ih : ∀ us, us.length < ts.length → Consumes node us) :
    Consumes (namespaceWith node pos) ts := by
  rw [namespaceWith_eq]
  have hnodes : ∀ closing us, us.length < ts.length → Settles (nodesWith node closing) us :=
    fun closing us hus => settles_nodesWith closing fun vs hvs => ih vs (by omega)
  refine consumes_scopeHead.bind fun name us hus => .ifAccept (by decide) (fun vs hvs => ?_) ?_
  · exact (hnodes false vs (by omega)).map
  · refine (settles_expect _).bind fun _ vs hvs =>
      (hnodes true vs (by omega)).bind fun _ _ _ => ?_
    exact (settles_expect _).map

/-- A declaration or statement, given that those in it come to an end. -/
theorem consumes_nodeStep {node : Parser (Item × List String)}
    (ih : ∀ us, us.length < ts.length → Consumes node us) : Consumes (nodeStep node) ts := by
  refine settles_lead.bind fun lead us hus => .ite (fun _ => ?_) fun _ => ?_
  · exact consumes_namespaceWith lead.pos fun vs hvs => ih vs (by omega)
  refine (settlesBy_typeDeclaration lead fun owner _ _ =>
    consumes_member owner).bind_option ?_ ?_
  · exact fun item _ _ => settles_pure (item, [])
  · exact fun _ _ => consumes_statement.map

/-- **Declarations come to an end**, however deep namespaces are nested. -/
theorem consumes_node : Consumes node ts :=
  settlesBy_fix (fun _ _ _ _ ih => consumes_nodeStep (ih ())) ()

/-- All that a source text declares is read, or an error is met. -/
theorem settles_nodes (closing : Bool) : Settles (nodes closing) ts :=
  settles_nodesWith closing fun _ _ => consumes_node

end Parser

/-! ## Sessions -/

/-- The rules that may be applied to a session, with the type of what they give. -/
inductive Rule : Type → Type
  | advance : Rule Unit
  | expect (w : String) : Rule Unit
  | identifier : Rule Token
  | isAt (w : String) : Rule Bool
  | atEnd : Rule Bool
  | isIdentifier : Rule Bool
  | isWord (n : Nat) : Rule Bool
  | compilationUnit : Rule CompilationUnit
  | nodes (closing : Bool) : Rule CompilationUnit
  | node : Rule (Item × List String)
  | namespaceHere : Rule (Item × List String)
  | member (owner : String) : Rule Item
  | attributeLists : Rule (List Annotation)
  | attributeArguments : Rule (List String)
  | modifiers : Rule (List String)
  | baseList : Rule (List String)
  | block : Rule (List String)
  | memberName : Rule Token
  | parameters : Rule (List Param)
  | body (returns : Bool) : Rule (Option (List String))
  | usingDirective : Rule String
  | typeReference : Rule Unit
  | typeArguments : Rule Unit
  | constraints : Rule Unit
  | group : Rule Unit
  | expression (stops : List String) : Rule Unit
  | initializer : Rule Unit
  | restOfMember : Rule Unit
  | statement : Rule Unit
  | simpleStatement : Rule Unit

namespace Rule

variable {α : Type}

/-- The parser of a rule. -/
def parser : Rule α → Parser α
  | advance => Parser.advance
  | expect w => Parser.expect w
  | identifier => Parser.identifier
  | isAt w => Parser.isAt w
  | atEnd => Parser.atEnd
  | isIdentifier => Parser.ahead (Ahead.isIdentifier 0)
  | isWord n => Parser.ahead (Ahead.isWord n)
  | compilationUnit => Parser.compilationUnit
  | nodes closing => Parser.nodes closing
  | node => Parser.node
  | namespaceHere => do Parser.namespaceAt (← Parser.here)
  | member owner => Parser.member owner
  | attributeLists => Parser.attributeLists
  | attributeArguments => Parser.attributeArguments
  | modifiers => Parser.modifiers
  | baseList => Parser.baseList
  | block => Parser.block
  | memberName => Parser.memberName
  | parameters => Parser.parameters
  | body returns => Parser.body returns
  | usingDirective => Parser.usingDirective
  | typeReference => Parser.typeReference
  | typeArguments => Parser.typeArguments
  | constraints => Parser.constraints
  | group => Parser.group
  | expression stops => Parser.expression stops
  | initializer => Parser.initializer
  | restOfMember => Parser.restOfMember
  | statement => Parser.statement
  | simpleStatement => Parser.simpleStatement

/-- Whether a rule reads at least one token.  The others are tests, and rules for what may be
left out; the empty word is found at the end. -/
def advances : Rule α → Bool
  | advance | isAt _ | atEnd | isIdentifier | isWord _ => false
  | compilationUnit | nodes _ | attributeLists | modifiers | baseList | constraints => false
  | expect w => w != ""
  | _ => true

end Rule

namespace Parser

/-- Every rule that may be applied to a session comes to an end, and those that are said to
advance read a token. -/
theorem settlesBy_rule {α : Type} (rule : Rule α) (ts : List Token) :
    SettlesBy (fun _ => rule.advances = true) rule.parser ts := by
  have hweak : ∀ {p : Parser α}, rule.advances = false → Settles p ts →
      SettlesBy (fun _ => rule.advances = true) p ts :=
    fun hfalse h => h.mono fun _ htrue => Bool.noConfusion (hfalse.symm.trans htrue)
  cases rule with
  | advance => exact hweak rfl settles_advance
  | expect w =>
    by_cases hw : w = ""
    · exact hweak (by simp [Rule.advances, hw]) (settles_expect w)
    · exact (consumes_expect hw).settlesBy
  | identifier => exact consumes_identifier.settlesBy
  | isAt w => exact hweak rfl (settles_ahead _)
  | atEnd => exact hweak rfl (settles_ahead _)
  | isIdentifier => exact hweak rfl (settles_ahead _)
  | isWord n => exact hweak rfl (settles_ahead _)
  | compilationUnit => exact hweak rfl (settles_nodes false)
  | nodes closing => exact hweak rfl (settles_nodes closing)
  | node => exact consumes_node.settlesBy
  | namespaceHere =>
    exact (settles_ahead _).bind fun pos _ _ =>
      (consumes_namespaceWith pos fun _ _ => consumes_node).settlesBy
  | member owner => exact (consumes_member owner).settlesBy
  | attributeLists => exact hweak rfl settles_attributeLists
  | attributeArguments => exact consumes_attributeArguments.settlesBy
  | modifiers => exact hweak rfl settles_modifiers
  | baseList => exact hweak rfl settles_baseList
  | block => exact consumes_block.settlesBy
  | memberName => exact consumes_memberName.settlesBy
  | parameters => exact consumes_parameters.settlesBy
  | body returns => exact (consumes_body returns).settlesBy
  | usingDirective => exact consumes_usingDirective.settlesBy
  | typeReference => exact consumes_typeReference.settlesBy
  | typeArguments => exact consumes_typeArguments.settlesBy
  | constraints => exact hweak rfl settles_constraints
  | group => exact consumes_group.settlesBy
  | expression stops => exact (consumes_expression stops).settlesBy
  | initializer => exact consumes_initializer.settlesBy
  | restOfMember => exact consumes_restOfMember.settlesBy
  | statement => exact consumes_statement.settlesBy
  | simpleStatement => exact consumes_simpleStatement.settlesBy

end Parser

/-- A session stands before a token or at the end of the text. -/
theorem Tokenized.length_rows (t : Tokenized) : t.rows.length = t.tokens.length + 1 := by
  simp [Tokenized.rows]

namespace Session

variable {α : Type}

/-- The session of a source text that stands before the row `i`, the
last of which is the end. -/
def before (t : Tokenized) (usings : List String) (i : Fin t.rows.length) : Session :=
  ⟨t, t.tokens.drop i, usings⟩

/-- The session before a given row has its position. -/
@[simp]
theorem position_before (t : Tokenized) (usings : List String) (i : Fin t.rows.length) :
    (before t usings i).position = i := by
  have hi : i.val < t.tokens.length + 1 := t.length_rows ▸ i.isLt
  simp only [position, before, List.length_drop]
  omega

/-- The last tokens from a row on are those from a later row on. -/
theorem exists_row_of_suffix {t : Tokenized} {i : Fin t.rows.length} {rest : List Token}
    (h : rest <:+ t.tokens.drop i) : ∃ j : Fin t.rows.length, i ≤ j ∧ rest = t.tokens.drop j ∧
      (rest.length < (t.tokens.drop i).length → i < j) := by
  have hlen : rest.length ≤ t.tokens.length - i := List.length_drop ▸ h.length_le
  have hi : i.val < t.tokens.length + 1 := t.length_rows ▸ i.isLt
  refine ⟨⟨t.tokens.length - rest.length, by rw [t.length_rows]; omega⟩, ?_, ?_, fun hlt => ?_⟩
  · show i.val ≤ t.tokens.length - rest.length
    omega
  · exact List.suffix_iff_eq_drop.mp (h.trans (List.drop_suffix _ _))
  · rw [List.length_drop] at hlt
    show i.val < t.tokens.length - rest.length
    omega

/-- **A rule that is applied to a session moves it on, or fails at a token**,
wherever the session stands. -/
theorem apply_settles (t : Tokenized) (usings : List String) (i : Fin t.rows.length)
    (rule : Rule α) :
    (∃ a, ∃ j ≥ i, (before t usings i).apply rule.parser = .ok (a, before t usings j) ∧
      (rule.advances = true → i < j)) ∨
    ∃ problem, ∃ j ≥ i, (before t usings i).apply rule.parser =
      .error (.grammar ⟨problem, t.tokens.drop j⟩ t.stop) ∧ problem ≠ .stalled := by
  have hsettles := Parser.settlesBy_rule rule (t.tokens.drop i)
  cases hrun : rule.parser (t.tokens.drop i) with
  | ok r =>
    obtain ⟨a, rest⟩ := r
    obtain ⟨hrest, hlt⟩ := hsettles.ok hrun
    obtain ⟨j, hij, rfl, hj⟩ := exists_row_of_suffix hrest
    exact .inl ⟨a, j, hij, by simp [apply, before, hrun], fun h => hj (hlt h)⟩
  | error e =>
    obtain ⟨hleft, hproblem⟩ := hsettles.error hrun
    obtain ⟨problem, left⟩ := e
    obtain ⟨j, hij, rfl, -⟩ := exists_row_of_suffix hleft
    exact .inr ⟨problem, j, hij, by simp [apply, before, hrun], hproblem⟩

end Session

end SharpScript
