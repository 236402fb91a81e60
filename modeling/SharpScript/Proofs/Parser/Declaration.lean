import SharpScript.Proofs.Parser.Member

/-! # Two runs of declarations

The rules for types and namespaces give trees that agree in both runs of a comparison.

## Main Results

* `Comparison.sim_member`: members, with the types that are nested in them;
* `Comparison.sim_typeDeclaration`: types;
* `Comparison.sim_usingDirective`: using directives;
* `Comparison.sim_nodes`: **what stands in a namespace**, and thus all of a source text.
-/

namespace SharpScript

/-- What is left of a head starts with one of the signs that it is read up to. -/
theorem Parser.restOfHead_reads {stops : List String} {ts rest : List Token}
    (h : restOfHead stops ts = .ok ((), rest)) : Ahead.readsAny stops rest = true := by
  obtain ⟨mid, hlast⟩ := repeatWhile_last h
  obtain ⟨b, _, hb, hlast⟩ := bind_eq_ok.mp hlast
  cases hb
  split at hlast
  · cases hlast
    assumption
  · -- Every other round asks for another one.
    obtain ⟨b, _, hb, hlast⟩ := bind_eq_ok.mp hlast
    cases hb
    split at hlast
    · cases hlast
    · obtain ⟨b, _, hb, hlast⟩ := bind_eq_ok.mp hlast
      split at hlast
      · obtain ⟨_, _, -, hpure⟩ := bind_eq_ok.mp hlast
        cases hpure
      · obtain ⟨_, _, -, hpure⟩ := bind_eq_ok.mp hlast
        cases hpure

namespace Comparison

variable {C : Comparison} {ts us : List Token}

/-! ## Types -/

/-- The bases end before the brace, or there are none. -/
theorem sim_baseList : C.Sim .open_ (List.Forall₂ C.text) Parser.baseList Parser.baseList := by
  intro ts us ht
  refine At.ifAccept (c := .keen) (d := .open_) ht (by decide) ?_
    (fun _ => at_pure_by .nil (by decide)) (by decide) (by decide)
  have hbase := sim_trim_text ((sim_typeReference (C := C)).verbatim_text ⟨rfl, rfl⟩)
  refine SimBy.collect (c := .keen) (k := .keen) (r := .open_) ?_ (sim_accept (by decide))
    (by decide) (by decide) (by decide) (by decide)
  refine hbase.bind (d := fun _ => .open_) (fun _ _ h => ?_) fun _ => by decide
  exact sim_optional (test_reads (by decide)) sim_group (sim_pure h).opened
    (by decide) (by decide)

/-- A class or an interface, given its members: it ends with a brace, behind which a `;` may
come. -/
theorem sim_typeBody {member member' : String → Parser Item}
    (hmember : ∀ owner, C.Sim .keen (Item.Agrees C.text C.code) (member owner) (member' owner))
    (sort : TypeSort) {l l' : Lead} (hlead : l.Agrees C.text C.code l') :
    C.Sim .closing (Item.Agrees C.text C.code) (Parser.typeBody member sort l)
      (Parser.typeBody member' sort l') := by
  refine sim_identifier.bind (d := fun _ => .closing) (fun t u htu => ?_) fun _ => by decide
  rw [← (Prod.mk.inj htu).2]
  refine sim_optional (d := .closing) (test_reads (by decide)) sim_typeArguments ?_ (by decide)
    (by decide)
  refine sim_optional (d := .closing) (test_reads (by decide)) sim_group ?_
    (by decide) (by decide)
  refine sim_baseList.bind (d := fun _ => .closing) (fun _ _ hbases => ?_) fun _ => by decide
  refine sim_constraints.bind (d := fun _ => .closing) (fun _ _ _ => ?_) fun _ => by decide
  refine (sim_expect (by decide)).bind (d := fun _ => .closing) (fun _ _ _ => ?_)
    fun _ => by decide
  refine SimBy.bind (c := fun _ => .open_) (d := fun _ => .closing)
    (V := ItemsAgree C.text C.code) ?_ (fun _ _ hitems => ?_) fun _ => by decide
  · refine SimBy.gather (d := .keen) (e := .open_) (fun ts us ht => ?_) (by decide) (by decide)
      .nil fun h h' => h.append h'
    refine AtBy.branch ht (test_reads (by decide))
      (fun _ => at_pure_by .none (by decide)) ?_ ?_
    · intro _
      refine AtBy.unless_end ht fun _ => ?_
      refine AtBy.ifAccept (c := fun _ => .still) (d := perItem .keen .open_) ht (by decide)
        (sim_pure (.some .nil)) (fun _ => ?_) ?_ ?_
      · exact (hmember t.text ts us ht).map ht (fun _ _ h => .some (.cons h .nil))
          fun _ => .refl _
      · rintro (_ | _)
        · exact (by decide : Contract.Fits (.word ";") .still .open_)
        · exact (by decide : Contract.Fits (.word ";") .still .keen)
      · rintro (_ | _)
        · exact ⟨.inr rfl, .refl _, .refl _⟩
        · exact ⟨.inl rfl, .refl _, .refl _⟩
    · rintro (_ | _) <;> exact .inr rfl
  · refine (sim_expect (by decide)).bind (d := fun _ => .semicolon) (fun _ _ _ => ?_)
      fun _ => by decide
    exact sim_semicolon.map (fun _ _ _ => .type sort hlead t.text hbases hitems)
      fun _ => .refl _

/-- The name and the value of a member of an enumeration. -/
theorem sim_enumValue : C.Sim ⟨none, true, true, false, false⟩
    (fun r r' => r.1 = r'.1 ∧ Option.Rel C.code r.2 r'.2)
    (do
      let name ← Parser.identifier
      let value ← if ← Parser.accept "=" then
          pure (some (← Parser.verbatim (Parser.expression [",", Text.closeBrace])))
        else pure none
      return (name.text, value))
    (do
      let name ← Parser.identifier
      let value ← if ← Parser.accept "=" then
          pure (some (← Parser.verbatim (Parser.expression [",", Text.closeBrace])))
        else pure none
      return (name.text, value)) := by
  have hvalue :=
    (sim_expression (C := C) [",", Text.closeBrace]).verbatim_code ⟨⟨rfl, rfl⟩, rfl⟩
  refine sim_identifier.bind (d := fun _ => ⟨none, false, true, false, false⟩)
    (fun t u htu ts us ht => ?_) fun _ => by decide
  have hname : t.text = u.text := (Prod.mk.inj htu).2
  refine At.ifAccept (c := .plain) (d := .absent "=") ht (by decide) ?_ ?_
    (by decide) (by decide)
  · exact hvalue.map (fun _ _ h => ⟨hname, .some h⟩) fun _ => .refl _
  · exact fun _ => at_pure_by ⟨hname, .none⟩ (by decide)

/-- A member of an enumeration may have a value, which ends before a comma or the brace. -/
theorem sim_enumMember : C.Sim .keen (EnumMember.Agrees C.code) Parser.enumMember
    Parser.enumMember := by
  refine sim_attributeLists.bind (d := fun _ => .keen) (fun _ _ _ ts us ht => ?_)
    fun _ => by decide
  refine at_here.bind (d := fun _ => .keen) ht (fun _ _ _ => ?_) fun _ => by decide
  exact (sim_enumValue.spelled fun _ => ⟨rfl, rfl⟩).map
    (fun r r' h => ⟨h.1.1, h.1.2, h.2.2 rfl⟩) fun _ =>
    (by decide : Contract.Le ⟨none, true, true, false, false⟩ .keen)

/-- An enumeration ends as a class does. -/
theorem sim_enumBody {l l' : Lead} (hlead : l.Agrees C.text C.code l') :
    C.Sim .closing (Item.Agrees C.text C.code) (Parser.enumBody l) (Parser.enumBody l') := by
  refine sim_identifier.bind (d := fun _ => .closing) (fun t u htu => ?_) fun _ => by decide
  rw [← (Prod.mk.inj htu).2]
  refine sim_acceptOptional (d := .closing) (e := .closing) (by decide) sim_typeReference ?_
    (by decide) (by decide) (by decide)
  refine (sim_expect (by decide)).bind (d := fun _ => .closing) (fun _ _ _ => ?_)
    fun _ => by decide
  have hclose : ∀ {ms ms' : List EnumMember}, List.Forall₂ (EnumMember.Agrees C.code) ms ms' →
      C.Sim .closing (Item.Agrees C.text C.code)
        (do
          Parser.expect Text.closeBrace
          let _ ← Parser.accept ";"
          return .enumeration l t.text ms)
        (do
          Parser.expect Text.closeBrace
          let _ ← Parser.accept ";"
          return .enumeration l' t.text ms') := by
    intro ms ms' hmembers
    refine (sim_expect (by decide)).bind (d := fun _ => .semicolon) (fun _ _ _ => ?_)
      fun _ => by decide
    exact sim_semicolon.map (fun _ _ _ => .enumeration hlead t.text hmembers) fun _ => .refl _
  intro ts us ht
  refine AtBy.branch ht (test_reads (by decide)) (fun _ => hclose .nil ts us ht) ?_
    fun _ => .inl rfl
  intro _
  have hmembers := (sim_enumMember (C := C)).collect (k := .keen) (r := .open_) (e := .open_)
    (sim_commaBefore Text.closeBrace) (by decide) (by decide) (by decide) (by decide)
  exact hmembers.bind (fun _ _ h => hclose h) (fun _ => by decide) ts us ht

/-- A type that is passed over ends as a class does. -/
theorem sim_skippedType (pos pos' : Pos) (kind : String) :
    C.Sim .closing (Item.Agrees C.text C.code) (Parser.skippedType pos kind)
      (Parser.skippedType pos' kind) := by
  refine sim_advance.bind (d := fun _ => .closing) (fun _ _ _ => ?_) fun _ => by decide
  refine sim_optional (d := .closing) (test_readsAny (by decide)) sim_advance ?_ (by decide)
    (by decide)
  refine sim_identifier.bind (d := fun _ => .closing) (fun t u htu ts us ht => ?_)
    fun _ => by decide
  have hdone : C.Sim .semicolon (Item.Agrees C.text C.code)
      (do let _ ← Parser.accept ";"; return .skipped pos t.text (some kind))
      (do let _ ← Parser.accept ";"; return .skipped pos' u.text (some kind)) := by
    rw [← (Prod.mk.inj htu).2]
    exact sim_semicolon.map (fun _ _ _ => .skipped pos pos' t.text (some kind))
      fun _ => .refl _
  refine (sim_restOfHead (by decide) ts us ht).bind_at (d := fun _ _ => .closing) ht
    fun _ _ n _ hn hhead => .inl ⟨?_, fun _ _ _ _ => by decide⟩
  -- The head ends at `{`, which opens a group, or at `;`, which is passed over.
  have hstop := Parser.restOfHead_reads hhead
  have ht' := C.drop n ht hn
  refine AtBy.branch ht' (test_reads (by decide)) ?_ ?_ fun _ => .inl rfl
  · exact fun _ => (sim_group _ _ ht').bind ht' (fun _ _ _ => hdone) fun _ => by decide
  · intro hopen
    have hsemi : Ahead.reads ";" (ts.drop n) = true := by
      simpa [Ahead.readsAny, hopen] using hstop
    rw [← (Prod.mk.inj htu).2]
    refine At.ifAccept (c := .still) (d := .closing) ht' (by decide)
      (sim_pure (.skipped pos pos' t.text (some kind))) (fun hfalse => ?_)
      (by decide) (by decide)
    rw [hsemi] at hfalse
    cases hfalse

theorem sim_skippedDelegate (pos pos' : Pos) :
    C.Sim .closing (Item.Agrees C.text C.code) (Parser.skippedDelegate pos)
      (Parser.skippedDelegate pos') := by
  refine sim_typeReference.bind (d := fun _ => .closing) (fun _ _ _ => ?_) fun _ => by decide
  refine sim_identifier.bind (d := fun _ => .closing) (fun t u htu => ?_) fun _ => by decide
  rw [← (Prod.mk.inj htu).2]
  exact sim_restOfMember.map (fun _ _ _ => .skipped pos pos' t.text (some "delegate"))
    fun _ => .refl _

/-- **Types agree in both runs.**  Where a token is left behind it, nothing is read
if no type comes next. -/
theorem sim_typeDeclaration {member member' : String → Parser Item}
    (hmember : ∀ owner, C.Sim .keen (Item.Agrees C.text C.code) (member owner) (member' owner))
    {l l' : Lead} (hlead : l.Agrees C.text C.code l') :
    C.SimBy (perItem .closing .open_) (Option.Rel (Item.Agrees C.text C.code))
      (Parser.typeDeclaration member l) (Parser.typeDeclaration member' l') := by
  intro ts us ht
  have hsome : ∀ {p q : Parser Item}, C.Sim .closing (Item.Agrees C.text C.code) p q →
      C.SimBy (perItem .closing .open_) (Option.Rel (Item.Agrees C.text C.code))
        (do return some (← p)) (do return some (← q)) :=
    fun h => h.map (fun _ _ h => .some h) fun _ => .refl _
  have hword : ∀ (w : String) {p q : Parser Item} {r r' : Parser (Option Item)}, w ≠ "" →
      C.Sim .closing (Item.Agrees C.text C.code) p q →
      C.AtBy (perItem .closing .open_) (Option.Rel (Item.Agrees C.text C.code)) r r' ts us →
      C.AtBy (perItem .closing .open_) (Option.Rel (Item.Agrees C.text C.code))
        (do if ← Parser.accept w then return some (← p) else r)
        (do if ← Parser.accept w then return some (← q) else r') ts us := by
    intro w p q r r' hw hp hr
    refine AtBy.ifAccept (c := perItem .closing .still) (d := perItem .closing .open_) ht hw
      (hp.map (fun _ _ h => .some h) fun _ => .refl _) (fun _ => hr) ?_ ?_
    · rintro (_ | _)
      · exact ⟨rfl, .inr rfl, rfl, nofun, nofun, nofun, nofun⟩
      · exact ⟨rfl, .inl rfl, rfl, fun _ => .inl rfl, nofun,
          fun _ => ⟨rfl, .inl rfl⟩, fun _ => rfl⟩
    · rintro (_ | _)
      · exact ⟨.inr rfl, .refl _, .refl _⟩
      · exact ⟨.inl rfl, .refl _, .refl _⟩
  have hside : ∀ a : Option Item, (perItem .closing .open_ a).progress = true ∨
      Contract.followLe none (perItem .closing .open_ a).follow = true := by
    rintro (_ | _)
    · exact .inr rfl
    · exact .inl rfl
  refine hword "class" (by decide) (sim_typeBody hmember _ hlead) ?_
  refine hword "interface" (by decide) (sim_typeBody hmember _ hlead) ?_
  refine hword "enum" (by decide) (sim_enumBody hlead) ?_
  refine AtBy.branch ht (test_of_tame (tame_reads _) rfl) ?_ ?_ hside
  · exact fun _ => hsome (sim_skippedType _ _ _) ts us ht
  intro _
  refine AtBy.branch ht (test_of_tame Parser.tame_startsRecord rfl) ?_ ?_ hside
  · exact fun _ => hsome (sim_skippedType _ _ _) ts us ht
  intro _
  exact hword "delegate" (by decide) (sim_skippedDelegate _ _) (at_pure_by .none (by decide))

/-- One member, given the members in it. -/
theorem sim_memberStep {member member' : String → Parser Item}
    (hmember : ∀ owner, C.Sim .keen (Item.Agrees C.text C.code) (member owner) (member' owner))
    (owner : String) : C.Sim .keen (Item.Agrees C.text C.code) (Parser.memberStep member owner)
      (Parser.memberStep member' owner) := by
  refine sim_lead.bind (d := fun _ => .keen) (fun l l' hlead ts us ht => ?_) fun _ => by decide
  have htype :=
    (sim_typeDeclaration hmember hlead ts us ht).tight (d := perItem .keen .open_) ht (by
    rintro (_ | _)
    · exact ⟨rfl, by decide⟩
    · exact ⟨rfl, rfl, fun _ => rfl, nofun, nofun, nofun⟩)
  refine htype.bind_cases (d := fun _ _ => .keen) ht fun a b hab => ?_
  cases hab with
  | some h => exact .inr ⟨_, _, rfl, rfl, h, .refl _⟩
  | none =>
    refine .inl
      ⟨(sim_memberForm owner).map (fun _ _ h => .member ⟨hlead, h⟩) fun _ => .refl _, ?_⟩
    exact fun _ _ _ _ => (by decide : Contract.Fits .open_ .keen .keen)

/-- Members agree in both runs, also those that are types. -/
theorem sim_member (owner : String) :
    C.Sim .keen (Item.Agrees C.text C.code) (Parser.member owner) (Parser.member owner) :=
  SimBy.fix (fun _ _ hpq owner => sim_memberStep hpq owner) owner

/-! ## Namespaces -/

end Comparison

namespace Parser

/-- One round of a using directive: a token that is not its `;`. -/
def directiveRound : Parser Bool := do
  if ← isAt ";" then return false
  else if ← atEnd then fail (.expected (.word ";"))
  else
    advance
    return true

theorem usingDirective_eq :
    usingDirective = verbatim (repeatWhile directiveRound >>= fun _ => advance) := rfl

/-- One round of a directive reads a token, unless it is the `;`. -/
theorem directiveRound_eq_ok {ts rest : List Token} {b : Bool}
    (h : directiveRound ts = .ok (b, rest)) :
    (b = false ∧ rest = ts ∧ Ahead.reads ";" ts = true) ∨
      ∃ t, b = true ∧ ts = t :: rest ∧ t.reads ";" = false := by
  obtain ⟨_, _, hread, h⟩ := bind_eq_ok.mp h
  cases hread
  split at h
  · cases h
    exact .inl ⟨rfl, rfl, ‹_›⟩
  · cases ts with
    | nil => cases h
    | cons t ts =>
      cases h
      exact .inr ⟨t, rfl, rfl, Bool.not_eq_true _ ▸ ‹_›⟩

theorem directiveRound_lt {ts rest : List Token} (h : directiveRound ts = .ok (true, rest)) :
    rest.length < ts.length := by
  obtain ⟨hb, -⟩ | ⟨t, -, rfl, -⟩ := directiveRound_eq_ok h
  · cases hb
  · exact Nat.lt_succ_self _

/-- A using directive is passed over up to a `;`. -/
theorem directive_stops {ts rest : List Token}
    (h : repeatWhile directiveRound ts = .ok ((), rest)) :
    Ahead.reads ";" rest = true := by
  obtain ⟨mid, hlast⟩ := repeatWhile_last h
  obtain ⟨-, rfl, hread⟩ | ⟨_, hb, -⟩ := directiveRound_eq_ok hlast
  · exact hread
  · cases hb

end Parser

namespace Comparison

variable {C : Comparison} {ts us : List Token}

/-- A using directive ends with its `;`. -/
theorem sim_usingDirective :
    C.Sim .closed C.text Parser.usingDirective Parser.usingDirective := by
  refine SimBy.verbatim_text (V := fun _ _ => True) (fun ts us ht => ?_) ⟨rfl, rfl⟩
  refine AtBy.bind_at (c := fun _ => .before []) (d := fun _ _ => .word ";")
    (V := fun _ _ => True) ht ?_ fun _ _ n _ hn hloop => .inl ⟨?_, fun _ _ _ _ => by decide⟩
  · refine SimBy.repeatWhile (d := fun b => if b then .firm else .before [])
      (fun ts us ht => ?_) (by decide) (by decide) ts us ht
    refine AtBy.ite (c := fun b => if b then .firm else .before []) (d := fun _ => .firm) ht
      (test_reads (by decide)) (fun _ => at_pure_by rfl (by decide)) (fun _ => ?_) (by decide)
    refine AtBy.unless_end ht fun hts => ?_
    obtain ⟨t, rest, rfl⟩ := List.exists_cons_of_ne_nil hts
    exact (at_advance ht (spans_firm t)).map ht (fun _ _ _ => rfl) fun _ => .refl _
  · have ht' := C.drop n ht hn
    obtain ⟨t, rest, hdrop, hread⟩ := exists_reads (by decide) (Parser.directive_stops hloop)
    rw [hdrop] at ht' ⊢
    exact at_advance ht' (spans_word hread)

/-- Where no token is left, a rule that gives a value is compared in a
strict comparison only. -/
theorem at_end {α : Type} {V : α → α → Prop} {c : α → Contract} {p q : Parser α} {a b : α}
    (ht : C.tokens [] us) (hp : p [] = .ok (a, [])) (hq : q [] = .ok (b, [])) (hv : V a b)
    (hc : (c a).follow = none ∧ (c a).progress = false) : C.AtBy c V p q [] us where
  ok h := by
    rw [hp] at h
    cases h
    refine ⟨0, b, le_refl _, rfl, Contract.spans_nil hc.2, hv, fun hmet => ?_⟩
    rcases hmet with hs | hmet | ⟨_, hmet, -⟩
    · obtain rfl : us = [] := List.length_eq_zero_iff.mp (C.whole ht hs).symm
      exact ⟨[], hq, .inl rfl⟩
    · exact absurd rfl hmet
    · rw [hc.1] at hmet
      cases hmet
  error h := by
    rw [hp] at h
    cases h

/-- Declarations that agree, with the using directives in them. -/
def NodeAgrees (C : Comparison) (r r' : Item × List String) : Prop :=
  Item.Agrees C.text C.code r.1 r'.1 ∧ List.Forall₂ C.text r.2 r'.2

end Comparison

namespace Parser

/-- One round of `nodesWith`. -/
def nodeRound (node : Parser (Item × List String)) (closing : Bool) :
    Parser (Option CompilationUnit) := do
  if ← atEnd then
    if closing then fail (.expected (.word Text.closeBrace)) else return none
  else if closing && (← isAt Text.closeBrace) then return none
  else if ← accept ";" then return some ∅
  else if ← ahead startsUsing then return some ⟨[← usingDirective], []⟩
  else if ← ahead fun ts => Ahead.reads "extern" ts && Ahead.text 1 ts == "alias" then
    restOfMember
    return some ∅
  else
    let (item, usings) ← node
    return some ⟨usings, [item]⟩

theorem nodesWith_eq (node : Parser (Item × List String)) (closing : Bool) :
    nodesWith node closing = gather (nodeRound node closing) := rfl

/-- The head of a namespace: its dotted name. -/
def scopeHead : Parser String := do
  expect "namespace"
  let parts ← collect (Token.text <$> identifier) (accept ".")
  return ".".intercalate parts

theorem namespaceWith_eq (node : Parser (Item × List String)) (pos : Pos) :
    namespaceWith node pos = (do
      let name ← scopeHead
      if ← accept ";" then
        let inner ← nodesWith node false
        return (.scope pos name inner.items, inner.usings)
      else
        expect Text.openBrace
        let inner ← nodesWith node true
        expect Text.closeBrace
        return (.scope pos name inner.items, inner.usings)) := by
  unfold namespaceWith scopeHead
  simp only [bind_assoc, pure_bind]

end Parser

namespace Comparison

variable {C : Comparison} {ts us : List Token}

theorem test_startsUsing : Test none Parser.startsUsing :=
  test_of_tame Parser.tame_startsUsing rfl

theorem test_startsAlias :
    Test none fun ts => Ahead.reads "extern" ts && Ahead.text 1 ts == "alias" :=
  test_of_tame (tame_reads_text (by decide) (· == "alias")) rfl

/-- One round of a namespace, given one declaration. -/
theorem sim_nodeRound {node node' : Parser (Item × List String)}
    (hnode : C.Sim .keen (NodeAgrees C) node node') (closing : Bool) :
    C.SimBy (perItem .keen .open_) (Option.Rel (CompilationUnit.Agrees C.text C.code))
      (Parser.nodeRound node closing) (Parser.nodeRound node' closing) := by
  intro ts us ht
  have hside : ∀ {ws : Option (List String)} (a : Option CompilationUnit),
      (perItem .keen .open_ a).progress = true ∨
        Contract.followLe ws (perItem .keen .open_ a).follow = true := by
    rintro ws (_ | _) <;> exact .inr rfl
  cases ts with
  | nil =>
    cases closing with
    | true => exact at_nil ht rfl rfl
    | false => exact at_end ht rfl rfl .none ⟨rfl, rfl⟩
  | cons t ts =>
    have hts : t :: ts ≠ [] := List.cons_ne_nil _ _
    refine AtBy.ahead ht tame_isEmpty ?_ (.inl hts)
    refine AtBy.ahead ht (tame_reads _) ?_ (.inl hts)
    split
    · exact at_pure_by .none (by decide)
    refine AtBy.ifAccept (c := fun _ => .still) (d := perItem .keen .open_) ht (by decide)
      (sim_pure (.some CompilationUnit.agrees_empty)) (fun _ => ?_) ?_ ?_
    · refine AtBy.branch ht test_startsUsing ?_ ?_ hside
      · exact fun _ => (sim_usingDirective _ _ ht).map ht
          (fun _ _ h => .some ⟨.cons h .nil, .nil⟩) fun _ =>
          (by decide : Contract.closed.Le .keen)
      intro _
      refine AtBy.branch ht test_startsAlias ?_ ?_ hside
      · intro _
        have hrest := (sim_restOfMember _ _ ht).tight (d := fun _ => .keen) ht
          fun _ => ⟨rfl, by decide⟩
        exact hrest.map ht (fun _ _ _ => .some CompilationUnit.agrees_empty) fun _ => .refl _
      · exact fun _ => (hnode _ _ ht).map ht
          (fun _ _ h => .some ⟨h.2, .cons h.1 .nil⟩) fun _ => .refl _
    · rintro (_ | _)
      · exact (by decide : Contract.Fits (.word ";") .still .open_)
      · exact (by decide : Contract.Fits (.word ";") .still .keen)
    · rintro (_ | _)
      · exact ⟨.inr rfl, .refl _, .refl _⟩
      · exact ⟨.inl rfl, .refl _, .refl _⟩

/-- What stands in a namespace, given one declaration. -/
theorem sim_nodesWith {node node' : Parser (Item × List String)}
    (hnode : C.Sim .keen (NodeAgrees C) node node') (closing : Bool) :
    C.Sim .open_ (CompilationUnit.Agrees C.text C.code) (Parser.nodesWith node closing)
      (Parser.nodesWith node' closing) :=
  (sim_nodeRound hnode closing).gather (by decide) (by decide) CompilationUnit.agrees_empty
    fun h h' => h.append h'

/-- The dotted name of a namespace. -/
theorem sim_scopeHead : C.Sim .keen Eq Parser.scopeHead Parser.scopeHead := by
  have hname : C.Sim .plain Eq (Token.text <$> Parser.identifier)
      (Token.text <$> Parser.identifier) := by
    rw [map_eq_pure_bind]
    exact sim_identifier.map (fun _ _ h => (Prod.mk.inj h).2) fun _ => .refl _
  have hparts : C.Sim .keen (List.Forall₂ Eq)
      (Parser.collect (Token.text <$> Parser.identifier) (Parser.accept "."))
      (Parser.collect (Token.text <$> Parser.identifier) (Parser.accept ".")) :=
    hname.collect (k := .keen) (r := .open_) (sim_accept (by decide)) (by decide) (by decide)
      (by decide) (by decide)
  refine (sim_expect (by decide)).bind (d := fun _ => .keen) (fun _ _ _ => ?_)
    fun _ => by decide
  refine hparts.map (fun parts parts' h => ?_) fun _ => .refl _
  rw [List.forall₂_eq_eq_eq] at h
  rw [h]

/-- A namespace between braces, behind its head. -/
theorem sim_bracedScope {node node' : Parser (Item × List String)}
    (hnode : C.Sim .keen (NodeAgrees C) node node') (pos pos' : Pos) (name : String) :
    C.Sim .closed (NodeAgrees C)
      (do
        Parser.expect Text.openBrace
        let inner ← Parser.nodesWith node true
        Parser.expect Text.closeBrace
        return (.scope pos name inner.items, inner.usings))
      (do
        Parser.expect Text.openBrace
        let inner ← Parser.nodesWith node' true
        Parser.expect Text.closeBrace
        return (.scope pos' name inner.items, inner.usings)) := by
  refine (sim_expect (by decide)).bind (d := fun _ => .closed) (fun _ _ _ => ?_)
    fun _ => by decide
  refine (sim_nodesWith hnode true).bind (d := fun _ => .closed) (fun _ _ h => ?_)
    fun _ => by decide
  exact (sim_expect (by decide)).map (fun _ _ _ => ⟨.scope pos pos' name h.items, h.usings⟩)
    fun _ => by decide

/-- A namespace with braces, or one for the rest of a file. -/
theorem sim_namespaceWith {node node' : Parser (Item × List String)}
    (hnode : C.Sim .keen (NodeAgrees C) node node') (pos pos' : Pos) :
    C.Sim .keen (NodeAgrees C) (Parser.namespaceWith node pos)
      (Parser.namespaceWith node' pos') := by
  rw [Parser.namespaceWith_eq, Parser.namespaceWith_eq]
  refine sim_scopeHead.bind (d := fun _ => .open_) (fun name _ hname ts us ht => ?_)
    fun _ => by decide
  subst hname
  refine At.ifAccept (c := .open_) (d := .open_) ht (by decide) ?_ (fun _ => ?_)
    (by decide) (by decide)
  · exact (sim_nodesWith hnode false).map
      (fun _ _ h => ⟨.scope pos pos' name h.items, h.usings⟩) fun _ => .refl _
  · exact (sim_bracedScope hnode pos pos' name).opened ts us ht

/-- One declaration of a namespace, given those in it. -/
theorem sim_nodeStep {node node' : Parser (Item × List String)}
    (hnode : C.Sim .keen (NodeAgrees C) node node') :
    C.Sim .keen (NodeAgrees C) (Parser.nodeStep node) (Parser.nodeStep node') := by
  refine sim_lead.bind (d := fun _ => .keen) (fun l l' hlead ts us ht => ?_) fun _ => by decide
  refine AtBy.branch ht (test_reads (by decide)) ?_ ?_ fun _ => .inl rfl
  · exact fun _ => sim_namespaceWith hnode _ _ ts us ht
  intro _
  have htype :=
    (sim_typeDeclaration sim_member hlead ts us ht).tight (d := perItem .keen .open_) ht (by
    rintro (_ | _)
    · exact ⟨rfl, by decide⟩
    · exact ⟨rfl, rfl, fun _ => rfl, nofun, nofun, nofun⟩)
  refine htype.bind_cases (d := fun _ _ => .keen) ht fun a b hab => ?_
  cases hab with
  | some h => exact .inr ⟨_, _, rfl, rfl, ⟨h, .nil⟩, .refl _⟩
  | none =>
    refine .inl ⟨sim_statement.map (fun _ _ _ => ⟨.skipped _ _ "" _, .nil⟩)
      fun _ => by decide, ?_⟩
    exact fun _ _ _ _ => (by decide : Contract.Fits .open_ .keen .keen)

/-- **Both runs read the same declaration.** -/
theorem sim_node : C.Sim .keen (NodeAgrees C) Parser.node Parser.node :=
  SimBy.fix (fun _ _ hpq _ => sim_nodeStep (hpq ())) ()

/-- **What stands in a namespace agrees in both runs.** -/
theorem sim_nodes (closing : Bool) : C.Sim .open_ (CompilationUnit.Agrees C.text C.code)
    (Parser.nodes closing) (Parser.nodes closing) :=
  sim_nodesWith sim_node closing

end Comparison

end SharpScript
