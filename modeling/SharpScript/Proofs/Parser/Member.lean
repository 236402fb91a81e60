import SharpScript.Parser.Declaration
import SharpScript.Proofs.Parser.Skip
import SharpScript.Proofs.Tree.Agreement

/-! # Two runs of members

The rules for annotations, modifiers and members give trees that agree in
both runs of a comparison.

## Main Results

* `Comparison.sim_lead`: annotations and modifiers;
* `Comparison.sim_parameters`, `Comparison.sim_body`: parameters and bodies;
* `Comparison.at_memberName`: a name, with the rule that is behind it;
* `Comparison.sim_memberForm`: **members that are no types**.

## Design Notes

A member stands between braces, so there is a token behind it.  The contracts of
the rules for members therefore ask for one, and need not say which words they look
for behind what they read.
-/

namespace SharpScript

namespace Comparison

variable {C : Comparison} {ts us : List Token}

/-! ## Parts -/

/-- Blanks around a piece of code may be taken away. -/
theorem sim_trim_code {c : Contract} {p q : Parser String} (h : C.Sim c C.code p q) :
    C.Sim c C.code (Text.trim <$> p) (Text.trim <$> q) := by
  rw [map_eq_pure_bind, map_eq_pure_bind]
  exact h.map (fun _ _ h => C.code_trim h) fun _ => .refl c

theorem sim_trim_text {c : Contract} {p q : Parser String} (h : C.Sim c C.text p q) :
    C.Sim c C.text (Text.trim <$> p) (Text.trim <$> q) := by
  rw [map_eq_pure_bind, map_eq_pure_bind]
  exact h.map (fun _ _ h => C.text_trim h) fun _ => .refl c

/-- Where a token is left behind a rule, it does not matter what the rule looks for there. -/
theorem SimBy.opened {α : Type} {c : α → Contract} {V : α → α → Prop} {p q : Parser α}
    (h : C.SimBy c V p q) : C.Sim .open_ V p q :=
  fun ts us ht => (h ts us ht).tight ht fun _ => ⟨rfl, rfl, nofun, nofun, nofun, nofun⟩

/-- The next token is passed over, if there is one. -/
theorem sim_advance : C.Sim .open_ (fun _ _ => True) Parser.advance Parser.advance := by
  intro ts us ht
  cases ts with
  | nil =>
    refine ⟨fun hp => ?_, nofun⟩
    cases hp
    refine ⟨0, (), le_refl _, rfl, Contract.spans_nil rfl, trivial, fun hmet => ?_⟩
    rcases hmet with hs | hmet | ⟨_, hmet, -⟩
    · obtain rfl : us = [] := List.length_eq_zero_iff.mp (C.whole ht hs).symm
      exact ⟨[], rfl, .inl rfl⟩
    · exact absurd rfl hmet
    · cases hmet
  | cons t ts => exact (at_advance ht (spans_firm t)).weaken fun _ => by decide

end Comparison

/-- Items between round brackets, with commas between them. -/
def Parser.listed {α : Type} (item : Parser α) : Parser (List α) := do
  expect "("
  if ← accept ")" then
    return []
  else
    let items ← collect item (accept ",")
    expect ")"
    return items

namespace Comparison

variable {C : Comparison} {ts us : List Token}

/-- A list in round brackets, which ends with the bracket. -/
theorem sim_listed {α : Type} {c : Contract} {V : α → α → Prop} {item item' : Parser α}
    (h : C.Sim c V item item') :
    C.Sim .firm (List.Forall₂ V) (Parser.listed item) (Parser.listed item') := by
  have hitems : C.Sim .open_ (List.Forall₂ V) (Parser.collect item (Parser.accept ","))
      (Parser.collect item' (Parser.accept ",")) :=
    h.opened.collect (k := .keen) (r := .open_) (sim_accept (by decide)) (by decide)
      (by decide) (by decide) (by decide)
  refine (sim_expect (by decide)).bind (d := fun _ => .firm) (fun _ _ _ ts us ht => ?_)
    fun _ => by decide
  refine At.ifAccept (c := .still) (d := .firm) ht (by decide) (sim_pure .nil) (fun _ => ?_)
    (by decide) (by decide)
  refine hitems.bind (d := fun _ => .firm) (fun _ _ h => ?_) (fun _ => by decide) ts us ht
  exact (sim_expect (by decide)).map (fun _ _ _ => h) fun _ => by decide

/-! ## Annotations and modifiers -/

/-- Arguments are expressions before commas and the closing bracket. -/
theorem sim_attributeArguments : C.Sim .firm (List.Forall₂ C.code) Parser.attributeArguments
    Parser.attributeArguments :=
  sim_listed (sim_trim_code ((sim_expression [",", ")"]).verbatim_code ⟨⟨rfl, rfl⟩, rfl⟩))

/-- An annotation ends with its name or with a bracket. -/
theorem sim_oneAttribute :
    C.Sim .keen (fun a b => a.Agrees C.text C.code b) Parser.oneAttribute
      Parser.oneAttribute := by
  intro ts us ht
  refine at_here.bind (d := fun _ => .keen) ht (fun _ _ _ => ?_) fun _ => by decide
  refine (sim_typeReference.verbatim_text ⟨rfl, rfl⟩).bind (d := fun _ => .open_)
    (fun _ _ hname => ?_) fun _ => by decide
  intro ts us ht
  refine AtBy.branch ht (test_reads (by decide)) ?_ ?_ fun _ => .inr rfl
  · exact fun _ => (sim_attributeArguments ts us ht).map ht (fun _ _ h => ⟨hname, h⟩)
      fun _ => by decide
  · exact fun _ => at_pure_by ⟨hname, .nil⟩ (by decide)

/-- What a list is addressed to is a word before a colon. -/
theorem sim_attributeTarget :
    C.Sim .open_ Eq Parser.attributeTarget Parser.attributeTarget := by
  intro ts us ht
  refine AtBy.ahead ht Parser.tame_target ?_ (.inr fun _ => .inr nofun)
  split
  · rename_i w htarget
    -- A target is a word and a colon, so both of them can be passed over.
    obtain ⟨t, u, rest, rfl⟩ : ∃ t u rest, ts = t :: u :: rest := by
      match ts with
      | [] => cases htarget
      | [t] => simp [Ahead.text] at htarget
      | t :: u :: rest => exact ⟨t, u, rest, rfl⟩
    refine at_step (c := .firm) (d := .firm) ht (spans_firm t) (fun us ht => ?_) (by decide)
    exact at_step ht (spans_firm u) (fun _ _ => at_pure rfl) (by decide)
  · exact at_pure_by rfl (by decide)

/-- A comma that a further value comes behind. -/
theorem sim_commaBefore (close : String) :
    C.SimBy (fun b => if b then .keen else .open_) Eq (Parser.commaBefore close)
      (Parser.commaBefore close) := by
  intro ts us ht
  refine AtBy.ifAccept (c := fun _ => .open_) (d := fun b => if b then .keen else .open_) ht
    (by decide) (fun ts us ht => ?_) (fun _ => at_pure_by rfl (by decide))
    (by decide) (by decide)
  exact AtBy.ahead ht (tame_reads close) (at_pure_by rfl (by decide))
    (.inr fun _ => .inr nofun)

/-- A list of annotations ends with its bracket. -/
theorem sim_attributeList : C.Sim .firm (AnnotationsAgree C.text C.code)
    Parser.attributeList Parser.attributeList := by
  refine (sim_expect (by decide)).bind (d := fun _ => .firm) (fun _ _ _ => ?_)
    fun _ => by decide
  refine sim_attributeTarget.bind (d := fun _ => .firm) (fun target _ htarget => ?_)
    fun _ => by decide
  subst htarget
  refine SimBy.bind (d := fun _ => .firm) (sim_oneAttribute.collect (k := .keen) (r := .open_)
    (e := .open_) (sim_commaBefore _) (by decide) (by decide) (by decide) (by decide))
    (fun _ _ h => ?_) fun _ => by decide
  refine (sim_expect (by decide)).map (fun _ _ _ => ?_) fun _ => by decide
  split
  · exact .nil
  · exact h

/-- There may be further lists behind those that are read. -/
theorem sim_attributeLists : C.Sim .open_ (AnnotationsAgree C.text C.code)
    Parser.attributeLists Parser.attributeLists := by
  refine SimBy.gather (d := .firm) (e := .open_) (fun ts us ht => ?_) (by decide) (by decide)
    .nil fun h h' => List.rel_append h h'
  refine AtBy.ite (c := perItem .firm .still) (d := perItem .firm .open_) ht
    (test_reads (by decide)) ?_ (fun _ => at_pure_by .none (by decide)) ?_
  · exact fun _ => (sim_attributeList ts us ht).map ht (fun _ _ h => .some h) fun _ => .refl _
  · rintro (_ | _)
    · exact (by decide : Contract.Splits (some ["["]) .still .open_ .open_)
    · exact (by decide : Contract.Splits (some ["["]) .firm .firm .firm)

/-- There may be further modifiers behind those that are read. -/
theorem sim_modifiers : C.Sim .open_ Eq Parser.modifiers Parser.modifiers := by
  refine SimBy.gather (d := .firm) (e := .open_) (fun ts us ht => ?_) (by decide) (by decide)
    rfl fun h h' => by rw [h, h']
  cases ts with
  | nil =>
    refine AtBy.ahead ht Parser.tame_modifier? (at_pure_by .none (by decide)) (.inr ?_)
    rintro (_ | _)
    · exact .inr nofun
    · exact .inl rfl
  | cons t ts =>
    refine AtBy.ahead ht Parser.tame_modifier? ?_ (.inl (List.cons_ne_nil _ _))
    cases Parser.modifier? (t :: ts) with
    | none => exact at_pure_by .none (by decide)
    | some w =>
      exact (at_advance ht (spans_firm t)).map ht (fun _ _ _ => .some rfl) fun _ => .refl _

/-- Annotations and modifiers. -/
theorem sim_lead : C.Sim .open_ (Lead.Agrees C.text C.code) Parser.lead Parser.lead := by
  intro ts us ht
  refine at_here.bind (d := fun _ => .open_) ht (fun _ _ _ => ?_) fun _ => by decide
  refine sim_attributeLists.bind (d := fun _ => .open_) (fun _ _ h => ?_) fun _ => by decide
  exact sim_modifiers.map (fun _ _ h' => ⟨h, h'⟩) fun _ => .refl _

/-! ## Parameters and bodies -/

theorem test_startsParameterModifier : Test none Parser.startsParameterModifier :=
  test_of_tame Parser.tame_startsParameterModifier rfl

/-- A parameter may have a default value, which ends before a comma or the bracket. -/
theorem sim_parameter :
    C.Sim .open_ (Param.Agrees C.code) Parser.parameter Parser.parameter := by
  have hinitial := (sim_expression (C := C) [",", ")"]).verbatim_code ⟨⟨rfl, rfl⟩, rfl⟩
  refine sim_attributeLists.bind (d := fun _ => .open_) (fun _ _ _ ts us ht => ?_)
    fun _ => by decide
  refine at_here.bind (d := fun _ => .open_) ht (fun _ _ _ => ?_) fun _ => by decide
  refine SimBy.bind (c := fun _ => .open_) (d := fun _ => .open_) (V := fun _ _ => True) ?_
    (fun _ _ _ => ?_) fun _ => by decide
  · refine SimBy.repeatWhile (d := fun b => if b then .firm else .open_) (fun ts us ht => ?_)
      (by decide) (by decide)
    refine AtBy.ite (c := fun _ => .firm) (d := fun b => if b then .firm else .open_) ht
      test_startsParameterModifier (fun h => ?_)
      (fun _ => at_pure_by rfl (by decide)) (by decide)
    exact at_pass ht test_startsParameterModifier h (fun t _ _ => spans_firm t) (sim_pure rfl)
      (by decide)
  · refine sim_typeReference.bind (d := fun _ => .open_) (fun _ _ _ => ?_) fun _ => by decide
    refine sim_identifier.bind (d := fun _ => .open_) (fun t u htu ts us ht => ?_)
      fun _ => by decide
    have hname : t.text = u.text := (Prod.mk.inj htu).2
    refine At.ifAccept (c := .open_) (d := .open_) ht (by decide) ?_ ?_ (by decide) (by decide)
    · exact hinitial.map (fun _ _ h => ⟨hname, .some h⟩) fun _ => by decide
    · exact fun _ => at_pure_by ⟨hname, .none⟩ (by decide)

theorem sim_parameters : C.Sim .firm (List.Forall₂ (Param.Agrees C.code)) Parser.parameters
    Parser.parameters :=
  sim_listed sim_parameter

/-- **Bodies** end with a brace or a `;`, so nothing that comes behind matters. -/
theorem sim_body (returns : Bool) : C.Sim .closed (Option.Rel (List.Forall₂ C.code))
    (Parser.body returns) (Parser.body returns) := by
  have hvalue := (sim_expression (C := C) [";"]).verbatim_code ⟨⟨rfl, rfl⟩, rfl⟩
  intro ts us ht
  refine AtBy.branch ht (test_reads (by decide)) ?_ ?_ fun _ => .inl rfl
  · exact fun _ => (sim_block ts us ht).map ht (fun _ _ h => .some h) fun _ => .refl _
  intro _
  refine At.ifAccept (c := .closed) (d := .closed) ht (by decide) ?_ ?_ (by decide) (by decide)
  · refine hvalue.bind (d := fun _ => .closed) (fun _ _ h => ?_) fun _ => by decide
    exact (sim_expect (by decide)).map
      (fun _ _ _ => .some (.cons (C.code_return returns h) .nil)) fun _ => by decide
  · exact fun _ => (sim_expect (by decide)).map (fun _ _ _ => .none)
      (fun _ => by decide) ts us ht

end Comparison

/-! ## Names -/

/-- The last token of a list of type arguments closes it. -/
theorem closeAngles_last {depth : Nat} {ts : List Token}
    (h : closeAngles (depth + 1) ts = .ok []) :
    ∃ t, ts.getLast? = some t ∧ t.reads ">" = true := by
  induction ts generalizing depth with
  | nil => rw [closeAngles] at h; cases h
  | cons t ts ih =>
    have hcons : ∀ u, ts.getLast? = some u → (t :: ts).getLast? = some u := by
      intro u hu
      rw [List.getLast?_cons, hu]
      rfl
    rw [closeAngles] at h
    split at h
    · obtain ⟨u, hu, hread⟩ := ih h
      exact ⟨u, hcons u hu, hread⟩
    · split at h
      · rename_i hread
        cases depth with
        | zero =>
          rw [closeAngles] at h
          cases h
          exact ⟨t, rfl, hread⟩
        | succ depth =>
          obtain ⟨u, hu, hread⟩ := ih h
          exact ⟨u, hcons u hu, hread⟩
      · obtain ⟨u, hu, hread⟩ := ih h
        exact ⟨u, hcons u hu, hread⟩

namespace Parser

/-- The tokens behind the type arguments that may come next. -/
def argumentsEnd (ts : List Token) : Except Failure (List Token) :=
  if Ahead.reads "<" ts then closeAngles 1 ts.tail else .ok ts

/-- One round of `memberName`, behind the name that has been read last. -/
def nameRound (name : Token) : Parser (Token ⊕ Token) := do
  let start ← get
  if ← isAt "<" then typeArguments
  if ← accept "." then
    if ← isAt "this" then return .inr name else return .inl (← identifier)
  else
    set start
    return .inr name

/-- The name of a member is the last part of a qualified name, part by part. -/
theorem memberName_eq : memberName = identifier >>= loop nameRound := rfl

/-- A member behind its type, from its name on, where `returns` says that it has a value. -/
def memberFromName (returns : Bool) : Parser MemberForm := do
  let name ← memberName
  if ← ahead (Ahead.readsAny ["<", "("]) then method name.text returns
  else if ← ahead (Ahead.readsAny [Text.openBrace, "=>"]) then property name.text
  else if ← ahead (Ahead.readsAny ["=", ";", ",", "["]) then field name
  else fail .unexpectedInMember

/-- A member behind its type, where `returns` says that it has a value. -/
def behindType (returns : Bool) : Parser MemberForm := do
  if ← isAt "operator" then
    restOfMember
    return .other "operator"
  else if ← isAt "this" then
    restOfMember
    return .other "indexer"
  else
    memberFromName returns

/-- A member with a type before its name, as the type and what comes behind it. -/
theorem typedMember_eq :
    typedMember = verbatim typeReference >>= fun type => behindType (type != "void") := rfl

/-- Type arguments are a search for the angle bracket that closes them. -/
theorem typeArguments_eq {ts : List Token} (h : Ahead.reads "<" ts = true) :
    typeArguments ts = (closeAngles 1 ts.tail).map ((), ·) := by
  show (if Ahead.reads "<" ts = true then advance else fail (.expected (.word "<"))) ts >>= _ =
    _
  rw [if_pos h]
  rfl

/-- One part of a qualified name: type arguments or none, and then a point or not. -/
theorem nameRound_eq (name : Token) (ts : List Token) : nameRound name ts =
    match argumentsEnd ts with
    | .error e => .error e
    | .ok mid =>
      if Ahead.reads "." mid then
        if Ahead.reads "this" mid.tail then .ok (.inr name, mid.tail)
        else (identifier mid.tail).map fun r => (.inl r.1, r.2)
      else .ok (.inr name, ts) := by
  -- What is done behind the type arguments, at the tokens that are left there.
  have hpoint : ∀ mid, (accept "." >>= fun b => if b = true then
        isAt "this" >>= fun b => if b = true then pure (.inr name) else
          identifier >>= fun t => pure (Sum.inl t)
      else set ts >>= fun _ => pure (.inr name)) mid =
      if Ahead.reads "." mid then
        if Ahead.reads "this" mid.tail then .ok (.inr name, mid.tail)
        else (identifier mid.tail).map fun r => (.inl r.1, r.2)
      else .ok ((.inr name : Token ⊕ Token), ts) := by
    intro mid
    rw [Comparison.accept_bind]
    show (if Ahead.reads "." mid = true then _ else _ : Parser (Token ⊕ Token)) mid = _
    split
    · show (if Ahead.reads "this" mid.tail = true then _ else _ :
        Parser (Token ⊕ Token)) mid.tail = _
      split
      · rfl
      · show (identifier mid.tail >>= fun r => pure (Sum.inl r.1, r.2)) = _
        cases identifier mid.tail <;> rfl
    · rfl
  unfold argumentsEnd
  show (if Ahead.reads "<" ts = true then typeArguments >>= fun _ => _ else _ :
    Parser _) ts = _
  split
  · rename_i h
    show (typeArguments ts >>= fun r => _) = _
    rw [typeArguments_eq h]
    cases closeAngles 1 ts.tail with
    | error e => rfl
    | ok mid => exact hpoint mid
  · exact hpoint ts
end Parser

namespace Comparison

variable {C : Comparison} {ts us : List Token}

/-- Both runs find the end of type arguments at the same place. -/
theorem passes_argumentsEnd (ht : C.tokens ts us) (hts : C.strict ∨ ts ≠ []) :
    Passes C ts us (Parser.argumentsEnd ts) (Parser.argumentsEnd us) := by
  unfold Parser.argumentsEnd
  rw [← test_eq (tame_reads "<") ht hts]
  split
  · rename_i h
    obtain ⟨t, ts, rfl, -⟩ := exists_reads (by decide) h
    obtain ⟨u, us, rfl, -, hrest⟩ := tokens_cons ht
    exact (passes_closeAngles 1 hrest).cons
  · exact passes_here

/-- Behind type arguments there is another token, since none of those that may be the last one
closes them. -/
theorem argumentsEnd_ne_nil {mid : List Token} (ht : C.tokens ts us) (hts : C.strict ∨ ts ≠ [])
    (h : Parser.argumentsEnd ts = .ok mid) : C.strict ∨ mid ≠ [] := by
  rcases hts with hs | hts
  · exact .inl hs
  refine (C.closed ht).imp_right fun hclosed => ?_
  rintro rfl
  unfold Parser.argumentsEnd at h
  split at h
  · obtain ⟨t, hlast, hread⟩ := closeAngles_last h
    rw [List.getLast?_tail] at hlast
    split at hlast
    · cases hlast
    · have := (hclosed t hlast).reads_eq_false (w := ">") (by decide)
      rw [hread] at this
      cases this
  · cases h
    exact hts rfl

/-- A run that fails is compared with no other, if the comparison is not strict. -/
theorem at_of_error {α : Type} {c : α → Contract} {V : α → α → Prop} {p q : Parser α}
    {e : Failure} (hs : ¬ C.strict) (h : p ts = .error e) : C.AtBy c V p q ts us where
  ok hp := by
    rw [h] at hp
    cases hp
  error _ hs' := absurd hs' hs

/-- Rules that pass over some tokens before they go on with other rules. -/
theorem At.skip {α : Type} {V : α → α → Prop} {c d e : Contract} {p q p' q' : Parser α}
    {n : Nat} (hn : n ≤ ts.length) (hp : p ts = p' (ts.drop n)) (hq : q us = q' (us.drop n))
    (hc : c.Spans (ts.take n)) (h : C.At d V p' q' (ts.drop n) (us.drop n))
    (hfit : Contract.Fits c d e) : C.At e V p q ts us where
  ok {a rest} hok := by
    rw [hp] at hok
    obtain ⟨m, b, hm, rfl, hspans, hv, hrun⟩ := h.ok hok
    rw [List.length_drop] at hm
    refine ⟨n + m, b, by omega, List.drop_drop, ?_, hv, fun hmet => ?_⟩
    · rw [List.take_add]
      exact hc.append hfit hspans
    · rw [← List.drop_drop, ← List.drop_drop] at hmet ⊢
      obtain ⟨zs, hzs, hlands⟩ := hrun (hmet.imp_right (·.of_followLe hfit.2.2.1))
      exact ⟨zs, hq.trans hzs, hlands.mono hfit.2.2.2.2.2.2⟩
  error {e} herr hs := by
    rw [hp] at herr
    obtain ⟨m, hm, hleft, hrun⟩ := h.error herr hs
    rw [List.length_drop] at hm
    rw [List.drop_drop] at hleft hrun
    exact ⟨n + m, by omega, hleft, hq.trans hrun⟩

/-- A rule that need not read anything allows any tokens. -/
theorem spans_before (w : List Token) : (Contract.before []).Spans w := ⟨nofun, nofun, nofun⟩

/-- What is left of `memberName` behind one of its names, with a nesting
of at most `n` rounds. -/
def namesBehind (n : Nat) (name : Token) : Parser Token :=
  Parser.descend (fun again s => do
    match ← Parser.nameRound s with
    | .inl s => again s
    | .inr b => return b) n name

/-- The parts of a name, with the bound on them made explicit. -/
theorem loop_nameRound (name : Token) (ts : List Token) :
    Parser.loop Parser.nameRound name ts = namesBehind (ts.length + 1) name ts := by
  unfold Parser.loop Parser.fix namesBehind
  congr 1
  funext again s
  congr 1
  funext r
  cases r <;> rfl

/-- One part less, and one part more to come. -/
theorem namesBehind_succ {α : Type} (n : Nat) (name : Token) (k : Token → Parser α)
    (ts : List Token) : (namesBehind (n + 1) name >>= k) ts =
    match Parser.argumentsEnd ts with
    | .error e => .error e
    | .ok mid =>
      if Ahead.reads "." mid then
        if Ahead.reads "this" mid.tail then k name mid.tail
        else (Parser.identifier >>= fun s => namesBehind n s >>= k) mid.tail
      else k name ts := by
  have hrun : (namesBehind (n + 1) name >>= k) ts = (Parser.nameRound name ts >>= fun r =>
      match r.1 with
      | .inl s => (namesBehind n s >>= k) r.2
      | .inr b => k b r.2) := by
    show (Parser.nameRound name ts >>= fun r => _) >>= _ = _
    cases Parser.nameRound name ts with
    | error e => rfl
    | ok r =>
      obtain ⟨a | b, rest⟩ := r
      · rfl
      · rfl
  rw [hrun, Parser.nameRound_eq]
  cases Parser.argumentsEnd ts with
  | error e => rfl
  | ok mid =>
    dsimp only
    split
    · split
      · rfl
      · show _ = (Parser.identifier mid.tail >>= fun r => (namesBehind n r.1 >>= k) r.2)
        cases Parser.identifier mid.tail <;> rfl
    · rfl

/-- An identifier, and behind it a rule that may look back at it. -/
theorem at_identifier_bind {α : Type} {V : α → α → Prop} {d e : Contract}
    {f g : Token → Parser α} (ht : C.tokens ts us)
    (hf : ∀ t u ts us, t.kind.isIdentifier = true → C.tokens (t :: ts) (u :: us) →
      C.At d V (f t) (g u) ts us) (hfit : Contract.Fits .plain d e) :
    C.At e V (Parser.identifier >>= f) (Parser.identifier >>= g) ts us := by
  cases ts with
  | nil => exact at_nil ht rfl rfl
  | cons t ts =>
    obtain ⟨u, us, rfl, hcontent, -⟩ := tokens_cons ht
    have hkind : t.kind = u.kind := (Prod.mk.inj hcontent).1
    have hbind : ∀ (h : Token → Parser α) (v : Token) (vs : List Token),
        (Parser.identifier >>= h) (v :: vs) = if v.kind.isIdentifier then h v vs
          else .error ⟨.expected .identifier, v :: vs⟩ := by
      intro h v vs
      show (Parser.identifier (v :: vs) >>= fun r => h r.1 r.2) = _
      rw [identifier_cons]
      split <;> rfl
    cases hident : t.kind.isIdentifier with
    | true =>
      refine At.skip (n := 1) (by simp) ?_ ?_
        (spans_single (Token.sign?_of_isIdentifier hident)) (hf t u ts us hident ht) hfit
      · rw [hbind, if_pos hident]
        rfl
      · rw [hbind, if_pos (hkind ▸ hident)]
        rfl
    | false =>
      have hfalse : ¬ t.kind.isIdentifier = true := by simp [hident]
      refine ⟨fun hp => ?_, fun hp _ => ⟨0, Nat.zero_le _, ?_⟩⟩
      · rw [hbind, if_neg hfalse] at hp
        cases hp
      · rw [hbind, if_neg hfalse] at hp
        rw [hbind, if_neg (hkind ▸ hfalse)]
        cases hp
        exact ⟨rfl, rfl⟩

section Names

variable {α : Type} {V : α → α → Prop} {k k' : Token → Parser α}
  (hk : ∀ t u ts us, t.kind.isIdentifier = true → t.content = u.content → C.tokens ts us →
    C.tokens (t :: ts) (u :: us) ∨ Ahead.reads "this" ts = true →
    C.At .keen V (k t) (k' u) ts us)
include hk

/-- Behind a point the name ends before `this`, or its next part comes. -/
theorem at_partBehind {m n : Nat} {t u : Token} (hident : t.kind.isIdentifier = true)
    (hcontent : t.content = u.content) (ht : C.tokens ts us) (hts : C.strict ∨ ts ≠ [])
    (hnext : ∀ t u ts us, t.kind.isIdentifier = true → C.tokens (t :: ts) (u :: us) →
      C.At .keen V (namesBehind m t >>= k) (namesBehind n u >>= k') ts us) :
    C.At .keen V
      (if Ahead.reads "this" ts = true then k t
        else Parser.identifier >>= fun s => namesBehind m s >>= k)
      (if Ahead.reads "this" us = true then k' u
        else Parser.identifier >>= fun s => namesBehind n s >>= k') ts us := by
  rw [← test_eq (tame_reads "this") ht hts]
  split
  · rename_i hthis
    exact hk t u _ _ hident hcontent ht (.inr hthis)
  · exact at_identifier_bind (d := .keen) ht hnext (by decide)

/-- **Qualified names**: the second run has more tokens, and so may be allowed more parts, but
reads the same. -/
theorem at_namesBehind : ∀ m n, m ≤ n → (C.strict → m = n) → ∀ t u ts us,
    t.kind.isIdentifier = true → C.tokens (t :: ts) (u :: us) →
    C.At .keen V (namesBehind m t >>= k) (namesBehind n u >>= k') ts us := by
  intro m
  induction m with
  | zero =>
    intro n _ hs t u ts us _ _
    refine ⟨fun hp => (nomatch hp), fun hp hstrict => ?_⟩
    obtain rfl := hs hstrict
    exact (at_fail_bind (c := fun _ => .keen) (W := V)).error hp hstrict
  | succ m ih =>
    intro n hmn hs t u ts us hident ht
    obtain ⟨n, rfl⟩ : ∃ n', n = n' + 1 := ⟨n - 1, by omega⟩
    obtain ⟨_, _, hcons, hcontent, htokens⟩ := tokens_cons ht
    cases hcons
    have hhead := hk t u ts us hident hcontent htokens (.inl ht)
    by_cases hts : C.strict ∨ ts ≠ []
    · have hpass := passes_argumentsEnd htokens hts
      cases hend : Parser.argumentsEnd ts with
      | error e =>
        refine ⟨fun hp => ?_, fun hp hstrict => ?_⟩
        · rw [namesBehind_succ, hend] at hp
          cases hp
        · rw [namesBehind_succ, hend] at hp
          cases hp
          obtain ⟨j, hj, hleft, hend'⟩ := hpass.error hend hstrict
          exact ⟨j, hj, hleft, by rw [namesBehind_succ, hend']⟩
      | ok mid =>
        obtain ⟨j, hj, rfl, hend'⟩ := hpass.ok hend
        have hpoint := test_eq (tame_reads ".") (C.drop j htokens hj)
          (argumentsEnd_ne_nil htokens hts hend)
        cases hread : Ahead.reads "." (ts.drop j) with
        | false =>
          refine At.skip (n := 0) (Nat.zero_le _) ?_ ?_ (spans_before _) hhead (by decide)
          · simp [namesBehind_succ, hend, hread]
          · simp [namesBehind_succ, hend', ← hpoint, hread]
        | true =>
          have hlen : j + 1 ≤ ts.length := by
            obtain ⟨_, _, hdrop, -⟩ := exists_reads (by decide) hread
            have := congrArg List.length hdrop
            simp only [List.length_drop, List.length_cons] at this
            omega
          have htail := C.drop (j + 1) htokens hlen
          have hrun : (namesBehind (m + 1) t >>= k) ts =
              (if Ahead.reads "this" (ts.drop (j + 1)) = true then k t
                else Parser.identifier >>= fun s => namesBehind m s >>= k)
                (ts.drop (j + 1)) := by
            simp only [namesBehind_succ, hend, hread, List.tail_drop, if_true]
            split <;> rfl
          have hrun' : (namesBehind (n + 1) u >>= k') us =
              (if Ahead.reads "this" (us.drop (j + 1)) = true then k' u
                else Parser.identifier >>= fun s => namesBehind n s >>= k')
                (us.drop (j + 1)) := by
            simp only [namesBehind_succ, hend', ← hpoint, hread, List.tail_drop, if_true]
            split <;> rfl
          by_cases hrest : C.strict ∨ ts.drop (j + 1) ≠ []
          · have hnext := ih n (by omega) fun hstrict => by have := hs hstrict; omega
            exact At.skip hlen hrun hrun' (spans_before _)
              (at_partBehind hk hident hcontent htail hrest hnext)
              (by decide : Contract.Fits _ .keen .keen)
          · obtain ⟨hstrict, hnil⟩ := not_or.mp hrest
            rw [not_not.mp hnil] at hrun
            exact at_of_error hstrict hrun
    · -- No token is left, so that what comes behind the name fails in the first run.
      obtain ⟨hstrict, hnil⟩ := not_or.mp hts
      obtain rfl := not_not.mp hnil
      refine ⟨fun hp => ?_, fun _ h => absurd h hstrict⟩
      obtain ⟨j, _, hj, -, hspans, -⟩ := hhead.ok hp
      obtain rfl : j = 0 := Nat.le_zero.mp hj
      exact absurd rfl (hspans.progress rfl)

/-- **A member's name, and behind it a rule that may look back at it.** -/
theorem at_memberName (ht : C.tokens ts us) :
    C.At .keen V (Parser.memberName >>= k) (Parser.memberName >>= k') ts us := by
  have hassoc : ∀ l : Token → Parser α, Parser.memberName >>= l =
      Parser.identifier >>= fun t => Parser.loop Parser.nameRound t >>= l := by
    intro l
    rw [Parser.memberName_eq, bind_assoc]
  rw [hassoc, hassoc]
  refine at_identifier_bind (d := .keen) ht (fun t u ts us hident ht => ?_) (by decide)
  have hlen : ts.length ≤ us.length := by simpa using length_le ht
  have hat := at_namesBehind hk (ts.length + 1) (us.length + 1) (by omega)
    (fun hs => by simpa using C.whole ht hs) t u ts us hident ht
  refine At.skip (n := 0) (Nat.zero_le _) ?_ ?_ (spans_before _) hat (by decide)
  · show (Parser.loop Parser.nameRound t ts >>= _) = _
    rw [loop_nameRound]
    rfl
  · show (Parser.loop Parser.nameRound u us >>= _) = _
    rw [loop_nameRound]
    rfl

end Names

/-! ## The forms of members -/

/-- A method behind its name ends with its body. -/
theorem sim_method {name : String} (returns : Bool) : C.Sim .closed (MemberForm.Agrees C.code)
    (Parser.method name returns) (Parser.method name returns) := by
  refine sim_optional (d := .closed) (test_reads (by decide)) sim_typeArguments ?_ (by decide)
    (by decide)
  refine sim_parameters.bind (d := fun _ => .closed) (fun _ _ hparams => ?_) fun _ => by decide
  refine sim_constraints.bind (d := fun _ => .closed) (fun _ _ _ => ?_) fun _ => by decide
  exact (sim_body returns).map (fun _ _ hbody => .method name hparams hbody) fun _ => .refl _

/-- A constructor may call another one before its body. -/
theorem sim_constructor : C.Sim .closed (MemberForm.Agrees C.code) Parser.constructor
    Parser.constructor := by
  refine sim_identifier.bind (d := fun _ => .closed) (fun t u htu => ?_) fun _ => by decide
  have hname : t.text = u.text := (Prod.mk.inj htu).2
  refine sim_parameters.bind (d := fun _ => .closed) (fun _ _ hparams => ?_) fun _ => by decide
  have hbody :=
    (sim_body (C := C) false).map (e := fun _ => .closed) (W := MemberForm.Agrees C.code)
    (f := .constructor t.text _) (g := .constructor u.text _)
    (fun _ _ h => by rw [hname]; exact .constructor _ hparams h) fun _ => .refl _
  intro ts us ht
  refine At.ifAccept (c := .closed) (d := .closed) ht (by decide) ?_ (fun _ => hbody ts us ht)
    (by decide) (by decide)
  refine sim_advance.bind (d := fun _ => .closed) (fun _ _ _ => ?_) fun _ => by decide
  exact sim_optional (test_reads (by decide)) sim_group hbody (by decide) (by decide)

theorem sim_accessorBody : C.Sim .closed (fun _ _ => True) Parser.accessorBody
    Parser.accessorBody := by
  intro ts us ht
  refine AtBy.branch ht (test_reads (by decide)) ?_ ?_ fun _ => .inl rfl
  · exact fun _ => (sim_group ts us ht).weaken fun _ => by decide
  intro _
  refine At.ifAccept (c := .closed) (d := .closed) ht (by decide) ?_ ?_ (by decide) (by decide)
  · refine (sim_expression _).bind (d := fun _ => .word ";") (fun _ _ _ => ?_)
      fun _ => by decide
    exact sim_expect (by decide)
  · exact fun _ => (sim_expect (by decide) ts us ht).weaken fun _ => by decide

/-- An accessor ends with its body or with a `;`. -/
theorem sim_accessor : C.Sim .keen Eq Parser.accessor Parser.accessor := by
  refine sim_attributeLists.bind (d := fun _ => .keen) (fun _ _ _ => ?_) fun _ => by decide
  refine sim_modifiers.bind (d := fun _ => .keen) (fun _ _ _ ts us ht => ?_) fun _ => by decide
  refine AtBy.branch ht (test_of_tame (Parser.tame_identifier_text fun w =>
    !Parser.accessorWords.contains w) rfl) (fun _ => at_fail) ?_ fun _ => .inl rfl
  intro _
  refine sim_identifier.bind (d := fun _ => .closed) (fun t u htu => ?_)
    (fun _ => by decide) ts us ht
  exact sim_accessorBody.map (fun _ _ _ => (Prod.mk.inj htu).2) fun _ => .refl _

/-- A property may have a value behind its braces, which makes it open there. -/
theorem sim_property (name : String) : C.Sim .keen (MemberForm.Agrees C.code)
    (Parser.property name) (Parser.property name) := by
  intro ts us ht
  refine At.ifAccept (c := .closed) (d := .keen) ht (by decide) ?_ ?_ (by decide) (by decide)
  · refine (sim_expression _).bind (d := fun _ => .closed) (fun _ _ _ => ?_) fun _ => by decide
    exact (sim_expect (by decide)).map (fun _ _ _ => .property name true false)
      fun _ => by decide
  intro _
  refine (sim_expect (by decide)).bind (d := fun _ => .open_) (fun _ _ _ => ?_)
    (fun _ => by decide) ts us ht
  refine SimBy.bind (c := fun _ => .open_) (d := fun _ => .open_) (V := Eq) ?_
    (fun words _ h => ?_) fun _ => by decide
  · refine SimBy.gather (d := .keen) (e := .open_) (fun ts us ht => ?_) (by decide) (by decide)
      rfl fun h h' => by rw [h, h']
    refine AtBy.branch ht (test_reads (by decide))
      (fun _ => at_pure_by .none (by decide)) ?_ ?_
    · exact fun _ => (sim_accessor ts us ht).map ht (fun _ _ h => .some (by rw [h]))
        fun _ => .refl _
    · rintro (_ | _) <;> exact .inr rfl
  · subst h
    refine (sim_expect (by decide)).bind (d := fun _ => .open_) (fun _ _ _ ts us ht => ?_)
      fun _ => by decide
    have hdone : C.Sim .still (MemberForm.Agrees C.code)
        (pure (.property name (words.contains "get") (words.contains "set")))
        (pure (.property name (words.contains "get") (words.contains "set"))) :=
      sim_pure (.property name _ _)
    refine At.ifAccept (c := .closed) (d := .open_) ht (by decide) ?_ ?_
      (by decide) (by decide)
    · refine (sim_expression _).bind (d := fun _ => .closed) (fun _ _ _ => ?_)
        fun _ => by decide
      exact (sim_expect (by decide)).bind (fun _ _ _ => hdone) fun _ => by decide
    · exact fun _ => (hdone ts us ht).weaken fun _ => by decide

/-- Chunks are read, or none, and a token is left behind them. -/
theorem sim_fieldValue : C.Sim ⟨none, false, true, false, false⟩ (fun _ _ => True)
    (do
      if ← Parser.isAt "[" then Parser.group
      if ← Parser.accept "=" then Parser.initializer)
    (do
      if ← Parser.isAt "[" then Parser.group
      if ← Parser.accept "=" then Parser.initializer) := by
  refine sim_optional (d := ⟨none, false, true, false, false⟩) (test_reads (by decide))
    sim_group ?_ (by decide) (by decide)
  intro ts us ht
  exact At.ifAccept (d := .absent "=") ht (by decide) sim_initializer
    (fun _ => at_pure_by trivial (by decide)) (by decide) (by decide)

/-- A variable is cut from the text from its name on, so the name belongs to the tokens that
are compared. -/
theorem at_fieldVariable {t u : Token} (ht : C.tokens (t :: ts) (u :: us))
    (hident : t.kind.isIdentifier = true) :
    C.At .open_ C.code (Parser.fieldVariable t) (Parser.fieldVariable u) ts us := by
  have htokens : C.tokens ts us := C.drop 1 ht (by simp)
  refine (sim_fieldValue.consumed (fun _ => rfl) htokens).map htokens (fun r r' hr => ?_)
    fun _ => by decide
  obtain ⟨-, n, hn, hspans, hr, hr'⟩ := hr
  rw [hr, hr']
  have hname : Balanced [t] := balanced_single (Token.sign?_of_isIdentifier hident)
  exact C.code_spelling (n + 1) ht (by simpa using hn) (hname.append (hspans.balanced rfl))

/-- The variables of a field, up to the `;`. -/
theorem at_field {t u : Token} (ht : C.tokens (t :: ts) (u :: us))
    (hident : t.kind.isIdentifier = true) :
    C.At .keen (MemberForm.Agrees C.code) (Parser.field t) (Parser.field u) ts us := by
  have htokens : C.tokens ts us := C.drop 1 ht (by simp)
  refine (at_fieldVariable ht hident).bind (d := fun _ => .keen) htokens (fun _ _ hfirst => ?_)
    fun _ => by decide
  refine SimBy.bind (c := fun _ => .open_) (d := fun _ => .keen) (V := List.Forall₂ C.code) ?_
    (fun _ _ hrest => ?_) fun _ => by decide
  · refine SimBy.gather (d := .keen) (e := .open_) (fun ts us ht => ?_) (by decide) (by decide)
      .nil fun h h' => List.rel_append h h'
    refine AtBy.ifAccept (c := fun _ => .keen) (d := perItem .keen .open_) ht (by decide)
      (fun ts us ht => ?_) (fun _ => at_pure_by .none (by decide)) ?_ ?_
    · refine at_identifier_bind (d := .open_) ht (fun t u ts us hident ht => ?_) (by decide)
      exact (at_fieldVariable ht hident).map (C.drop 1 ht (by simp))
        (fun _ _ h => .some (.cons h .nil)) fun _ => .refl _
    · rintro (_ | _)
      · exact (by decide : Contract.Fits (.word ",") .keen .open_)
      · exact (by decide : Contract.Fits (.word ",") .keen .keen)
    · rintro (_ | _)
      · exact ⟨.inr rfl, .refl _, .refl _⟩
      · exact ⟨.inl rfl, .refl _, .refl _⟩
  · exact (sim_expect (by decide)).map (fun _ _ _ => .field (.cons hfirst hrest))
      fun _ => by decide

/-- The rest of a member that is known and has no counterpart. -/
theorem sim_other (kind : String) : C.Sim .keen (MemberForm.Agrees C.code)
    (Parser.restOfMember >>= fun _ => pure (.other kind))
    (Parser.restOfMember >>= fun _ => pure (.other kind)) := by
  have hrest : C.Sim .keen (fun _ _ => True) Parser.restOfMember Parser.restOfMember :=
    fun ts us ht => (sim_restOfMember ts us ht).tight ht fun _ => ⟨rfl, by decide⟩
  exact hrest.map (fun _ _ _ => .other kind) fun _ => .refl _

/-- A member from its name on. -/
theorem sim_memberFromName (returns : Bool) : C.Sim .keen (MemberForm.Agrees C.code)
    (Parser.memberFromName returns) (Parser.memberFromName returns) := by
  intro ts us ht
  refine at_memberName (fun t u ts us hident hcontent ht hback => ?_) ht
  rw [← (Prod.mk.inj hcontent).2]
  refine AtBy.branch ht (test_readsAny (by decide)) ?_ ?_ fun _ => .inl rfl
  · exact fun _ => (sim_method _ ts us ht).weaken fun _ => by decide
  intro _
  refine AtBy.branch ht (test_readsAny (by decide)) (fun _ => sim_property _ ts us ht) ?_
    fun _ => .inl rfl
  intro _
  refine AtBy.branch ht (test_readsAny (by decide)) ?_ (fun _ => at_fail) fun _ => .inl rfl
  intro hread
  refine at_field (hback.resolve_right fun hthis => ?_) hident
  -- A variable of a field is not named `this`.
  obtain ⟨v, rest, rfl, hv⟩ := exists_reads (by decide) hthis
  obtain ⟨w, hw, hv'⟩ := List.any_eq_true.mp hread
  rw [← Token.text_of_reads hv', Token.text_of_reads hv] at hw
  revert hw
  decide

/-- A member with a type before its name. -/
theorem sim_typedMember : C.Sim .keen (MemberForm.Agrees C.code) Parser.typedMember
    Parser.typedMember := by
  rw [Parser.typedMember_eq]
  refine (sim_typeReference.verbatim_text ⟨rfl, rfl⟩).bind (d := fun _ => .keen)
    (fun type type' htype ts us ht => ?_) fun _ => by decide
  have hreturns : (type != "void") = (type' != "void") := by
    rw [Bool.eq_iff_iff, bne_iff_ne, bne_iff_ne, ne_eq, ne_eq, C.text_void htype]
  refine AtBy.branch ht (test_reads (by decide)) (fun _ => sim_other _ ts us ht) ?_
    fun _ => .inl rfl
  intro _
  refine AtBy.branch ht (test_reads (by decide)) (fun _ => sim_other _ ts us ht) ?_
    fun _ => .inl rfl
  intro _
  rw [← hreturns]
  exact sim_memberFromName _ ts us ht

/-- **Members that are no types agree in both runs.** -/
theorem sim_memberForm (owner : String) : C.Sim .keen (MemberForm.Agrees C.code)
    (Parser.memberForm owner) (Parser.memberForm owner) := by
  intro ts us ht
  refine AtBy.branch ht (test_reads (by decide)) (fun _ => sim_other _ ts us ht) ?_
    fun _ => .inl rfl
  intro _
  refine AtBy.branch ht (test_reads (by decide)) (fun _ => sim_other _ ts us ht) ?_
    fun _ => .inl rfl
  intro _
  refine AtBy.branch ht (test_readsAny (by decide)) (fun _ => sim_other _ ts us ht) ?_
    fun _ => .inl rfl
  intro _
  refine AtBy.branch ht (test_of_tame (Parser.tame_startsConstructor owner) rfl) ?_
    (fun _ => sim_typedMember ts us ht) fun _ => .inl rfl
  exact fun _ => (sim_constructor ts us ht).weaken fun _ => by decide

end Comparison

end SharpScript
