import SharpScript.Proofs.Fields.Variables
import SharpScript.Proofs.Parser.Renaming

/-! # Members that are fields

A member that begins with two words is a type and a name, unless one of them is a word of the
rules, and the sign behind the name makes a field of it.

## Main Definitions

* `Parser.OpensTyped`: how members begin that have a type;
* `Parser.IsTypeWord`, `Parser.IsMemberName`: words that are read as a type and as a name.

## Main Results

* `Parser.memberStep_of_none`: a member that declares no type;
* `Parser.OpensTyped.member`: a member with a type;
* `Parser.member_field`: **a type of one word, a name and a sign of a variable are read as a
  field**, whatever the type is that the member belongs to.
-/

namespace SharpScript.Parser

open Lexer

variable {α β : Type} {ts mid : List Token}

theorem bind_of_ok {p : Parser α} {a : α} (h : p ts = .ok (a, mid)) (f : α → Parser β) :
    (p >>= f) ts = f a mid := by
  show (p ts >>= fun r => f r.1 r.2) = _
  rw [h]
  rfl

theorem verbatim_word {p : Parser Unit} {t : Token} (h : p (t :: ts) = .ok ((), ts)) :
    verbatim p (t :: ts) = .ok (t.lexeme, ts) := by
  have hconsumed : consumed p (t :: ts) = .ok (((), [t]), ts) := by
    simp [consumed, h]
  have hspelled : spelled p (t :: ts) = .ok (((), t.lexeme), ts) := by
    unfold spelled
    rw [bind_of_ok hconsumed]
    show Except.ok (((), Token.spelling [t]), ts) = _
    simp [Token.spelling]
  unfold verbatim
  rw [bind_of_ok hspelled]
  rfl

theorem readsAny_eq_false {ws : List String} (h : ∀ w ∈ ws, Ahead.reads w ts = false) :
    Ahead.readsAny ws ts = false :=
  List.any_eq_false.mpr fun w hw => by simp [h w hw]

/-- Where no type is declared, a member is one of the other forms. -/
theorem memberStep_of_none {member : String → Parser Item} {owner : String} {l : Lead}
    (hlead : lead ts = .ok (l, mid)) (htype : typeDeclaration member l mid = .ok (none, mid)) :
    memberStep member owner ts = (memberForm owner mid).map fun r =>
      (.member ⟨l, r.1⟩, r.2) := by
  unfold memberStep
  rw [bind_of_ok hlead, bind_of_ok htype]
  show (memberForm owner mid >>= fun r => .ok _) = _
  cases memberForm owner mid <;> rfl

/-- The words that members of other forms begin with. -/
def memberWords : List String :=
  ["class", "interface", "enum", "struct", "delegate", "record", "event",
    "implicit", "explicit"]

/-- The words and the sign that tell by themselves what begins where a member starts. -/
def formWords : List String :=
  ["~", "class", "interface", "enum", "struct", "delegate", "event", "implicit", "explicit"]

/-- Tokens that a member with a type may begin with: none of the other rules takes them. -/
structure OpensTyped (ts : List Token) : Prop where
  bracket : Ahead.reads "[" ts = false
  modifier : modifier? ts = none
  free : ∀ w ∈ formWords, Ahead.reads w ts = false
  record : startsRecord ts = false
  constructor : (Ahead.isIdentifier 0 ts && Ahead.text 1 ts == "(") = false

namespace OpensTyped

theorem lead (h : OpensTyped ts) :
    lead ts = .ok (⟨(ts.head?.map fun t => t.place.pos).getD default, [], []⟩, ts) :=
  lead_eq_ok.mpr ⟨[], ts, [], attributeLists_eq_ok.mpr (.inl ⟨h.bracket, rfl, rfl⟩),
    modifiers_none h.modifier, rfl⟩

theorem memberForm (h : OpensTyped ts) (owner : String) :
    memberForm owner ts = typedMember ts := by
  have hconstructor : (Ahead.isIdentifier 0 ts && Ahead.text 0 ts == owner &&
      Ahead.text 1 ts == "(") = false := by
    rw [Bool.and_right_comm, h.constructor, Bool.false_and]
  have hconversion : Ahead.readsAny ["implicit", "explicit"] ts = false :=
    readsAny_eq_false fun w hw =>
      h.free w (by rcases List.mem_pair.mp hw with rfl | rfl <;> decide)
  unfold Parser.memberForm isAt
  rw [ahead_bind, h.free "~" (by decide), if_neg Bool.false_ne_true, ahead_bind,
    h.free "event" (by decide), if_neg Bool.false_ne_true, ahead_bind, hconversion,
    if_neg Bool.false_ne_true, ahead_bind, hconstructor, if_neg Bool.false_ne_true]

/-- **Where none of the other rules takes what stands behind the lead, a
member has a type.** -/
theorem member {owner : String} {l : Lead} (h : OpensTyped mid)
    (hlead : Parser.lead ts = .ok (l, mid)) :
    member owner ts = (typedMember mid).map fun r => (.member ⟨l, r.1⟩, r.2) := by
  have htype : typeDeclaration (descend memberStep ts.length) l mid = .ok (none, mid) :=
    typeDeclaration_none (fun w hw => h.free w (by revert w; decide)) h.record
  show memberStep (descend memberStep ts.length) owner ts = _
  rw [memberStep_of_none hlead htype, h.memberForm]

end OpensTyped

/-- An identifier that is a type of one word where a member starts: it begins no other
member and is no modifier. -/
structure IsTypeWord (t : Token) : Prop where
  identifier : t.kind.isIdentifier = true
  starts : startsWord t.text = true
  free : t.text ∉ memberWords ++ contextualWords

/-- An identifier that is the name of a member where one is read. -/
structure IsMemberName (t : Token) : Prop where
  identifier : t.kind.isIdentifier = true
  starts : startsWord t.text = true
  free : t.text ∉ ["operator", "this"]

section Field

variable {owner : String} {t name : Token}

theorem isTypeWord_of_content {i : Identifier} (ht : t.content = i.content)
    (hfree : i.word ∉ memberWords ++ contextualWords) : IsTypeWord t := by
  obtain ⟨-, htext⟩ := Prod.mk.inj ht
  exact ⟨Identifier.isIdentifier_of_content ht, htext ▸ i.startsWord_word, htext ▸ hfree⟩

theorem isMemberName_of_content {i : Identifier} (ht : t.content = i.content)
    (hfree : i.word ∉ ["operator", "this"]) : IsMemberName t := by
  obtain ⟨-, htext⟩ := Prod.mk.inj ht
  exact ⟨Identifier.isIdentifier_of_content ht, htext ▸ i.startsWord_word, htext ▸ hfree⟩

theorem IsMemberName.of_content {u : Token} (hcontent : t.content = u.content)
    (ht : IsMemberName t) :
    IsMemberName u := by
  obtain ⟨hkind, htext⟩ := Prod.mk.inj hcontent
  exact ⟨hkind ▸ ht.identifier, htext ▸ ht.starts, htext ▸ ht.free⟩

/-- An identifier that is not escaped may name a member. -/
theorem isMemberName_of_plain (ht : WellShaped t) (hident : t.kind.isIdentifier = true)
    (hplain : t.kind ≠ .identifier true) : IsMemberName t := by
  have hkind : t.kind = .identifier false := by
    revert hident hplain
    cases t.kind <;> simp [Kind.isIdentifier]
  refine ⟨hident, ht.startsWord (Kind.isWord_of_isIdentifier hident), fun hmem => ?_⟩
  have hwords : ∀ w ∈ ["operator", "this"], w ∈ keywords := by decide
  exact Renaming.text_not_mem_keywords ht hkind (hwords _ hmem)

theorem IsTypeWord.reads_eq_false (ht : IsTypeWord t) {w : String}
    (hw : startsWord w = false ∨ w ∈ memberWords ++ contextualWords) (ts : List Token) :
    Ahead.reads w (t :: ts) = false := by
  refine reads_of_text_ne fun (heq : t.text = w) => ?_
  subst heq
  rcases hw with hw | hw
  · rw [ht.starts] at hw
    cases hw
  · exact ht.free hw

theorem IsTypeWord.opensTyped (ht : IsTypeWord t) (hname : startsWord name.text = true) :
    OpensTyped (t :: name :: ts) where
  bracket := ht.reads_eq_false (.inl (by decide)) _
  modifier := by
    have hkind : (t.kind == .keyword) = false := by
      have hident := ht.identifier
      revert hident
      cases t.kind <;> simp [Kind.isIdentifier]
    have hcontext : t.text ∉ contextualWords := fun hmem =>
      ht.free (List.mem_append_right _ hmem)
    simp [modifier?, hkind, hcontext]
  free := by
    have hwords :
        ∀ w ∈ formWords, startsWord w = false ∨ w ∈ memberWords ++ contextualWords := by
      decide +kernel
    exact fun w hw => ht.reads_eq_false (hwords w hw) _
  record := by rw [startsRecord, ht.reads_eq_false (.inr (by decide)), Bool.false_and]
  constructor := by
    have hround : (name.text == "(") = false := beq_eq_false_iff_ne.mpr fun heq => by
      rw [heq] at hname
      cases hname
    show (_ && name.text == "(") = false
    rw [hround, Bool.and_false]

/-- Behind a type, a name and what may follow a variable are a field. -/
theorem typedMember_field (ht : IsTypeWord t) (hname : IsMemberName name)
    (hnext : Ahead.readsAny ["=", ";", ",", "["] ts = true) :
    typedMember (t :: name :: ts) = field name ts := by
  have htyped : typeReference (t :: name :: ts) = .ok ((), name :: ts) :=
    typeReference_word (Kind.isWord_of_isIdentifier ht.identifier)
      (ht.reads_eq_false (.inl (by decide)) [])
      (endsType_of_text (not_mem_of_startsWord hname.starts (by decide)))
  have hreads : ∀ w ∈ ["operator", "this"], Ahead.reads w (name :: ts) = false :=
    reads_eq_false hname.free
  have hsigns : ∀ w ∈ ["=", ";", ",", "["], w ∉ ["<", "."] ∧ w ∉ ["<", "("] ∧
      w ∉ [Text.openBrace, "=>"] := by
    decide
  obtain ⟨hpoint, hmethod, hproperty⟩ := hsigns _ (text_of_readsAny hnext)
  unfold typedMember isAt
  rw [bind_of_ok (verbatim_word htyped), ahead_bind, hreads "operator" (by simp),
    if_neg Bool.false_ne_true, ahead_bind, hreads "this" (by simp), if_neg Bool.false_ne_true,
    bind_of_ok (memberName_plain hname.identifier hpoint), ahead_bind,
    readsAny_eq_false (reads_eq_false hmethod), if_neg Bool.false_ne_true, ahead_bind,
    readsAny_eq_false (reads_eq_false hproperty), if_neg Bool.false_ne_true,
    ahead_bind, if_pos hnext]

/-- **Where a type of one word and a name come first, and behind them what may follow a
variable, a member is a field.** -/
theorem member_field (ht : IsTypeWord t) (hname : IsMemberName name)
    (hnext : Ahead.readsAny ["=", ";", ",", "["] ts = true) :
    member owner (t :: name :: ts) = (field name ts).map fun r =>
      (.member ⟨⟨t.place.pos, [], []⟩, r.1⟩, r.2) := by
  have hopens : OpensTyped (t :: name :: ts) := ht.opensTyped hname.starts
  rw [hopens.member hopens.lead, typedMember_field ht hname hnext]
  rfl

end Field

end SharpScript.Parser
