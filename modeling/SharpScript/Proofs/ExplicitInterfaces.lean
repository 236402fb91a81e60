import SharpScript.Proofs.Concatenation
import SharpScript.Proofs.Fields.Members
import SharpScript.Proofs.Parser.Termination
import SharpScript.Proofs.Types.Opening
import SharpScript.Proofs.Types.Text

/-! # Members of interfaces

The name of a member may be qualified with the interface that the member belongs to.  The rule
for names passes over the interface, so that the member is the same as without it.  Not so for
indexers: they are told by the word `this` right behind the type, and behind an interface the
rule for names stops before that word, where no member goes on.

## Main Definitions

* `TypeName.IsInterface`: names of interfaces;
* `TypeSyntax.BeginsMember`: types that a member may begin with;
* `MemberHead`: annotations, modifiers and a type behind them.

## Main Results

* `Parser.memberName_interface`: the rule for names passes over an interface;
* `MemberHead.lead`: what is read before the type does not depend on what comes behind it;
* `member_explicit`: **a member is the same with an interface before its name,
  and no indexer has one**.

## Design Notes

The words `operator` and `this` are looked for behind a type whether they are escaped
or not, and so is `this` behind a point.  They are no words of interfaces here,
although `@this` may be one.
-/

namespace SharpScript

open Lexer

/-! ## Interfaces -/

/-- Names of interfaces: points stand between their parts, and no word of them is taken for
that of an operator or an indexer. -/
def TypeName.IsInterface : TypeName → Prop
  | .part p => p.firstWord.word ∉ ["operator", "this"]
  | .qualified n q p => n.IsInterface ∧ q = .point ∧ p.firstWord.word ≠ "this"

instance TypeName.decidableIsInterface : (Q : TypeName) → Decidable Q.IsInterface
  | .part p => inferInstanceAs (Decidable (p.firstWord.word ∉ ["operator", "this"]))
  | .qualified n q p =>
    have := decidableIsInterface n
    inferInstanceAs (Decidable (n.IsInterface ∧ q = .point ∧ p.firstWord.word ≠ "this"))

theorem TypeName.IsInterface.firstWord : ∀ {Q : TypeName}, Q.IsInterface →
    Q.firstWord.word ∉ ["operator", "this"]
  | .part _, h => h
  | .qualified _ _ _, h => h.1.firstWord

namespace Parser

variable {t y : Token} {ts us vs zs r : List Token}

/-- Nothing, or type arguments in their brackets. -/
def IsArgumentsTail (zs : List Token) : Prop :=
  zs = [] ∨ ∃ a bs c, zs = a :: (bs ++ [c]) ∧ a.content = sign "<" ∧ TypeTokens bs ∧
    c.content = sign ">"

/-- A part of a name is a word and its type arguments. -/
theorem exists_partTail {p : NamePart} (h : us.map Token.content = p.contents) :
    ∃ y zs, us = y :: zs ∧ y.content = p.firstWord.content ∧ IsArgumentsTail zs := by
  cases p with
  | plain i =>
    obtain ⟨y, rfl, hy⟩ := List.map_eq_singleton_iff.mp h
    exact ⟨y, [], rfl, hy, .inl rfl⟩
  | generic i args =>
    obtain ⟨y, _, rfl, hy, h⟩ := List.map_eq_cons_iff.mp h
    obtain ⟨a, _, rfl, ha, h⟩ := List.map_eq_cons_iff.mp h
    obtain ⟨bs, _, rfl, hbs, hcs⟩ := List.map_eq_append_iff.mp h
    obtain ⟨c, rfl, hc⟩ := List.map_eq_singleton_iff.mp hcs
    exact ⟨y, _, rfl, hy, .inr ⟨a, bs, c, rfl, ha, args.typeTokens hbs, hc⟩⟩

theorem argumentsEnd_tail (hzs : IsArgumentsTail zs) (hr : Ahead.reads "." r = true) :
    argumentsEnd (zs ++ r) = .ok r := by
  rcases hzs with rfl | ⟨a, bs, c, rfl, ha, hbs, hc⟩
  · have hangle : Ahead.reads "<" r = false := reads_unique hr (by decide) (by decide)
    rw [List.nil_append, argumentsEnd, if_neg (by simp [hangle])]
  · have hopen : Ahead.reads "<" (a :: (bs ++ [c]) ++ r) = true := by
      rw [List.cons_append, reads_cons_of_content ha]
      decide
    have hclose : c.reads ">" = true ∧ c.reads "<" = false := by
      have hreads : ∀ w, c.reads w = (">" == w) := fun w => reads_cons_of_content hc []
      simp [hreads]
    rw [argumentsEnd, if_pos hopen, List.cons_append, List.tail_cons,
      List.append_assoc, hbs.angles]
    simp [closeAngles, hclose]

/-- One round of the rule for names, behind a part of the name and at the
point that follows it. -/
theorem nameRound_part (hzs : IsArgumentsTail zs) (ht : t.content = sign ".") (name : Token) :
    nameRound name (zs ++ t :: r) = if Ahead.reads "this" r = true then .ok (.inr name, r)
      else (identifier r).map fun s => (.inl s.1, s.2) := by
  have hpoint : Ahead.reads "." (t :: r) = true := by
    rw [reads_cons_of_content ht]
    decide
  rw [nameRound_eq, argumentsEnd_tail hzs hpoint]
  simp only [hpoint, if_true, List.tail_cons]
  rfl

theorem nameRound_lt (name : Token) (ts : List Token) (name' : Token) (mid : List Token)
    (h : nameRound name ts = .ok (.inl name', mid)) : mid.length < ts.length :=
  ((settlesBy_nameRound name).ok h).2 rfl

theorem loop_nameRound_part (hzs : IsArgumentsTail zs) (ht : t.content = sign ".")
    (hy : y.kind.isIdentifier = true) (hthis : y.text ≠ "this") (name : Token) :
    loop nameRound name (zs ++ t :: y :: r) = loop nameRound y r := by
  have hread : Ahead.reads "this" (y :: r) = false := reads_of_text_ne hthis
  refine loop_again nameRound_lt ?_
  rw [nameRound_part hzs ht, if_neg (by simp [hread]), Comparison.identifier_cons, if_pos hy]
  rfl

theorem memberName_cons (hy : y.kind.isIdentifier = true) (r : List Token) :
    memberName (y :: r) = loop nameRound y r := by
  rw [memberName_eq, bind_of_ok (by rw [Comparison.identifier_cons, if_pos hy])]

/-- Of an interface, the rule for names keeps the last part while it looks for a point. -/
theorem memberName_lastPart : ∀ {Q : TypeName}, Q.IsInterface → ∀ {vs : List Token},
    vs.map Token.content = Q.contents → ∃ y zs, IsArgumentsTail zs ∧
      ∀ r, memberName (vs ++ r) = loop nameRound y (zs ++ r)
  | .part p, _, _, hvs => by
    obtain ⟨y, zs, rfl, hy, hzs⟩ := exists_partTail hvs
    exact ⟨y, zs, hzs, fun r => memberName_cons (Identifier.isIdentifier_of_content hy) _⟩
  | .qualified n q p, hQ, _, hvs => by
    obtain ⟨hn, rfl, hthis⟩ := hQ
    obtain ⟨ns, _, rfl, hns, hps⟩ := List.map_eq_append_iff.mp hvs
    obtain ⟨t, ps, rfl, ht, hps⟩ := List.map_eq_cons_iff.mp hps
    obtain ⟨y, zs, rfl, hy, hzs⟩ := exists_partTail hps
    obtain ⟨x, ws, hws, hloop⟩ := memberName_lastPart hn hns
    refine ⟨y, zs, hzs, fun r => ?_⟩
    have htext : y.text ≠ "this" := (Prod.mk.inj hy).2 ▸ hthis
    rw [List.append_assoc, hloop]
    exact loop_nameRound_part hws ht (Identifier.isIdentifier_of_content hy) htext x

section Interface

variable {Q : TypeName} (hQ : Q.IsInterface) (hvs : vs.map Token.content = Q.contents)
  (ht : t.content = sign ".")

include hQ hvs ht

/-- **The rule for names passes over an interface.** -/
theorem memberName_interface (hy : y.kind.isIdentifier = true) (hthis : y.text ≠ "this") :
    memberName (vs ++ t :: y :: r) = memberName (y :: r) := by
  obtain ⟨x, zs, hzs, hloop⟩ := memberName_lastPart hQ hvs
  rw [hloop, loop_nameRound_part hzs ht hy hthis, memberName_cons hy]

/-- Before `this` the rule for names stops, with the last word of the interface as the name. -/
theorem memberName_interface_this (hthis : Ahead.reads "this" r = true) :
    ∃ name, memberName (vs ++ t :: r) = .ok (name, r) := by
  obtain ⟨x, zs, hzs, hloop⟩ := memberName_lastPart hQ hvs
  refine ⟨x, ?_⟩
  rw [hloop]
  refine loop_done nameRound_lt ?_
  rw [nameRound_part hzs ht, if_pos hthis]

/-- Behind its type, a member is the same with an interface before its name. -/
theorem memberFromName_interface (hy : y.kind.isIdentifier = true) (hthis : y.text ≠ "this")
    (returns : Bool) :
    memberFromName returns (vs ++ t :: y :: r) = memberFromName returns (y :: r) := by
  show (memberName _ >>= fun s => _) = (memberName _ >>= fun s => _)
  rw [memberName_interface hQ hvs ht hy hthis]

/-- Behind an interface there is no indexer. -/
theorem memberFromName_interface_this (hthis : Ahead.reads "this" r = true) (returns : Bool) :
    memberFromName returns (vs ++ t :: r) = .error ⟨.unexpectedInMember, r⟩ := by
  obtain ⟨name, hname⟩ := memberName_interface_this hQ hvs ht hthis
  have hsigns : ∀ {ws : List String}, "this" ∉ ws → Ahead.readsAny ws r = false := fun hws =>
    readsAny_eq_false fun w hw => reads_unique hthis (fun heq => hws (heq ▸ hw)) (by decide)
  unfold memberFromName
  rw [bind_of_ok hname, ahead_bind, hsigns (by decide), if_neg Bool.false_ne_true, ahead_bind,
    hsigns (by decide), if_neg Bool.false_ne_true, ahead_bind, hsigns (by decide),
    if_neg Bool.false_ne_true]
  rfl

end Interface

end Parser

/-! ## What stands before the name -/

/-- Types that a member may begin with: a declaration or a member of another form does not
begin with their first word, and if they are this word alone, it is taken neither for a
modifier nor for the word before a record. -/
def TypeSyntax.BeginsMember (T : TypeSyntax) : Prop :=
  ∀ i, T.firstWord = some i → i.word ∉ Parser.formWords ∧
    (T.isWord = true → i.word ∉ "record" :: Parser.contextualWords)

/-- The tokens are modifiers, and the type `T` behind them. -/
inductive ModifiedType (T : TypeSyntax) : List Token → Prop
  | type {us : List Token} (h : us.map Token.content = T.contents) : ModifiedType T us
  | modifier {t : Token} {us : List Token} (ht : Parser.modifier? (t :: us) = some t.text)
      (h : ModifiedType T us) : ModifiedType T (t :: us)

/-- The tokens are lists of annotations and modifiers, and the type `T` behind them. -/
inductive MemberHead (T : TypeSyntax) : List Token → Prop
  | plain {us : List Token} (h : ModifiedType T us) : MemberHead T us
  | annotated {w us : List Token} {as : List Annotation}
      (hw : Parser.attributeList w = .ok (as, [])) (h : MemberHead T us) :
      MemberHead T (w ++ us)

open SharpScript.Parser

section Heads

variable {T : TypeSyntax} {ts us r : List Token}

/-- An identifier is no keyword and no sign, and none of the words that it does not read as. -/
theorem Identifier.reads_formWords {i : Identifier} {t : Token} (ht : t.content = i.content)
    (hi : i.word ∉ formWords) : (t.kind == .keyword) = false ∧ t.text = i.word ∧
      t.reads "[" = false ∧ ∀ w ∈ formWords, t.reads w = false := by
  obtain ⟨hkind, htext⟩ := Prod.mk.inj ht
  refine ⟨by rw [hkind]; rfl, htext, Identifier.reads_eq_false ht (by decide), fun w hw => ?_⟩
  have hne : Ahead.text 0 [t] ≠ w := fun heq => hi (by rwa [← htext, show t.text = w from heq])
  exact reads_of_text_ne hne

/-- Tokens that begin as a type does are taken for nothing else, if their first word is none of
the words that the rules look for. -/
theorem Opening.opensTyped {ks : List (Kind × String)} {first : Option Identifier}
    {word array : Bool} (h : Opening ks first word array) (hus : us.map Token.content = ks)
    (hfree : ∀ i, first = some i → i.word ∉ formWords ∧
      (word = true → i.word ∉ "record" :: contextualWords))
    (hr : Ahead.text 0 r ≠ "(") : OpensTyped (us ++ r) := by
  cases h with
  | word i =>
    obtain ⟨t, rfl, ht⟩ := List.map_eq_singleton_iff.mp hus
    obtain ⟨hforms, halone⟩ := hfree i rfl
    obtain ⟨hrecord, hcontext⟩ := not_or.mp (mt List.mem_cons.mpr (halone rfl))
    obtain ⟨hkind, htext, hbracket, hwords⟩ := Identifier.reads_formWords ht hforms
    refine ⟨hbracket, ?_, hwords, ?_, ?_⟩
    · simp [modifier?, hkind, htext, hcontext]
    · rw [startsRecord, reads_of_text_ne (show Ahead.text 0 ([t] ++ r) ≠ "record" from
        fun heq => hrecord (htext.symm.trans heq)), Bool.false_and]
    · have hround : (Ahead.text 1 ([t] ++ r) == "(") = false := beq_eq_false_iff_ne.mpr hr
      rw [hround, Bool.and_false]
  | @long i w hw ks =>
    obtain ⟨t, _, rfl, ht, hus⟩ := List.map_eq_cons_iff.mp hus
    obtain ⟨u, us, rfl, hu, -⟩ := List.map_eq_cons_iff.mp hus
    obtain ⟨hkind, -, hbracket, hwords⟩ := Identifier.reads_formWords ht (hfree i rfl).1
    obtain ⟨hsign, htext⟩ := Prod.mk.inj hu
    have hsigns : ∀ w ∈ wordContinuations, w ∉ ["class", "struct"] ∧ w ≠ "(" := by decide
    obtain ⟨hrecord, hround⟩ := hsigns w hw
    refine ⟨hbracket, ?_, hwords, ?_, ?_⟩
    · simp [modifier?, hkind, Ahead.isWord, hsign, Kind.isWord]
    · rw [startsRecord]
      simpa [Ahead.isIdentifier, Ahead.text, hsign, Kind.isIdentifier, htext]
        using fun _ => hrecord
    · simp [Ahead.text, htext, hround]
  | tuple ks =>
    obtain ⟨t, us, rfl, ht, -⟩ := List.map_eq_cons_iff.mp hus
    obtain ⟨hkind, -⟩ := Prod.mk.inj ht
    have hreads : ∀ w, Ahead.reads w (t :: us ++ r) = ("(" == w) := fun w =>
      reads_cons_of_content ht (us ++ r)
    refine ⟨hreads _, ?_, fun w hw => (hreads w).trans ?_, ?_, ?_⟩
    · simp [modifier?, hkind, Kind.isIdentifier]
    · revert w
      decide
    · rw [startsRecord, hreads]
      rfl
    · simp [Ahead.isIdentifier, hkind, Kind.isIdentifier]

/-- A type that a member may begin with is taken for nothing else. -/
theorem TypeSyntax.BeginsMember.opensTyped (hT : T.BeginsMember)
    (hus : us.map Token.content = T.contents) (hr : Ahead.text 0 r ≠ "(") :
    OpensTyped (us ++ r) :=
  T.opening.opensTyped hus hT hr

theorem TypeSyntax.ne_nil_of_contents (h : us.map Token.content = T.contents) : us ≠ [] := by
  rintro rfl
  have hhead := T.opening.head?_eq
  rw [← h] at hhead
  cases hhead

theorem ModifiedType.ne_nil (h : ModifiedType T ts) : ts ≠ [] := by
  cases h with
  | type h => exact TypeSyntax.ne_nil_of_contents h
  | modifier _ _ => exact List.cons_ne_nil _ _

/-- A modifier is no bracket, and is one whatever comes behind the token that follows it. -/
theorem modifier?_append {t : Token} (h : modifier? (t :: us) = some t.text) (hus : us ≠ [])
    (r : List Token) : modifier? (t :: (us ++ r)) = some t.text ∧ t.text ≠ "[" := by
  obtain ⟨u, us, rfl⟩ := List.exists_cons_of_ne_nil hus
  refine ⟨h, fun htext => ?_⟩
  simp [modifier?, htext, modifierWords, contextualWords] at h

/-- Modifiers are read up to the type behind them, whatever comes behind that. -/
theorem ModifiedType.modifiers (hT : T.BeginsMember) (h : ModifiedType T ts) :
    ∃ ws us, us.map Token.content = T.contents ∧ ∀ r, Ahead.text 0 r ≠ "(" →
      Ahead.reads "[" (ts ++ r) = false ∧ modifiers (ts ++ r) = .ok (ws, us ++ r) := by
  induction h with
  | @type us hus =>
    refine ⟨[], us, hus, fun r hr => ?_⟩
    have hopens := hT.opensTyped hus hr
    exact ⟨hopens.bracket, modifiers_none hopens.modifier⟩
  | @modifier t ts ht h ih =>
    obtain ⟨ws, us, hus, hread⟩ := ih
    refine ⟨t.text :: ws, us, hus, fun r hr => ?_⟩
    obtain ⟨hmodifier, hbracket⟩ := modifier?_append ht h.ne_nil r
    exact ⟨reads_of_text_ne hbracket,
      modifiers_eq_ok.mpr (.inr ⟨t.text, ws, hmodifier, (hread r hr).2, rfl⟩)⟩

/-- A list of annotations ends with its bracket. -/
theorem closed_of_attributeList {as : List Annotation} (hshape : ∀ t ∈ ts, WellShaped t)
    (h : attributeList ts = .ok (as, [])) : Closed ts := by
  obtain ⟨_, mid₁, hopen, h⟩ := bind_eq_ok.mp h
  obtain ⟨_, mid₂, htarget, h⟩ := bind_eq_ok.mp h
  obtain ⟨_, mid₃, hlist, h⟩ := bind_eq_ok.mp h
  obtain ⟨hread, hpure⟩ := expect_bind_eq_ok.mp h
  obtain ⟨t, rest, rfl, ht⟩ := Comparison.exists_reads (by decide) hread
  obtain rfl : rest = [] := (Prod.mk.inj (Except.ok.inj hpure)).2
  have hsuffix : [t] <:+ ts := by
    refine (suffix_of_reads (Comparison.sim_oneAttribute.collect (k := .keen) (r := .open_)
      (e := .open_) (Comparison.sim_commaBefore _) (by decide) (by decide) (by decide)
      (by decide)) hlist).trans ?_
    exact (suffix_of_reads Comparison.sim_attributeTarget htarget).trans
      (suffix_of_reads (Comparison.sim_expect (by decide)) hopen)
  obtain ⟨us, rfl⟩ := hsuffix
  intro u hu
  obtain rfl : t = u := by simpa using hu
  obtain ⟨hkind, htext⟩ := (hshape t (by simp)).isOperator_of_reads ht (by decide)
  exact ⟨hkind, by rw [htext]; decide⟩

/-- A list of annotations is read whatever comes behind it. -/
theorem attributeList_append {as : List Annotation} (hshape : ∀ t ∈ ts, WellShaped t)
    (h : attributeList ts = .ok (as, [])) (r : List Token) :
    ∃ bs, attributeList (ts ++ r) = .ok (bs, r) ∧
      AnnotationsAgree Eq Eq as bs := by
  obtain ⟨n, bs, hn, hdrop, -, hagrees, hrun⟩ :=
    (Comparison.sim_attributeList (C := .extension r)
    ts (ts ++ r) ⟨rfl, closed_of_attributeList hshape h⟩).ok h
  obtain ⟨_, hlist, hlands⟩ := hrun (.inr (.inr ⟨[], rfl, nofun⟩))
  obtain rfl := hlands.eq_of_tight rfl
  rw [List.drop_append_of_le_length hn, ← hdrop, List.nil_append] at hlist
  exact ⟨bs, hlist, hagrees⟩

/-- **What is read before the type of a member does not depend on what comes behind it.** -/
theorem MemberHead.lead (hT : T.BeginsMember) (hshape : ∀ t ∈ ts, WellShaped t)
    (h : MemberHead T ts) : ∃ l us, us.map Token.content = T.contents ∧
      ∀ r, Ahead.text 0 r ≠ "(" → ∃ l', lead (ts ++ r) = .ok (l', us ++ r) ∧
        Lead.Agrees Eq Eq l l' := by
  have hlists : ∃ as ws us, us.map Token.content = T.contents ∧ ∀ r, Ahead.text 0 r ≠ "(" →
      ∃ bs mid, attributeLists (ts ++ r) = .ok (bs, mid) ∧ modifiers mid = .ok (ws, us ++ r) ∧
        AnnotationsAgree Eq Eq as bs := by
    induction h with
    | plain h =>
      obtain ⟨ws, us, hus, hread⟩ := h.modifiers hT
      refine ⟨[], ws, us, hus, fun r hr => ⟨[], _, ?_, (hread r hr).2, .nil⟩⟩
      exact attributeLists_eq_ok.mpr (.inl ⟨(hread r hr).1, rfl, rfl⟩)
    | @annotated w ts as hw h ih =>
      obtain ⟨hw', hts⟩ := List.forall_mem_append.mp hshape
      obtain ⟨cs, ws, us, hus, hread⟩ := ih hts
      refine ⟨as ++ cs, ws, us, hus, fun r hr => ?_⟩
      obtain ⟨ds, mid, hds, hmodifiers, hcs⟩ := hread r hr
      obtain ⟨bs, hbs, has⟩ := attributeList_append hw' hw (ts ++ r)
      rw [List.append_assoc]
      refine ⟨bs ++ ds, mid, ?_, hmodifiers, List.rel_append has hcs⟩
      exact attributeLists_eq_ok.mpr (.inr ⟨(expect_bind_eq_ok.mp hbs).1, bs, _,
        ds, hbs, hds, rfl⟩)
  obtain ⟨as, ws, us, hus, hread⟩ := hlists
  refine ⟨⟨default, as, ws⟩, us, hus, fun r hr => ?_⟩
  obtain ⟨bs, mid, hlists, hmodifiers, hagrees⟩ := hread r hr
  exact ⟨_, lead_eq_ok.mpr ⟨bs, mid, ws, hlists, hmodifiers, rfl⟩, hagrees, rfl⟩

end Heads

/-! ## What stands behind the type -/

namespace Parser

variable {T : TypeSyntax} {us vs r : List Token}

/-- Behind a type it does not matter which one it is, but for whether it
is that of no value. -/
theorem typedMember_append (hus : us.map Token.content = T.contents) (hr : EndsType r) :
    typedMember (us ++ r) = behindType (Token.spelling us != "void") r := by
  have hread : Yields ((us ++ r).length + 1) typeReference EndsType (fun _ => True) us :=
    fun rest _ hrest => ⟨(), T.typeReference_append hus hrest, trivial⟩
  obtain ⟨_, htype, rfl⟩ :=
    hread.verbatim (TypeSyntax.ne_nil_of_contents hus) r (by simp) hr
  rw [typedMember_eq, bind_of_ok htype]

theorem behindType_named (hr : ∀ w ∈ ["operator", "this"], Ahead.reads w r = false)
    (returns : Bool) :
    behindType returns r = memberFromName returns r := by
  unfold behindType isAt
  rw [ahead_bind, hr "operator" (by simp), if_neg Bool.false_ne_true, ahead_bind,
    hr "this" (by simp), if_neg Bool.false_ne_true]

/-- What is neither an operator nor an indexer has a name. -/
theorem memberFromName_of_behindType {returns : Bool} {form : MemberForm} {left : List Token}
    (h : behindType returns r = .ok (form, left)) (hform : ∀ kind, form ≠ .other kind) :
    memberFromName returns r = .ok (form, left) ∧ Ahead.reads "this" r = false := by
  have hother :
      ∀ kind, (restOfMember >>= fun _ => pure (.other kind)) r ≠ .ok (form, left) := by
    intro kind h
    obtain ⟨_, _, -, hpure⟩ := bind_eq_ok.mp h
    cases hpure
    exact hform kind rfl
  unfold behindType isAt at h
  rw [ahead_bind] at h
  split at h
  · exact absurd h (hother _)
  rw [ahead_bind] at h
  split at h
  · exact absurd h (hother _)
  · rename_i hthis
    exact ⟨h, Bool.eq_false_iff.mpr hthis⟩

end Parser

/-! ## Texts -/

theorem Identifier.content_token (i : Identifier) (g : List Char) (p : Place) :
    (Lexer.token (.identifier i.escaped) i.text.toList g p).content = i.content := by
  cases hescaped : i.escaped <;>
    simp [Lexer.token, Token.content, Identifier.content, Identifier.text, hescaped]

/-- An interface and the point behind it. -/
theorem TypeName.spells_point (Q : TypeName) {gap : String} (hgap : IsGap gap) {r : List Char}
    (hr : StartsType r) : Spells r ((Q.text gap).toList ++ ['.']) (Q.contents ++ [sign "."]) :=
  (Q.spells hgap (avoids_cons (by decide))).append
    (Spells.sign (w := ".") (by decide) (by decide) (hr.separate (by decide)))

/-- A text behind another one and a blank. -/
theorem tokenize_behind {pre : String} {tp : Tokenized} (hpre : tokenize pre = .ok tp)
    (hgap : tp.gap = "") (s : String) : tokenize (pre ++ " " ++ s) =
      (pieces (tp.stop.step ' ') [' '] 0 s.toList).map (prepend tp.tokens) := by
  have hapart : Apart (' ' :: s.toList) := by
    rintro _ ⟨⟩
    rfl
  have htext : (pre ++ " " ++ s).toList = pre.toList ++ ' ' :: s.toList := by simp
  rw [tokenize, htext, (cut_of_pieces_eq hpre).pieces_append (.inr ⟨hgap, hapart⟩), hgap]
  exact congrArg _ (pieces_blank rfl s.toList)

/-- A word behind a text and a blank, and the same word with an interface before it. -/
theorem tokenize_interface {pre gap w rest : String} {tp t : Tokenized}
    (hpre : tokenize pre = .ok tp) (hgap : tp.gap = "") (Q : TypeName) (hcommas : IsGap gap)
    {k : Kind} (hw : Munch k w.toList rest.toList) (hstart : StartsType w.toList)
    (ht : tokenize (pre ++ " " ++ w ++ rest) = .ok t) :
    ∃ x us vs point x' us' t', t.tokens = tp.tokens ++ x :: us ∧
      (∃ g p, x = Lexer.token k w.toList g p) ∧
      tokenize (pre ++ " " ++ Q.text gap ++ "." ++ w ++ rest) = .ok t' ∧
      t'.tokens = tp.tokens ++ (vs ++ point :: x' :: us') ∧ vs.map Token.content = Q.contents ∧
      point.content = sign "." ∧ Shifted (x :: us) (x' :: us') := by
  let p := tp.stop.step ' '
  let v := (Q.text gap).toList ++ ['.']
  rw [String.append_assoc, tokenize_behind hpre hgap, String.toList_append,
    pieces_munch hw] at ht
  cases hrest : pieces (p.after w.toList) [] 0 rest.toList with
  | error e =>
    rw [hrest] at ht
    cases ht
  | ok tr =>
    rw [hrest] at ht
    obtain rfl := Except.ok.inj ht
    -- The word is no blank, so that what follows it is read the same on every line.
    obtain ⟨tr', hcut, halike, hgaps, -⟩ := (cut_of_pieces_eq hrest).shift
      (q := (p.after v).after w.toList) (bare_after_of_solid hw.shape.solid _ _)
    obtain ⟨ws, hws, -, -, hwhole⟩ :=
      Q.spells_point hcommas (hstart.append rest.toList) p [' '] _
      (.token (g := []) hw hcut)
    obtain ⟨vs, _, rfl, hvs, hpoint⟩ := List.map_eq_append_iff.mp hws
    obtain ⟨point, rfl, hsign⟩ := List.map_eq_singleton_iff.mp hpoint
    let x' := Lexer.token k w.toList [] (p.after v)
    refine ⟨_, tr.tokens, vs, point, x', tr'.tokens,
      prepend tp.tokens (prepend (vs ++ [point]) (prepend [x'] tr')), rfl, ⟨[' '], p, rfl⟩, ?_,
      ?_, hvs, hsign, Alike.cons_iff.mpr ⟨rfl, halike⟩, hgaps⟩
    · have htext : pre ++ " " ++ Q.text gap ++ "." ++ w ++ rest =
          pre ++ " " ++ (Q.text gap ++ "." ++ w ++ rest) := by simp only [String.append_assoc]
      have hlist :
          (Q.text gap ++ "." ++ w ++ rest).toList = v ++ (w.toList ++ rest.toList) := by
        simp [v]
      rw [htext, tokenize_behind hpre hgap, hlist, hwhole.pieces_eq]
      rfl
    · show tp.tokens ++ (vs ++ [point] ++ x' :: tr'.tokens) = _
      rw [List.append_assoc]
      rfl

/-! ## Members with interfaces before their names -/

section Members

variable {T : TypeSyntax} {Q : TypeName} {owner : String} {ts us vs r : List Token}

theorem TypeName.exists_firstWord (h : us.map Token.content = Q.contents) :
    ∃ y zs, us = y :: zs ∧ y.content = Q.firstWord.content := by
  have hhead := Q.opening.head?_eq
  rw [← h] at hhead
  cases us with
  | nil => cases hhead
  | cons y zs => exact ⟨y, zs, rfl, Option.some.inj hhead⟩

theorem endsType_of_startsWord (h : startsWord (Ahead.text 0 r) = true) :
    EndsType r ∧ Ahead.text 0 r ≠ "(" := by
  refine ⟨endsType_of_text (not_mem_of_startsWord h (by decide +kernel)), fun heq => ?_⟩
  rw [heq] at h
  cases h

/-- **What a member is depends on its lead, on its type and on what stands behind
the type one by one.** -/
theorem MemberHead.member (hhead : MemberHead T ts) (hshape : ∀ t ∈ ts, WellShaped t)
    (hT : T.BeginsMember) (owner : String) :
    ∃ l returns, ∀ r, startsWord (Ahead.text 0 r) = true → ∃ l', Lead.Agrees Eq Eq l l' ∧
      member owner (ts ++ r) = (behindType returns r).map fun s =>
      (.member ⟨l', s.1⟩, s.2) := by
  obtain ⟨l, us, hus, hlead⟩ := hhead.lead hT hshape
  refine ⟨l, Token.spelling us != "void", fun r hr => ?_⟩
  obtain ⟨hends, hround⟩ := endsType_of_startsWord hr
  obtain ⟨l', hl', hagrees⟩ := hlead r hround
  refine ⟨l', hagrees, ?_⟩
  rw [(hT.opensTyped hus hround).member hl', typedMember_append hus hends]

/-- An interface behind a type begins neither an operator nor an indexer. -/
theorem behindType_interface (hQ : Q.IsInterface) (hvs : vs.map Token.content = Q.contents)
    (returns : Bool) (r : List Token) : startsWord (Ahead.text 0 (vs ++ r)) = true ∧
      behindType returns (vs ++ r) = memberFromName returns (vs ++ r) := by
  obtain ⟨y, zs, rfl, hy⟩ := TypeName.exists_firstWord hvs
  have htext : Ahead.text 0 (y :: zs ++ r) = Q.firstWord.word := (Prod.mk.inj hy).2
  refine ⟨?_, behindType_named (reads_eq_false ?_) returns⟩
  · rw [htext]
    exact Q.firstWord.startsWord_word
  · rw [htext]
    exact hQ.firstWord

/-- The tokens of a member whose name is qualified. -/
theorem member_interface (hhead : MemberHead T ts) (hshape : ∀ t ∈ ts, WellShaped t)
    (hT : T.BeginsMember) (hQ : Q.IsInterface) {point x x' : Token} {us' left : List Token}
    {n : Identifier} {m : Member} (hvs : vs.map Token.content = Q.contents)
    (hpoint : point.content = sign ".") (hx : x.content = n.content)
    (hshift : Shifted (x :: us) (x' :: us'))
    (h : member owner (ts ++ x :: us) = .ok (.member m, left))
    (hform : ∀ kind, m.form ≠ .other kind) :
    ∃ m' left', member owner (ts ++ (vs ++ point :: x' :: us')) = .ok (.member m', left') ∧
      m.Agrees Eq Eq m' ∧ Shifted left left' := by
  obtain ⟨l, returns, hmember⟩ := hhead.member hshape hT owner
  have hstart : startsWord x.text = true := by
    rw [(Prod.mk.inj hx).2]
    exact n.startsWord_word
  obtain ⟨l₁, hl₁, hrun⟩ := hmember (x :: us) hstart
  rw [hrun] at h
  cases hbehind : behindType returns (x :: us) with
  | error e =>
    rw [hbehind] at h
    cases h
  | ok s =>
    rw [hbehind] at h
    cases h
    obtain ⟨hnamed, hthis⟩ := memberFromName_of_behindType hbehind hform
    -- The same name elsewhere, and with the interface before it.
    obtain ⟨k, form', hleft, hnamed', hagrees⟩ :=
      (Comparison.sim_memberFromName returns).same hshift hnamed
    obtain ⟨hcontent, -⟩ := Alike.cons_iff.mp hshift.alike
    have hx' : x'.content = n.content := hcontent.symm.trans hx
    have hthis' : x'.text ≠ "this" := by
      obtain ⟨hkind, htext⟩ := Prod.mk.inj hx
      rw [← (Prod.mk.inj hcontent).2]
      simpa [Ahead.reads, Token.reads, hkind, Kind.isLiteral] using hthis
    obtain ⟨hstart', hbehind'⟩ := behindType_interface hQ hvs returns (point :: x' :: us')
    obtain ⟨l₂, hl₂, hrun'⟩ := hmember _ hstart'
    have hleads := Lead.Agrees.euclidean (euclidean_eq _) (euclidean_eq _) hl₁ hl₂
    refine ⟨⟨l₂, form'⟩, (x' :: us').drop k, ?_, ⟨hleads, hagrees⟩, ?_⟩
    · rw [hrun', hbehind', memberFromName_interface hQ hvs hpoint
        (Identifier.isIdentifier_of_content hx') hthis', hnamed']
      rfl
    · rw [hleft]
      exact hshift.drop k

/-- The tokens of an indexer that is qualified. -/
theorem member_interface_this (hhead : MemberHead T ts) (hshape : ∀ t ∈ ts, WellShaped t)
    (hT : T.BeginsMember) (hQ : Q.IsInterface) {point : Token}
    (hvs : vs.map Token.content = Q.contents) (hpoint : point.content = sign ".")
    (hthis : Ahead.reads "this" r = true) (owner : String) :
    member owner (ts ++ (vs ++ point :: r)) = .error ⟨.unexpectedInMember, r⟩ := by
  obtain ⟨l, returns, hmember⟩ := hhead.member hshape hT owner
  obtain ⟨hstart, hbehind⟩ := behindType_interface hQ hvs returns (point :: r)
  obtain ⟨l', -, hrun⟩ := hmember _ hstart
  rw [hrun, hbehind, memberFromName_interface_this hQ hvs hpoint hthis]
  rfl

/-- **A member is the same with an interface before its name, and no indexer has one.**  The
text `pre` is what stands before the name: annotations, modifiers and the type `T`.  A member
with the name `n` that has a form of its own is read from the same text with an interface
before `n`, up to where its parts stand.  With an interface before `this`, nothing is read. -/
theorem member_explicit {owner pre rest gap : String} {tp : Tokenized}
    (hpre : tokenize pre = .ok tp) (hgap : tp.gap = "") (hhead : MemberHead T tp.tokens)
    (hT : T.BeginsMember) (hQ : Q.IsInterface) (hcommas : IsGap gap)
    (hrest : Avoids [] rest.toList) :
    (∀ (n : Identifier) {t : Tokenized} {m : Member} {left : List Token},
      tokenize (pre ++ " " ++ n.text ++ rest) = .ok t →
      member owner t.tokens = .ok (.member m, left) → (∀ kind, m.form ≠ .other kind) →
      ∃ t' m' left', tokenize (pre ++ " " ++ Q.text gap ++ "." ++ n.text ++ rest) = .ok t' ∧
        member owner t'.tokens = .ok (.member m', left') ∧ m.Agrees Eq Eq m' ∧
        Shifted left left') ∧
    (∀ {t : Tokenized}, tokenize (pre ++ " " ++ "this" ++ rest) = .ok t →
      ∃ t' e, tokenize (pre ++ " " ++ Q.text gap ++ "." ++ "this" ++ rest) = .ok t' ∧
        member owner t'.tokens = .error e) := by
  have hshape := (lexed_of_tokenize hpre).wellShaped
  have hword : ∀ d, rest.toList.head? = some d → isWordPart d = false :=
    fun d hd => (hrest d hd).1
  refine ⟨fun n {t m left} ht hm hform => ?_, fun {t} ht => ?_⟩
  · obtain ⟨x, us, vs, point, x', us', t', htokens, ⟨g, p, rfl⟩, ht', htokens', hvs,
        hpoint, hshift⟩ :=
      tokenize_interface hpre hgap Q hcommas (n.munch hword) n.startsType ht
    rw [htokens] at hm
    obtain ⟨m', left', hm', hsame⟩ := member_interface hhead hshape hT hQ hvs hpoint
      (n.content_token g p) hshift hm hform
    exact ⟨t', m', left', ht', htokens' ▸ hm', hsame⟩
  · have hkind : wordKind "this".toList = .keyword := by decide +kernel
    have hmunch : Munch .keyword "this".toList rest.toList :=
      hkind ▸ munch_word (by decide +kernel) (by simpa using by decide +kernel) hword
    obtain ⟨x, us, vs, point, x', us', t', -, ⟨g, p, rfl⟩, ht', htokens', hvs,
        hpoint, hshift⟩ :=
      tokenize_interface hpre hgap Q hcommas hmunch ⟨'t', rfl, .inl (by decide +kernel)⟩ ht
    have hthis : Ahead.reads "this" (x' :: us') = true := by
      have hcontent : x'.content = (.keyword, "this") :=
        (Alike.cons_iff.mp hshift.alike).1.symm
      obtain ⟨hkeyword, htext⟩ := Prod.mk.inj hcontent
      simp [Ahead.reads, Token.reads, hkeyword, htext, Kind.isLiteral]
    exact ⟨t', _, ht',
      htokens' ▸ member_interface_this hhead hshape hT hQ hvs hpoint hthis owner⟩

end Members

theorem exists_member_of_form (s owner : String) (form : MemberForm)
    (h : (tokenize s).toOption.any (fun t => (member owner t.tokens).toOption.any fun r =>
      r.1.member?.map Member.form == some form) = true) :
    ∃ t m left, tokenize s = .ok t ∧ member owner t.tokens = .ok (.member m, left) ∧
      m.form = form := by
  obtain ⟨t, ht, hmember⟩ := exists_ok_of_any h
  obtain ⟨⟨i, left⟩, hi, hform⟩ := exists_ok_of_any hmember
  obtain ⟨m, hm, rfl⟩ := Option.map_eq_some_iff.mp (beq_iff_eq.mp hform)
  cases i with
  | member m' =>
    cases hm
    exact ⟨t, m, left, ht, hi, rfl⟩
  | scope | type | enumeration | skipped => cases hm

/-- An annotated method of a generic interface, and an indexer of the interface. -/
theorem member_explicit_generic : ∃ (T : TypeSyntax) (Q : TypeName) (tp : Tokenized),
    T.text "" = "int" ∧ Q.text " " = "I<int, int>.J" ∧ tokenize "[A]async int" = .ok tp ∧
    tp.gap = "" ∧ MemberHead T tp.tokens ∧ T.BeginsMember ∧ Q.IsInterface ∧ IsGap " " ∧
    (Avoids [] "() => 0;".toList ∧ ∃ t m left t' m' left',
      tokenize "[A]async int F() => 0;" = .ok t ∧ member "C" t.tokens = .ok (.member m, left) ∧
      m.form = .method "F" [] (some ["return 0;"]) ∧
      tokenize "[A]async int I<int, int>.J.F() => 0;" = .ok t' ∧
      member "C" t'.tokens = .ok (.member m', left') ∧ m.Agrees Eq Eq m' ∧
      Shifted left left') ∧
    Avoids [] "[int i] => i;".toList ∧ ∃ t t' e, tokenize "[A]async int this[int i] => i;" =
      .ok t ∧ tokenize "[A]async int I<int, int>.J.this[int i] => i;" = .ok t' ∧
      member "C" t'.tokens = .error e := by
  let int : TypeSyntax := .solid (.name (.part (.plain (.ofName "int" (by decide +kernel)))))
  let Q : TypeName := .qualified
    (.part (.generic (.ofName "I" (by decide +kernel)) (.more int (.last int)))) .point
    (.plain (.ofName "J" (by decide +kernel)))
  obtain ⟨tp, htp, hgap, l, a, r, m, u, htokens, hlist, hm, hu⟩ : ∃ tp,
      tokenize "[A]async int" = .ok tp ∧ tp.gap = "" ∧ ∃ l a r m u : Token,
        tp.tokens = [l, a, r, m, u] ∧
        (attributeList [l, a, r]).toOption.any (fun s => s.2.isEmpty) = true ∧
        modifier? [m, u] = some m.text ∧ u.content = (.identifier false, "int") :=
    ⟨_, rfl, rfl, _, _, _, _, _, rfl, by decide +kernel, rfl, rfl⟩
  have hhead : MemberHead int tp.tokens := by
    obtain ⟨⟨as, rest⟩, hlist, hrest⟩ := exists_ok_of_any hlist
    obtain rfl : rest = [] := List.isEmpty_iff.mp hrest
    rw [htokens]
    exact .annotated hlist (.plain (.modifier hm (.type (congrArg (· :: []) hu))))
  have hT : int.BeginsMember := by
    rintro _ ⟨⟩
    decide +kernel
  have hQ : Q.IsInterface := by decide +kernel
  have hspace : IsGap " " := by simp [IsGap, isBlank]
  have hround : Avoids [] "() => 0;".toList := avoids_cons (by decide)
  have hsquare : Avoids [] "[int i] => i;".toList := avoids_cons (by decide)
  have hmethod : "[A]async int" ++ " " ++ Q.text " " ++ "." ++ "F" ++ "() => 0;" =
      "[A]async int I<int, int>.J.F() => 0;" := by decide +kernel
  have hindexer : "[A]async int" ++ " " ++ Q.text " " ++ "." ++ "this" ++ "[int i] => i;" =
      "[A]async int I<int, int>.J.this[int i] => i;" := by decide +kernel
  obtain ⟨t, m, left, ht, hrun, hform⟩ := exists_member_of_form
    ("[A]async int" ++ " " ++ "F" ++ "() => 0;") "C" (.method "F" [] (some ["return 0;"]))
    (by decide +kernel)
  obtain ⟨t', m', left', ht', hsame⟩ := (member_explicit htp hgap hhead hT hQ hspace hround).1
    (.ofName "F" (by decide +kernel)) ht hrun fun kind => by rw [hform]; simp
  obtain ⟨s, hs, -⟩ := exists_ok_of_any
    (r := tokenize ("[A]async int" ++ " " ++ "this" ++ "[int i] => i;")) (f := fun _ => true)
    (by decide +kernel)
  obtain ⟨s', e, hs', herror⟩ :
      ∃ s' e, tokenize
        ("[A]async int" ++ " " ++ Q.text " " ++ "." ++ "this" ++ "[int i] => i;") = .ok s' ∧
        member "C" s'.tokens = .error e :=
    (member_explicit htp hgap hhead hT hQ hspace hsquare).2 hs
  exact ⟨int, Q, tp, by decide +kernel, by decide +kernel, htp, hgap, hhead, hT, hQ, hspace,
    ⟨hround, t, m, left, t', m', left', ht, hrun, hform, hmethod ▸ ht', hsame⟩, hsquare, s, s',
    e, hs, hindexer ▸ hs', herror⟩

/-- An indexer with an interface before `this` is an error, and an interface that is named
`this` makes an indexer of a method. -/
theorem member_explicit_misread :
    (∃ t m left, tokenize ("T this[int i] " ++ Text.braced " get; ") = .ok t ∧
      member "A" t.tokens = .ok (.member m, left) ∧ m.form = .other "indexer") ∧
    (∃ t e, tokenize ("T Q.this[int i] " ++ Text.braced " get; ") = .ok t ∧
      member "A" t.tokens = .error e) ∧
    (∃ t m left, tokenize ("T n() " ++ Text.braced " ") = .ok t ∧
      member "A" t.tokens = .ok (.member m, left) ∧ m.form = .method "n" [] (some [])) ∧
    ∃ t m left, tokenize ("T @this.n() " ++ Text.braced " ") = .ok t ∧
      member "A" t.tokens = .ok (.member m, left) ∧ m.form = .other "indexer" := by
  refine ⟨exists_member_of_form _ _ _ (by decide +kernel), ?_,
    exists_member_of_form _ _ _ (by decide +kernel),
    exists_member_of_form _ _ _ (by decide +kernel)⟩
  obtain ⟨t, ht, hnone⟩ :=
    exists_ok_of_any (r := tokenize ("T Q.this[int i] " ++ Text.braced " get; "))
    (f := fun t => (member "A" t.tokens).toOption.isNone) (by decide +kernel)
  obtain ⟨e, he⟩ := exists_error_of_isNone hnone
  exact ⟨t, e, ht, he⟩

end SharpScript
