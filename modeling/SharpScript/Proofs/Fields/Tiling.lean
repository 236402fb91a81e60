import SharpScript.Proofs.Fields.Members
import SharpScript.Proofs.Parser.Occurrences

/-! # Fields in source texts

A field keeps the texts of its variables only.  Where it was read, these are slices of the
source text that lie one behind the other up to the `;`, and they hold all that is needed to
read the variables again.

## Main Definitions

* `IsSlice`: tokens that are all of a source text from the first of them to the last;
* `TilesDeclaration`: a lead, a type and variables, somewhere in a source text.

## Main Results

* `Parser.field_of_memberForm`: a member that is a field is a type, a name and variables;
* `field_tiles`: **the variables of every field of a source text lie one behind the other in
  it, and are read again from their texts**.
-/

namespace SharpScript

open Lexer

namespace Parser

/-! ## Members that are fields -/

section Forms

variable {α : Type}

/-- A rule for members that gives no field. -/
def GivesNoField (p : Parser MemberForm) : Prop := ∀ ts ds rest, p ts ≠ .ok (.field ds, rest)

/-- A rule gives no field if it ends with another form. -/
theorem givesNoField_pure {form : MemberForm} (h : ∀ ds, form ≠ .field ds) :
    GivesNoField (pure form) := by
  rintro ts ds rest ⟨⟩
  exact h ds rfl

/-- What is read before does not matter. -/
theorem givesNoField_bind {p : Parser α} {f : α → Parser MemberForm}
    (h : ∀ a, GivesNoField (f a)) :
    GivesNoField (p >>= f) := by
  intro ts ds rest hrun
  obtain ⟨a, mid, -, hf⟩ := bind_eq_ok.mp hrun
  exact h a mid ds rest hf

theorem givesNoField_ite {c : Bool} {k l : Parser MemberForm} (hk : GivesNoField k)
    (hl : GivesNoField l) : GivesNoField (if c = true then k else l) := by
  cases c
  · exact hl
  · exact hk

theorem givesNoField_other (kind : String) :
    GivesNoField (restOfMember >>= fun _ => pure (.other kind)) :=
  givesNoField_bind fun _ => givesNoField_pure nofun

/-- No other rule for members gives a field. -/
theorem givesNoField_method (name : String) (returns : Bool) :
    GivesNoField (method name returns) := by
  have hrest : GivesNoField (do
      let params ← parameters
      constraints
      return .method name params (← body returns)) :=
    givesNoField_bind fun _ => givesNoField_bind fun _ => givesNoField_bind fun _ =>
      givesNoField_pure nofun
  exact givesNoField_bind fun _ => givesNoField_ite (givesNoField_bind fun _ => hrest) hrest

theorem givesNoField_constructor : GivesNoField constructor := by
  have hbody : ∀ (name : Token) (params : List Param), GivesNoField (do
      return .constructor name.text params (← body false)) := fun _ _ =>
    givesNoField_bind fun _ => givesNoField_pure nofun
  refine givesNoField_bind fun name => givesNoField_bind fun params =>
      givesNoField_bind fun _ =>
    givesNoField_ite ?_ (hbody name params)
  exact givesNoField_bind fun _ => givesNoField_bind fun _ =>
    givesNoField_ite (givesNoField_bind fun _ => hbody name params) (hbody name params)

theorem givesNoField_property (name : String) : GivesNoField (property name) := by
  have hend : ∀ words : List String, GivesNoField
      (pure (.property name (words.contains "get") (words.contains "set"))) :=
    fun _ => givesNoField_pure nofun
  refine givesNoField_bind fun _ => givesNoField_ite ?_ ?_
  · exact givesNoField_bind fun _ => givesNoField_bind fun _ => givesNoField_pure nofun
  · refine givesNoField_bind fun _ => givesNoField_bind fun words => givesNoField_bind fun _ =>
      givesNoField_bind fun _ => givesNoField_ite ?_ (hend words)
    exact givesNoField_bind fun _ => givesNoField_bind fun _ => hend words

end Forms

variable {ts rest : List Token} {ds : List String} {owner : String}

/-- A field is read by the rule for members with a type. -/
theorem typedMember_of_memberForm (h : memberForm owner ts = .ok (.field ds, rest)) :
    typedMember ts = .ok (.field ds, rest) := by
  have htest : ∀ {f : List Token → Bool} {k l : Parser MemberForm}, GivesNoField k →
      (ahead f >>= fun b => if b = true then k else l) ts = .ok (.field ds, rest) →
      l ts = .ok (.field ds, rest) := by
    intro f k l hk h
    rw [ahead_bind] at h
    split at h
    · exact absurd h (hk ts ds rest)
    · exact h
  exact htest givesNoField_constructor
    (htest (givesNoField_other _)
      (htest (givesNoField_other _) (htest (givesNoField_other _) h)))

/-- A field is read as a type, a name and variables, of which the name begins the first one. -/
theorem field_of_memberForm (hts : Lexed ts)
    (h : memberForm owner ts = .ok (.field ds, rest)) :
    ∃ named name us ws, typeReference ts = .ok ((), named) ∧
      memberName named = .ok (name, us) ∧ name :: us <:+ named ∧
      Variables ws (name :: us) rest ∧ ds = ws.map Token.spelling := by
  obtain ⟨type, named, htype, hrun⟩ := bind_eq_ok.mp (typedMember_of_memberForm h)
  obtain ⟨htype, -⟩ := of_verbatim htype
  have hnamed : Lexed named := by
    obtain ⟨w, rfl⟩ := suffix_of_reads Comparison.sim_typeReference htype
    exact hts.of_append_right
  unfold isAt at hrun
  rw [ahead_bind] at hrun
  split at hrun
  · exact absurd hrun (givesNoField_other _ named ds rest)
  rw [ahead_bind] at hrun
  split at hrun
  · exact absurd hrun (givesNoField_other _ named ds rest)
  obtain ⟨name, us, hname, hrun⟩ := bind_eq_ok.mp hrun
  rw [ahead_bind] at hrun
  split at hrun
  · exact absurd hrun (givesNoField_method _ _ us ds rest)
  rw [ahead_bind] at hrun
  split at hrun
  · exact absurd hrun (givesNoField_property _ us ds rest)
  rw [ahead_bind] at hrun
  split at hrun
  · rename_i hsign
    rcases (nameRead_memberName hnamed hname).last with ⟨hident, hlast⟩ | hthis
    · obtain ⟨ws, hws, hform⟩ := (field_iff hident).mp hrun
      obtain ⟨w, hw⟩ := hlast.suffix
      exact ⟨named, name, us, ws, htype, hname, ⟨w, hw.symm⟩, hws, MemberForm.field.inj hform⟩
    · -- Behind `this` stands none of the signs that may follow a variable.
      obtain ⟨w, hw, hread⟩ := List.any_eq_true.mp hsign
      have hne : ∀ w ∈ ["=", ";", ",", "["], "this" ≠ w := by decide
      rw [reads_unique hthis (hne w hw) (by decide)] at hread
      cases hread
  · cases hrun

end Parser

/-! ## Source texts -/

/-- The tokens `w` are what stands in the source text `s` from the start of the first of them
to the end of the last. -/
def IsSlice (s : String) (w : List Token) : Prop :=
  ∃ first last, w.head? = some first ∧ w.getLast? = some last ∧
    slice s.toList first.place.offset last.stop = (Token.spelling w).toList

/-- Tokens that stand together are a piece of the source text. -/
theorem isSlice_of_contained {s : String} {t : Tokenized} (ht : tokenize s = .ok t)
    {w : List Token} (hw : w ≠ []) (hcontained : w <:+: t.tokens) : IsSlice s w := by
  obtain ⟨before, after, hsplit⟩ := hcontained
  have hfirst := List.head?_eq_some_head hw
  have hlast := List.getLast?_eq_some_getLast hw
  exact ⟨_, _, hfirst, hlast, slice_eq_spelling ht hsplit.symm hfirst hlast⟩

/-- Each tile is a part of what is tiled. -/
theorem Tiled.contained {ws : List (List Token)} {ts rest : List Token}
    (h : Tiled ws ts rest) :
    ∀ w ∈ ws, w <:+: ts := by
  induction h with
  | last =>
    rintro w' hw'
    obtain rfl := List.mem_singleton.mp hw'
    exact (List.prefix_append _ _).isInfix
  | next hc h ih =>
    rintro w' (_ | ⟨_, hw'⟩)
    · exact (List.prefix_append _ _).isInfix
    · exact (ih w' hw').trans
        ((List.suffix_cons _ _).isInfix.trans (List.suffix_append _ _).isInfix)

theorem Lexed.suffix {ts us : List Token} (h : Lexed us) (hts : ts <:+ us) : Lexed ts := by
  obtain ⟨v, rfl⟩ := hts
  exact h.of_append_right

theorem compilationUnit_of_parse {s : String} {t : Tokenized} {u : CompilationUnit}
    (ht : tokenize s = .ok t) (h : parse s = .ok u) :
    Parser.compilationUnit t.tokens = .ok (u, []) := by
  obtain ⟨t', ht', hentries⟩ := parse_eq_ok.mp h
  obtain rfl : t = t' := Except.ok.inj (ht.symm.trans ht')
  exact Parser.nodes_iff_entries.mpr ⟨rfl, hentries⟩

/-- Somewhere in the tokens `ts` of the source text `s` stand the lead `l`, a type, and
behind it the variables `ds`.  These are slices of the text.  The first one begins at the
name that is read behind the type, one comma stands between each and the next, and a `;`
comes behind the last. -/
def TilesDeclaration (s : String) (ts : List Token) (l : Lead) (ds : List String) : Prop :=
  ∃ start typed named name rest v ws close after,
    start <:+ ts ∧ Parser.lead start = .ok (l, typed) ∧
    Parser.typeReference typed = .ok ((), named) ∧ Parser.memberName named = .ok (name, rest) ∧
    name :: rest <:+ named ∧ Tiled ((name :: v) :: ws) (name :: rest) (close :: after) ∧
    close.isOperator ";" = true ∧ (∀ w ∈ (name :: v) :: ws, IsSlice s w) ∧
    ds = ((name :: v) :: ws).map Token.spelling

/-- **The variables of every field of a source text tile its declaration, and are read
again.**  A field in the tree of a source text without escaped identifiers has its variables
one behind the other in the text.  Their texts, with a type before them and commas between
them, are read as a field with the same variables. -/
theorem field_tiles {s : String} {t : Tokenized} {unit : CompilationUnit} {l : Lead}
    {ds : List String} (ht : tokenize s = .ok t)
    (hplain : ∀ u ∈ t.tokens, u.kind ≠ .identifier true) (hparse : parse s = .ok unit)
    (hfield : .member ⟨l, .field ds⟩ ∈ itemsWithin unit.items) :
    TilesDeclaration s t.tokens l ds ∧
    ∀ owner, ∃ t' pos, tokenize ("T " ++ ", ".intercalate ds ++ ";") = .ok t' ∧
      Parser.member owner t'.tokens = .ok (.member ⟨⟨pos, [], []⟩, .field ds⟩, []) := by
  obtain ⟨owner, start, typed, after, hstart, hlead, hform⟩ :=
    Parser.readIn_of_compilationUnit (compilationUnit_of_parse ht hparse) hfield
  have htyped : typed <:+ t.tokens :=
    (Parser.suffix_of_reads Comparison.sim_lead hlead).trans hstart
  obtain ⟨named, name, rest, ws, htype, hname, hsuffix, hws, rfl⟩ :=
    Parser.field_of_memberForm ((lexed_of_tokenize ht).suffix htyped) hform
  have hvariables : name :: rest <:+ t.tokens :=
    hsuffix.trans ((Parser.suffix_of_reads Comparison.sim_typeReference htype).trans htyped)
  have hlexed : Lexed (name :: rest) := (lexed_of_tokenize ht).suffix hvariables
  refine ⟨?_, fun owner => ?_⟩
  · obtain ⟨close, hclose, htiled⟩ := hws.tiled hlexed.wellShaped
    obtain ⟨v, ws, rfl⟩ := hws.exists_name
    refine ⟨start, typed, named, name, rest, v, ws, close, after, hstart, hlead, htype, hname,
      hsuffix, htiled, hclose, fun w hw => ?_, rfl⟩
    exact isSlice_of_contained ht (hws.ne_nil w hw)
      ((htiled.contained w hw).trans hvariables.isInfix)
  · obtain ⟨t', u, name', us, ws', ht', htokens, hu, hhead, hws', hmap⟩ := hws.relaid hlexed
    have hname' : Parser.IsMemberName name' := by
      have hshaped := hlexed.wellShaped name List.mem_cons_self
      have hescaped := hplain name (hvariables.subset List.mem_cons_self)
      exact .of_content (Option.some.inj hhead)
        (Parser.isMemberName_of_plain hshaped hws.isIdentifier hescaped)
    have hfield' : Parser.field name' us = .ok (.field (ws.map Token.spelling), []) :=
      (Parser.field_iff hname'.identifier).mpr ⟨ws', hws', by rw [hmap]⟩
    refine ⟨t', u.place.pos, ht', ?_⟩
    rw [htokens,
      Parser.member_field (Parser.isTypeWord_of_content hu (by decide)) hname' hws'.reads_name,
      hfield']
    rfl

/-- Whether a field with the variables `ds` stands among declarations, at any depth. -/
def holdsField (ds : List String) (is : List Item) : Bool :=
  (itemsWithin is).any fun i => i.member?.any fun m => m.form == .field ds

/-- A field that is found in a tree is a member of it. -/
theorem exists_of_holdsField {ds : List String} {is : List Item}
    (h : holdsField ds is = true) :
    ∃ l, .member ⟨l, .field ds⟩ ∈ itemsWithin is := by
  obtain ⟨i, hi, htest⟩ := List.any_eq_true.mp h
  cases i with
  | member m =>
    obtain ⟨l, form⟩ := m
    obtain rfl : form = .field ds := by simpa [Item.member?] using htest
    exact ⟨l, hi⟩
  | _ => cases htest

/-- A field behind an annotation, in a type that is in a namespace.  Its name is qualified, and
there are commas in its values, in round and in angle brackets. -/
theorem field_tiles_nested :
    ∃ s t unit l ds, s = "namespace N" ++ Text.braced ("class C" ++
        Text.braced "[A]int I<J>.x = f(1, 2),\ny = new G<a, b>() , z[3];") ∧
      tokenize s = .ok t ∧ (∀ u ∈ t.tokens, u.kind ≠ .identifier true) ∧ parse s = .ok unit ∧
      ds = ["x = f(1, 2)", "y = new G<a, b>()", "z[3]"] ∧
      .member ⟨l, .field ds⟩ ∈ itemsWithin unit.items ∧ TilesDeclaration s t.tokens l ds ∧
      ∀ owner, ∃ t' pos, tokenize ("T " ++ ", ".intercalate ds ++ ";") = .ok t' ∧
        Parser.member owner t'.tokens = .ok (.member ⟨⟨pos, [], []⟩, .field ds⟩, []) := by
  let s := "namespace N" ++ Text.braced ("class C" ++
    Text.braced "[A]int I<J>.x = f(1, 2),\ny = new G<a, b>() , z[3];")
  let ds := ["x = f(1, 2)", "y = new G<a, b>()", "z[3]"]
  obtain ⟨t, ht, hplain⟩ := exists_ok_of_any (r := tokenize s)
    (f := fun t => t.tokens.all fun u => u.kind != .identifier true) (by decide +kernel)
  obtain ⟨unit, hparse, hholds⟩ := exists_ok_of_any (r := parse s)
    (f := fun unit => holdsField ds unit.items) (by decide +kernel)
  obtain ⟨l, hl⟩ := exists_of_holdsField hholds
  have hkinds : ∀ u ∈ t.tokens, u.kind ≠ .identifier true := fun u hu =>
    bne_iff_ne.mp (List.all_eq_true.mp hplain u hu)
  exact ⟨s, t, unit, l, ds, rfl, ht, hkinds, hparse, rfl, hl, field_tiles ht hkinds hparse hl⟩

end SharpScript
