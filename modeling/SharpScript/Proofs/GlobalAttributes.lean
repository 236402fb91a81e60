import SharpScript.Proofs.Parser.BareItems
import SharpScript.Proofs.Parser.ExpressionEnds

/-! # Annotations of the assembly

A list of annotations that is addressed to the assembly or to the module belongs to no
declaration.  It is read together with what comes behind it, and leaves no trace in the tree.

## Main Definitions

* `IsGlobalList`: the tokens of such a list;
* `Contextual`: relations of trees that what stands around them does not change;
* `Misread`: trees of which one has a statement where the other one has
  an item that stands alone;
* `ItemBoundary`: a place between two entries of a source text.

## Main Results

* `Parser.lead_global`, `Parser.Entries.global`: such a list is passed
  over before a declaration;
* `Parser.Entries.global_bare`: before an item that stands alone it makes a statement of it;
* `Parser.Entries.replace`: what stands behind some entries may be replaced;
* `Parser.Entries.insert_global`, `Parser.Entries.insert_global_bare`: the list between two
  parts of a text;
* `parse_globalList`: **such a list may stand before every declaration and every statement**,
  it cannot stand at the end of a source text, and **every `;`, every using directive and every
  name of an assembly behind it becomes a statement**.

## Design Notes

A list is read as a part of the entry behind it, so there must be one, and it must be an entry
that annotations may stand before.
-/

namespace SharpScript

open Lexer

/-! ## Lists of annotations -/

/-- Parts as `P` says, one or more, with commas between them. -/
inductive Separated (P : List Token → Prop) : List Token → Prop
  | single {us : List Token} (h : P us) : Separated P us
  | more {us vs : List Token} {c : Token} (h : P us) (hc : c.content = sign ",")
      (hs : Separated P vs) : Separated P (us ++ c :: vs)

/-- The tokens of an argument. -/
def IsArgument (us : List Token) : Prop :=
  ∃ cs : List (List Token), us = cs.flatten ∧ us ≠ [] ∧ ∀ c ∈ cs, IsOperand [",", ")"] c

/-- The tokens of arguments in brackets. -/
def IsArgumentList (us : List Token) : Prop :=
  ∃ l vs r, us = l :: (vs ++ [r]) ∧ l.content = sign "(" ∧ r.content = sign ")" ∧
    (vs = [] ∨ Separated IsArgument vs)

/-- The tokens of an annotation: a name, with arguments or without. -/
inductive IsAnnotation : List Token → Prop
  | name (n : TypeName) {us : List Token} (h : us.map Token.content = n.contents) :
      IsAnnotation us
  | call (n : TypeName) {us vs : List Token} (h : us.map Token.content = n.contents)
      (hv : IsArgumentList vs) : IsAnnotation (us ++ vs)

/-- The tokens of a list of annotations that is addressed to the assembly or to the module. -/
def IsGlobalList (us : List Token) : Prop :=
  ∃ l w c vs r, us = l :: w :: c :: (vs ++ [r]) ∧ l.content = sign "[" ∧ w.kind.isWord = true ∧
    w.text ∈ ["assembly", "module"] ∧ c.content = sign ":" ∧ r.content = sign "]" ∧
    Separated IsAnnotation vs

namespace Separated

variable {P : List Token → Prop} {ts : List Token}

theorem mem_and {Q : Token → Prop} (h : Separated P ts) (hQ : ∀ t ∈ ts, Q t) :
    Separated (fun us => P us ∧ ∀ t ∈ us, Q t) ts := by
  induction h with
  | single h => exact .single ⟨h, hQ⟩
  | more h hc _ ih =>
    obtain ⟨hus, htail⟩ := List.forall_mem_append.mp hQ
    exact .more ⟨h, hus⟩ hc (ih (List.forall_mem_cons.mp htail).2)

/-- The first part, and the others with the commas before them. -/
theorem blocks (h : Separated P ts) : ∃ us vs, ts = us ++ vs ∧ P us ∧
    ∃ xs, Blocks (fun (_ : Unit) ws => ∃ c vs, ws = c :: vs ∧ c.content = sign "," ∧
      P vs) xs vs := by
  induction h with
  | @single us h => exact ⟨us, [], (List.append_nil us).symm, h, [], .nil⟩
  | @more us _ c h hc _ ih =>
    obtain ⟨vs, ws, rfl, hvs, xs, hxs⟩ := ih
    refine ⟨us, c :: vs ++ ws, rfl, h, () :: xs, ?_⟩
    exact .cons ⟨c, vs, rfl, hc, hvs⟩ hxs

end Separated

open SharpScript.Parser

section Reading

variable {α : Type} {n : Nat} {P G H : List Token → Prop} {t : Token} {ts us : List Token}

/-- Parts with commas between them are read one by one. -/
theorem Separated.yields {item : Parser α} {more : Parser Bool} (h : Separated P ts)
    (hitem : ∀ us, P us → Yields n item H (fun _ => True) us)
    (hmore : ∀ c us rest, c.content = sign "," → P us →
      H (c :: (us ++ rest)) ∧ more (c :: (us ++ rest)) = .ok (true, us ++ rest))
    (hend : ∀ rest, G rest → H rest ∧ more rest = .ok (false, rest)) :
    Yields n (collect item more) G (fun _ => True) ts := by
  obtain ⟨us, vs, rfl, hus, xs, hvs⟩ := h.blocks
  refine (yields_collect (R := fun _ _ => True) (x := ()) hus hvs
    (fun _ _ ts hts => hitem ts hts) (fun _ _ c us rest hc hus => hmore c us rest hc hus)
    hend).mono (fun _ h => h) fun _ _ => trivial

theorem signNext_of_content {w : String} (ht : t.content = sign w) (ts : List Token) :
    SignNext w (t :: ts) := by
  obtain ⟨kind, text, gap, place⟩ := t
  obtain ⟨rfl, rfl⟩ := Prod.mk.inj ht
  exact ⟨gap, place, ts, rfl⟩

/-- An argument is read before a comma or the bracket. -/
theorem IsArgument.yields (h : IsArgument us) :
    Yields n (Text.trim <$> verbatim (expression [",", ")"]))
      (fun rest => Ahead.isOperator [",", ")"] rest = true) (fun _ => True) us := by
  obtain ⟨cs, rfl, hne, hcs⟩ := h
  have hexpression : Yields n (expression [",", ")"])
      (fun rest => Ahead.isOperator [",", ")"] rest = true) (fun _ => True) cs.flatten :=
    fun rest _ hrest => ⟨(), expression_eq_ok_iff.mpr ⟨hrest, cs, rfl, hne, hcs⟩, trivial⟩
  exact (hexpression.verbatim hne).map fun _ _ => trivial

/-- No argument begins with the closing bracket. -/
theorem IsArgument.reads_eq_false (h : IsArgument us) (hshape : ∀ t ∈ us, WellShaped t)
    (rest : List Token) : Ahead.reads ")" (us ++ rest) = false := by
  obtain ⟨cs, rfl, hne, hcs⟩ := h
  cases cs with
  | nil => exact absurd rfl hne
  | cons c cs =>
    have hc := hcs c List.mem_cons_self
    obtain ⟨t, c, rfl⟩ := List.exists_cons_of_ne_nil hc.isChunk.ne_nil
    refine Bool.eq_false_iff.mpr fun hread => ?_
    obtain ⟨hkind, htext⟩ :=
      (hshape t (by simp)).isOperator_of_reads (w := ")") hread (by decide)
    have hstop := isOperator_cons_eq_false.mp (hc.isOperator_eq [])
    exact hstop ⟨hkind, by simp [htext]⟩

/-- A list of arguments is read up to its bracket. -/
theorem IsArgumentList.yields (h : IsArgumentList us) (hshape : ∀ t ∈ us, WellShaped t) :
    Yields n attributeArguments (fun _ => True) (fun _ => True) us := by
  obtain ⟨l, vs, r, rfl, hl, hr, hvs⟩ := h
  refine .expect (reads_of_content hl) ?_
  rcases hvs with rfl | hvs
  · exact (Yields.accept (reads_of_content hr) (yields_pure trivial)).less
  · refine .skip (fun rest _ => ?_) (.bind (H := SignNext ")") (V := fun _ => True) ?_
      (fun rest _ => signNext_of_content hr rest) fun _ _ =>
        .expect (reads_of_content hr) (yields_pure trivial))
    · obtain ⟨us, ws, rfl, hus, -⟩ := hvs.blocks
      rw [List.append_assoc, List.append_assoc]
      exact hus.reads_eq_false (fun t ht => hshape t (by simp [ht])) _
    · refine hvs.yields (fun us hus => hus.yields) (fun c us rest hc _ => ?_) ?_
      · obtain ⟨g, p, _, hcons⟩ := signNext_of_content hc (us ++ rest)
        obtain ⟨rfl, rfl⟩ := List.cons.inj hcons
        exact ⟨rfl, rfl⟩
      · rintro _ ⟨g, p, us, rfl⟩
        exact ⟨rfl, rfl⟩

/-- An annotation begins with a word. -/
theorem IsAnnotation.reads_eq_false (h : IsAnnotation us) {w : String}
    (hw : startsWord w = false) (rest : List Token) : Ahead.reads w (us ++ rest) = false := by
  have hname : ∀ (m : TypeName) {vs : List Token} (rest : List Token),
      vs.map Token.content = m.contents → Ahead.reads w (vs ++ rest) = false := by
    intro m vs rest hvs
    obtain ⟨i, t, ws, rfl, ht, -⟩ := m.exists_word hvs
    exact Identifier.reads_eq_false ht hw
  cases h with
  | name m hus => exact hname m rest hus
  | @call m us vs hus _ =>
    rw [List.append_assoc]
    exact hname m (vs ++ rest) hus

/-- What comes behind an annotation. -/
def EndsAnnotation (rest : List Token) : Prop := SignNext "," rest ∨ SignNext "]" rest

theorem EndsAnnotation.endsType {rest : List Token} (h : EndsAnnotation rest) :
    EndsType rest ∧ Ahead.reads "(" rest = false := by
  rcases h with ⟨g, p, us, rfl⟩ | ⟨g, p, us, rfl⟩ <;>
    exact ⟨endsType_of_text (by simp [Ahead.text]), rfl⟩

/-- An annotation is read before a comma or the bracket of the list. -/
theorem IsAnnotation.yields (h : IsAnnotation us) (hshape : ∀ t ∈ us, WellShaped t) :
    Yields n oneAttribute EndsAnnotation (fun _ => True) us := by
  have htype : ∀ (m : TypeName) {vs : List Token}, vs.map Token.content = m.contents →
      Yields n (verbatim typeReference) EndsType (fun _ => True) vs := by
    intro m vs hvs
    have hne : vs ≠ [] := by
      obtain ⟨i, t, ws, rfl, -⟩ := m.exists_word hvs
      exact List.cons_ne_nil t ws
    have hread : Yields n typeReference EndsType (fun _ => True) vs := fun rest _ hrest =>
      ⟨(), TypeSyntax.typeReference_append (.solid (.name m)) hvs hrest, trivial⟩
    exact (hread.verbatim hne).mono (fun _ h => h) fun _ _ => trivial
  refine .here fun pos => ?_
  cases h with
  | name m hus =>
    rw [← List.append_nil us]
    refine (htype m hus).bind (fun rest hrest => hrest.endsType.1) fun _ _ => ?_
    exact .neg (fun rest hrest => hrest.endsType.2) (yields_pure trivial)
  | @call m us vs hus hvs =>
    obtain ⟨l, ws, r, rfl, hl, -⟩ := id hvs
    have hargs := hvs.yields (n := n) fun t ht => hshape t (List.mem_append_right us ht)
    refine (htype m hus).bind (fun rest _ => ?_) fun _ _ =>
      .pos (fun rest _ => reads_of_content hl) ?_
    · intro w hw
      rw [List.cons_append, reads_cons_of_content hl]
      revert w
      decide
    · exact (hargs.mono (fun _ _ => trivial) fun _ h => h).map fun _ _ => trivial

/-- **A list of annotations of the assembly is read to its end and gives none.** -/
theorem IsGlobalList.yields (h : IsGlobalList us) (hshape : ∀ t ∈ us, WellShaped t) :
    Yields n attributeList (fun _ => True) (· = []) us := by
  obtain ⟨l, w, c, vs, r, rfl, hl, hword, htarget, hc, hr, hvs⟩ := h
  have htargets : Yields n attributeTarget (fun _ => True) (· = w.text) [w, c] := by
    intro rest _ _
    have htest :
        (Ahead.isWord 0 ([w, c] ++ rest) && Ahead.text 1 ([w, c] ++ rest) == ":") = true := by
      obtain ⟨-, htext⟩ := Prod.mk.inj hc
      simp [Ahead.isWord, Ahead.text, hword, htext]
    refine ⟨w.text, ?_, rfl⟩
    unfold attributeTarget
    rw [ahead_bind, htest]
    rfl
  have hlist :
      Yields n (collect oneAttribute (commaBefore "]")) (SignNext "]") (fun _ => True) vs := by
    have hparts := hvs.mem_and (Q := WellShaped) fun t ht => hshape t (by simp [ht])
    refine hparts.yields (H := EndsAnnotation) (fun us hus => hus.1.yields hus.2)
      (fun c us rest hc hus => ⟨.inl (signNext_of_content hc _), ?_⟩) ?_
    · obtain ⟨g, p, _, hcons⟩ := signNext_of_content hc (us ++ rest)
      obtain ⟨rfl, rfl⟩ := List.cons.inj hcons
      show Except.ok (!Ahead.reads "]" (us ++ rest), us ++ rest) = _
      rw [hus.1.reads_eq_false (by decide) rest]
      rfl
    · rintro _ ⟨g, p, us, rfl⟩
      exact ⟨.inr ⟨g, p, us, rfl⟩, rfl⟩
  refine .expect (reads_of_content hl) ?_
  show Yields n _ _ _ ([w, c] ++ (vs ++ [r]))
  refine .bind htargets (fun _ _ => trivial) ?_
  rintro _ rfl
  refine .bind hlist (fun rest _ => signNext_of_content hr rest) fun as _ =>
    .expect (reads_of_content hr) (yields_pure ?_)
  rw [if_pos (by simpa using htarget)]

end Reading

/-! ## Trees with a part replaced -/

/-- A relation of compilation units that the entries before them, if they agree, and a
namespace around them do not change. -/
structure Contextual (R : CompilationUnit → CompilationUnit → Prop) : Prop where
  append {a a' u v : CompilationUnit} : a.Agrees Eq Eq a' → R u v → R (a ++ u) (a' ++ v)
  scope {u v : CompilationUnit} (pos pos' : Pos) (name : String) : R u v →
    R ⟨u.usings, [.scope pos name u.items]⟩ ⟨v.usings, [.scope pos' name v.items]⟩

/-- Units that agree do so with the same before them and in the same namespace. -/
theorem contextual_agrees : Contextual (CompilationUnit.Agrees Eq Eq) where
  append ha h := ha.append h
  scope pos pos' name h := ⟨h.usings, .cons (.scope pos pos' name h.items) .nil⟩

/-- Where the first tree has the using directives `ds`, or nothing, the second one has a
statement in their place.  In all else they agree. -/
inductive Misread (ds : List String) : CompilationUnit → CompilationUnit → Prop
  | here {u v : CompilationUnit} (pos : Pos) (b : CompilationUnit)
      (hu : CompilationUnit.Agrees Eq Eq (⟨ds, []⟩ ++ b) u)
      (hv : CompilationUnit.Agrees Eq Eq (⟨[], [.skipped pos "" (some "statement")]⟩ ++ b) v) :
      Misread ds u v
  | behind {a a' u v : CompilationUnit} (ha : a.Agrees Eq Eq a') (h : Misread ds u v) :
      Misread ds (a ++ u) (a' ++ v)
  | within {u v : CompilationUnit} (pos pos' : Pos) (name : String) (h : Misread ds u v) :
      Misread ds ⟨u.usings, [.scope pos name u.items]⟩ ⟨v.usings, [.scope pos' name v.items]⟩

theorem contextual_misread (ds : List String) : Contextual (Misread ds) := ⟨.behind, .within⟩

/-- Such trees are different. -/
theorem Misread.not_agrees {ds : List String} {u v : CompilationUnit} (h : Misread ds u v) :
    ¬ u.Agrees Eq Eq v := by
  induction h with
  | @here u v pos b hu hv =>
    intro hagrees
    have hlength : (b.items.length : Nat) = 1 + b.items.length := by
      calc b.items.length = u.items.length := hu.items.length_eq
        _ = v.items.length := hagrees.items.length_eq
        _ = 1 + b.items.length := by rw [← hv.items.length_eq]; exact List.length_append
    omega
  | behind ha _ ih => exact fun hagrees => ih (ha.of_append hagrees)
  | within pos pos' name _ ih =>
    rintro ⟨husings, hitems⟩
    cases hitems with
    | cons head _ =>
      cases head with
      | scope _ _ _ hitems => exact ih ⟨husings, hitems⟩

/-! ## What stands behind the list -/

namespace Parser

variable {g ts us mid rest : List Token}

/-- A global list gives nothing, and the lists behind it are read. -/
theorem attributeLists_global (hg : IsGlobalList g) (hshape : ∀ t ∈ g, WellShaped t)
    {as : List Annotation} :
    attributeLists (g ++ us) = .ok (as, rest) ↔ attributeLists us = .ok (as, rest) := by
  obtain ⟨_, hlist, rfl⟩ := hg.yields (n := (g ++ us).length + 1) hshape us (by simp) trivial
  have hread : Ahead.reads "[" (g ++ us) = true := by
    obtain ⟨l, w, c, vs, r, rfl, hl, -⟩ := hg
    exact reads_of_content hl
  rw [attributeLists_eq_ok, hread, hlist]
  constructor
  · rintro (⟨⟨⟩, -⟩ | ⟨-, _, _, bs, ⟨⟩, hrest, rfl⟩)
    exact hrest
  · exact fun h => .inr ⟨rfl, [], us, as, rfl, h, rfl⟩

/-- A global list before a declaration changes nothing but where the declaration starts. -/
theorem lead_global (hg : IsGlobalList g) (hshape : ∀ t ∈ g, WellShaped t) (us : List Token) :
    ∃ pos, ∀ l' rest, lead (g ++ us) = .ok (l', rest) ↔
      ∃ l, lead us = .ok (l, rest) ∧ l' = { l with pos := pos } := by
  refine ⟨((g ++ us).head?.map fun t => t.place.pos).getD default, fun l' rest => ?_⟩
  rw [lead_eq_ok]
  constructor
  · rintro ⟨as, mid, ws, has, hws, rfl⟩
    exact ⟨_,
      lead_eq_ok.mpr ⟨as, mid, ws, (attributeLists_global hg hshape).mp has, hws, rfl⟩, rfl⟩
  · rintro ⟨_, h, rfl⟩
    obtain ⟨as, mid, ws, has, hws, rfl⟩ := lead_eq_ok.mp h
    exact ⟨as, mid, ws, (attributeLists_global hg hshape).mpr has, hws, rfl⟩

theorem agrees_pos (l : Lead) (pos : Pos) : Lead.Agrees Eq Eq l { l with pos := pos } where
  annotations := List.forall₂_same.mpr fun _ _ => ⟨rfl, List.forall₂_same.mpr fun _ _ => rfl⟩
  modifiers := rfl

/-- A global list before a declaration or statement changes nothing but where that starts. -/
theorem closedNode_global (hg : IsGlobalList g) (hshape : ∀ t ∈ g, WellShaped t)
    {r : Item × List String} (h : closedNode node us = .ok (r, rest)) :
    ∃ r', closedNode node (g ++ us) = .ok (r', rest) ∧
      Comparison.NodeAgrees .shifted r r' := by
  obtain ⟨l, mid, hlead, h⟩ := bind_eq_ok.mp h
  obtain ⟨pos, hpos⟩ := lead_global hg hshape us
  have hlead' := (hpos _ mid).mpr ⟨l, hlead, rfl⟩
  rw [isAt, ahead_bind] at h
  split at h
  · rename_i hspace
    obtain ⟨name, mid₁, hname, h⟩ := bind_eq_ok.mp h
    obtain ⟨_, r', rfl, hr', hagrees⟩ :=
      (Comparison.sim_bracedScope Comparison.sim_node _ pos name).same (.refl _) h
    refine ⟨r', bind_eq_ok.mpr ⟨_, mid, hlead', ?_⟩, hagrees⟩
    rw [isAt, ahead_bind, if_pos hspace]
    exact bind_eq_ok.mpr ⟨name, mid₁, hname, hr'⟩
  · rename_i hspace
    obtain ⟨item, mid₁, hitem, h⟩ := bind_eq_ok.mp h
    obtain ⟨_, item', hmid, hitem', hagrees⟩ :=
      (Comparison.sim_typeDeclaration Comparison.sim_member (agrees_pos l pos)).same
        (.refl _) hitem
    rw [← hmid] at hitem'
    have hbehind : ∀ {k : Parser (Item × List String)}
        {f : Option Item → Parser (Item × List String)} {r' : Item × List String},
        f item' mid₁ = .ok (r', rest) →
        (isAt "namespace" >>= fun b => if b = true then k else
          typeDeclaration member { l with pos := pos } >>= f) mid = .ok (r', rest) := by
      intro k f r' hr'
      rw [isAt, ahead_bind, if_neg hspace]
      exact bind_eq_ok.mpr ⟨item', mid₁, hitem', hr'⟩
    cases hagrees with
    | some hagrees =>
      cases h
      exact ⟨(_, []), bind_eq_ok.mpr ⟨_, mid, hlead', hbehind rfl⟩, hagrees, .nil⟩
    | none =>
      obtain ⟨_, _, hstatement, hpure⟩ := bind_eq_ok.mp h
      cases hpure
      exact ⟨(.skipped pos "" (some "statement"), []), bind_eq_ok.mpr ⟨_, mid, hlead',
        hbehind (bind_eq_ok.mpr ⟨(), _, hstatement, rfl⟩)⟩, .skipped _ _ _ _, .nil⟩

/-- A namespace for the rest of a file is found behind the list. -/
theorem fileScope_global (hg : IsGlobalList g) (hshape : ∀ t ∈ g, WellShaped t) {pos : Pos}
    {name : String} (h : fileScope us = .ok ((pos, name), rest)) :
    ∃ pos', fileScope (g ++ us) = .ok ((pos', name), rest) := by
  obtain ⟨l, mid, hlead, h⟩ := bind_eq_ok.mp h
  obtain ⟨pos', hpos⟩ := lead_global hg hshape us
  obtain ⟨_, mid', hname, h⟩ := bind_eq_ok.mp h
  obtain ⟨_, _, hsemi, hpure⟩ := bind_eq_ok.mp h
  cases hpure
  exact ⟨pos', bind_eq_ok.mpr ⟨_, mid, (hpos _ mid).mpr ⟨l, hlead, rfl⟩,
    bind_eq_ok.mpr ⟨_, mid', hname, bind_eq_ok.mpr ⟨(), _, hsemi, rfl⟩⟩⟩⟩

theorem reads_global (hg : IsGlobalList g) {w : String} (hw : w ≠ "[") (us : List Token) :
    Ahead.reads w (g ++ us) = false := by
  obtain ⟨l, _, _, _, _, rfl, hl, -⟩ := hg
  rw [List.cons_append, reads_cons_of_content hl]
  exact beq_eq_false_iff_ne.mpr hw.symm

/-- The list begins no `;`, using directive or name of an assembly. -/
theorem plain_global (hg : IsGlobalList g) (us : List Token) : Plain (g ++ us) where
  semicolon := reads_global hg (by decide) us
  directive := by
    rw [startsUsing, reads_global hg (by decide), reads_global hg (by decide)]
    rfl
  assembly := by
    rw [reads_global hg (by decide)]
    rfl

theorem Plain.alike (h : Plain ts) (halike : Alike ts us) : Plain us where
  semicolon := (tame_reads ";").alike _ _ halike ▸ h.semicolon
  directive := tame_startsUsing.alike _ _ halike ▸ h.directive
  assembly := Comparison.test_startsAlias.tame.alike _ _ halike ▸ h.assembly

/-- The entries of a list of tokens are those of one unit. -/
theorem Entries.unique {u v : CompilationUnit} (hu : Entries ts u) (hv : Entries ts v) :
    u = v := by
  have hrun := nodes_iff_entries.mpr ⟨rfl, hu⟩
  rw [nodes_iff_entries.mpr ⟨rfl, hv⟩] at hrun
  exact (Prod.mk.inj (Except.ok.inj hrun)).1.symm

/-- A unit that is read agrees with itself. -/
theorem Entries.agrees_refl {u : CompilationUnit} (h : Entries ts u) : u.Agrees Eq Eq u := by
  obtain ⟨v, hv, hagrees⟩ := h.shift (.refl ts)
  rwa [hv.unique h] at hagrees

theorem Entries.agrees_trans {u v w : CompilationUnit} (h : Entries ts u)
    (hv : u.Agrees Eq Eq v) (hw : v.Agrees Eq Eq w) : u.Agrees Eq Eq w := by
  have heuclidean : Euclidean (CompilationUnit.Agrees Eq Eq) :=
    .euclidean (euclidean_eq _) (euclidean_eq _)
  exact heuclidean (heuclidean hv h.agrees_refl) hw

/-- **A global list may stand before a declaration or a statement.** -/
theorem Entries.global (hg : IsGlobalList g) (hshape : ∀ t ∈ g, WellShaped t)
    {v : CompilationUnit} (h : Entries us v) (hus : us ≠ []) (hplain : Plain us) :
    ∃ v', Entries (g ++ us) v' ∧ v.Agrees Eq Eq v' := by
  cases h with
  | nil => exact absurd rfl hus
  | entry _ head tail =>
    rw [Parser.entry, entryWith_of_plain hplain] at head
    obtain ⟨r, mid, hnode, hpure⟩ := bind_eq_ok.mp head
    cases hpure
    obtain ⟨r', hnode', hitem, husings⟩ := closedNode_global hg hshape hnode
    have hagrees : CompilationUnit.Agrees Eq Eq ⟨r.2, [r.1]⟩ ⟨r'.2, [r'.1]⟩ :=
      ⟨husings, .cons hitem .nil⟩
    refine ⟨_, .entry (List.append_ne_nil_of_right_ne_nil g hus) ?_ tail,
      hagrees.append tail.agrees_refl⟩
    rw [Parser.entry, entryWith_of_plain (plain_global hg us)]
    exact bind_eq_ok.mpr ⟨r', _, hnode', rfl⟩
  | scope _ head tail =>
    obtain ⟨pos', head'⟩ := fileScope_global hg hshape head
    have hinner := tail.agrees_refl
    exact ⟨_, .scope (plain_global hg us) head' tail, hinner.usings,
      .cons (.scope _ _ _ hinner.items) .nil⟩

/-- At the end of a source text there is nothing that a global list could stand before. -/
theorem not_entries_global (hg : IsGlobalList g) (hshape : ∀ t ∈ g, WellShaped t)
    {v : CompilationUnit} : ¬ Entries g v := by
  have hlead : ∀ l mid, lead g = .ok (l, mid) → mid = [] := by
    intro l mid h
    obtain ⟨pos, hpos⟩ := lead_global hg hshape []
    rw [List.append_nil] at hpos
    obtain ⟨l, hnil, -⟩ := (hpos l mid).mp h
    cases hnil
    rfl
  intro h
  cases h with
  | nil =>
    obtain ⟨l, w, c, vs, r, h, -⟩ := hg
    cases h
  | entry _ head _ =>
    have hplain := plain_global hg []
    rw [List.append_nil] at hplain
    rw [Parser.entry, entryWith_of_plain hplain] at head
    obtain ⟨r, mid, hnode, -⟩ := bind_eq_ok.mp head
    obtain ⟨l, mid, hl, hnode⟩ := bind_eq_ok.mp hnode
    obtain rfl := hlead l mid hl
    cases hnode
  | scope _ head _ =>
    obtain ⟨l, mid, hl, hscope⟩ := bind_eq_ok.mp head
    obtain rfl := hlead l mid hl
    cases hscope

/-! ## Entries before the list -/

/-- A namespace that reaches to the end of the text is no entry. -/
theorem not_entry_of_fileScope {r : Pos × String} {a : CompilationUnit} (hplain : Plain ts)
    (hscope : fileScope ts = .ok (r, mid)) : entry ts ≠ .ok (a, rest) := by
  intro hentry
  rw [entry, entryWith_of_plain hplain] at hentry
  obtain ⟨_, _, hnode, -⟩ := bind_eq_ok.mp hentry
  obtain ⟨l, mid₁, hlead, hnode⟩ := bind_eq_ok.mp hnode
  obtain ⟨l', mid₁', hlead', hscope⟩ := bind_eq_ok.mp hscope
  obtain ⟨rfl, rfl⟩ := Prod.mk.inj (Except.ok.inj (hlead.symm.trans hlead'))
  obtain ⟨name, mid₂, hname, hscope⟩ := bind_eq_ok.mp hscope
  have hspace : Ahead.reads "namespace" mid₁ = true := (expect_bind_eq_ok.mp hname).1
  rw [isAt, ahead_bind, if_pos hspace] at hnode
  obtain ⟨name', mid₂', hname', hnode⟩ := bind_eq_ok.mp hnode
  obtain ⟨rfl, rfl⟩ := Prod.mk.inj (Except.ok.inj (hname.symm.trans hname'))
  -- Behind the name there is a brace, and there is a `;`.
  have hbrace := (expect_bind_eq_ok.mp hnode).1
  rw [reads_unique (expect_bind_eq_ok.mp hscope).1 (by decide) (by decide)] at hbrace
  cases hbrace

/-- A unit is its first entry with the unit of what is left. -/
theorem Entries.of_entry {a w : CompilationUnit} (h : Entries ts w) (hts : ts ≠ [])
    (hentry : Parser.entry ts = .ok (a, mid)) : ∃ b, Entries mid b ∧ w = a ++ b := by
  cases h with
  | nil => exact absurd rfl hts
  | entry _ head tail =>
    obtain ⟨rfl, rfl⟩ := Prod.mk.inj (Except.ok.inj (hentry.symm.trans head))
    exact ⟨_, tail, rfl⟩
  | scope plain head _ => exact absurd hentry (not_entry_of_fileScope plain head)

/-- A unit that begins with a namespace for the rest of a file holds what is left. -/
theorem Entries.of_fileScope {pos : Pos} {name : String} {w : CompilationUnit}
    (h : Entries ts w) (hplain : Plain ts) (hscope : fileScope ts = .ok ((pos, name), mid)) :
    ∃ inner, Entries mid inner ∧ w = ⟨inner.usings, [.scope pos name inner.items]⟩ := by
  cases h with
  | nil => cases hscope
  | entry _ head _ => exact absurd head (not_entry_of_fileScope hplain hscope)
  | scope _ head tail =>
    cases hscope.symm.trans head
    exact ⟨_, tail, rfl⟩

/-- **Behind a global list, an item that stands alone is read as a statement.** -/
theorem Entries.global_bare (hg : IsGlobalList g) (hshape : ∀ t ∈ g, WellShaped t)
    {d : List Token} {ds : List String} (hd : IsBare d ds) {v : CompilationUnit}
    (h : Entries (d ++ rest) v) (hshift : Shifted (d ++ rest) us) :
    ∃ pos b b', v = ⟨ds, []⟩ ++ b ∧ b.Agrees Eq Eq b' ∧
      Entries (g ++ us) (⟨[], [.skipped pos "" (some "statement")]⟩ ++ b') := by
  have hd' : d ++ rest ≠ [] := List.append_ne_nil_of_left_ne_nil hd.ne_nil rest
  obtain ⟨b, hb, rfl⟩ := h.of_entry hd' (hd.entry_append rest)
  obtain ⟨pos, hnode⟩ := hd.closedNode_append rest
  obtain ⟨n, ⟨item₁, usings₁⟩, hrest, hnode, hagrees⟩ :=
    (Comparison.sim_closedNode Comparison.sim_node).same hshift hnode
  have hshift' := hshift.drop n
  rw [← hrest] at hshift'
  obtain ⟨b', hb', hagreesb⟩ := hb.shift hshift'
  obtain ⟨⟨item, usings⟩, hnode, hagrees'⟩ := closedNode_global hg hshape hnode
  -- The two steps have only moved the statement.
  obtain ⟨pos', rfl, rfl⟩ : ∃ pos', item = .skipped pos' "" (some "statement") ∧
      usings = [] := by
    obtain ⟨hitem, husings⟩ := hagrees
    obtain ⟨hitem', husings'⟩ := hagrees'
    cases hitem
    cases hitem'
    cases husings
    cases husings'
    exact ⟨_, rfl, rfl⟩
  refine ⟨pos', b, b', rfl, hagreesb, .entry (List.append_ne_nil_of_right_ne_nil g ?_) ?_ hb'⟩
  · exact hshift.alike.ne_nil hd'
  · rw [Parser.entry, entryWith_of_plain (plain_global hg us)]
    exact bind_eq_ok.mpr ⟨_, _, hnode, rfl⟩

/-- A `;` is an entry of its own, which gives nothing. -/
theorem Entries.semicolon {t : Token} {v : CompilationUnit} (h : Entries us v)
    (ht : t.reads ";" = true) : Entries (t :: us) v := by
  have hentry : Parser.entry (t :: us) = .ok (∅, us) := by
    rw [Parser.entry, entryWith_eq, if_pos (show Ahead.reads ";" (t :: us) = true from ht)]
    rfl
  exact .entry (List.cons_ne_nil t us) hentry h

/-- What comes next neither goes on with a statement nor is a `;` that a
declaration may end with. -/
def Unclaimed (us : List Token) : Prop :=
  ∀ w ∈ ["else", "catch", "finally", ";"], Ahead.reads w us = false

/-- Whether tokens go on with a statement depends on their contents. -/
theorem Unclaimed.alike (h : Unclaimed ts) (halike : Alike ts us) : Unclaimed us :=
  fun w hw => (tame_reads w).alike _ _ halike ▸ h w hw

theorem Unclaimed.goesOn (h : Unclaimed us) :
    ∀ w ∈ ["else", "catch", "finally"], Ahead.reads w us = false :=
  fun w hw => h w (List.mem_append_left [";"] hw)

/-- The list goes on with no statement before it. -/
theorem unclaimed_global (hg : IsGlobalList g) (us : List Token) : Unclaimed (g ++ us) := by
  intro w hw
  refine reads_global hg ?_ us
  rintro rfl
  revert hw
  decide

/-- An entry is read alike where more tokens come behind, and only passes over a `;` then. -/
theorem entry_append {a : CompilationUnit} (hclosed : Closed ts) (h : entry ts = .ok (a, mid))
    (hus : ∀ w ∈ ["else", "catch", "finally"], Ahead.reads w us = false) :
    ∃ a' zs, entry (ts ++ us) = .ok (a', zs) ∧ a.Agrees Eq Eq a' ∧ Closed mid ∧
      (zs = mid ++ us ∨ mid = [] ∧ ∃ t, us = t :: zs ∧ t.reads ";" = true) := by
  obtain ⟨n, a', hn, rfl, -, hagrees, hrun⟩ :=
    (Comparison.sim_entry (C := .extension us) ts (ts ++ us) ⟨rfl, hclosed⟩).ok h
  rw [List.drop_append_of_le_length hn] at hrun
  have hmet : Contract.entry.Met (ts.drop n) (ts.drop n ++ us) := by
    by_cases hnil : ts.drop n = []
    · rw [hnil]
      exact .inr ⟨_, rfl, hus⟩
    · exact .inl hnil
  obtain ⟨zs, hzs, hlands⟩ := hrun (.inr hmet)
  refine ⟨a', zs, hzs, hagrees, hclosed.drop n, ?_⟩
  rcases hlands with rfl | ⟨-, hnil, t, hcons, ht⟩
  · exact .inl rfl
  · rw [hnil, List.nil_append] at hcons
    exact .inr ⟨hnil, t, hcons, ht⟩

/-- An entry is read the same before tokens that do not go on with it. -/
theorem Unclaimed.entry_append {a : CompilationUnit} (hus : Unclaimed us) (hclosed : Closed ts)
    (h : entry ts = .ok (a, mid)) :
    ∃ a', entry (ts ++ us) = .ok (a', mid ++ us) ∧ a.Agrees Eq Eq a' := by
  obtain ⟨a', zs, hzs, hagrees, -, rfl | ⟨-, t, rfl, ht⟩⟩ :=
    Parser.entry_append hclosed h hus.goesOn
  · exact ⟨a', hzs, hagrees⟩
  · rw [show t.reads ";" = false from hus ";" (by simp)] at ht
    cases ht

/-- So is the head of a namespace for the rest of a file. -/
theorem fileScope_append {pos : Pos} {name : String} (hclosed : Closed ts)
    (h : fileScope ts = .ok ((pos, name), mid)) (us : List Token) :
    ∃ pos', fileScope (ts ++ us) = .ok ((pos', name), mid ++ us) ∧ Closed mid := by
  obtain ⟨n, ⟨pos', name'⟩, hn, rfl, -, hname, hrun⟩ :=
    (Comparison.sim_fileScope (C := .extension us) ts (ts ++ us) ⟨rfl, hclosed⟩).ok h
  obtain rfl : name = name' := hname
  obtain ⟨zs, hzs, hlands⟩ := hrun (.inr (.inr ⟨_, rfl, nofun⟩))
  obtain rfl := hlands.eq_of_tight rfl
  rw [List.drop_append_of_le_length hn] at hzs
  exact ⟨pos', hzs, hclosed.drop n⟩

/-- **What stands behind some entries is read as it is alone, and may be replaced.**  The two
trees are then related as the two replacements are. -/
theorem Entries.replace {R : CompilationUnit → CompilationUnit → Prop} (hR : Contextual R)
    {u w : CompilationUnit} (h : Entries ts u) (hclosed : Closed ts)
    (hus : ∀ w ∈ ["else", "catch", "finally"], Ahead.reads w us = false)
    (hw : Entries (ts ++ us) w) :
    ∃ v, Entries us v ∧ ∀ us' v', Unclaimed us' → Entries us' v' → R v v' →
      ∃ w', Entries (ts ++ us') w' ∧ R w w' := by
  induction h generalizing w with
  | nil => exact ⟨w, hw, fun us' v' _ hv' hrel => ⟨v', hv', hrel⟩⟩
  | @entry ts mid a b hts head tail ih =>
    have hne : ∀ us, ts ++ us ≠ [] := List.append_ne_nil_of_left_ne_nil hts
    obtain ⟨a₁, zs, head₁, hagrees₁, hmid, hzs⟩ := entry_append hclosed head hus
    obtain ⟨b₁, htail₁, rfl⟩ := hw.of_entry (hne us) head₁
    have happend : ∀ {a₂ b₂}, a.Agrees Eq Eq a₂ → R b₁ b₂ → R (a₁ ++ b₁) (a₂ ++ b₂) :=
      fun hagrees₂ =>
        hR.append (.euclidean (euclidean_eq _) (euclidean_eq _) hagrees₁ hagrees₂)
    rcases hzs with rfl | ⟨rfl, t, rfl, ht⟩
    · obtain ⟨v, hv, hreplace⟩ := ih hmid htail₁
      refine ⟨v, hv, fun us' v' hus' hv' hrel => ?_⟩
      obtain ⟨a₂, head₂, hagrees₂⟩ := hus'.entry_append hclosed head
      obtain ⟨b₂, htail₂, hb⟩ := hreplace us' v' hus' hv' hrel
      exact ⟨a₂ ++ b₂, .entry (hne us') head₂ htail₂, happend hagrees₂ hb⟩
    · -- The last entry has passed over a `;`, which is an entry of its own elsewhere.
      refine ⟨b₁, htail₁.semicolon ht, fun us' v' hus' hv' hrel => ?_⟩
      obtain ⟨a₂, head₂, hagrees₂⟩ := hus'.entry_append hclosed head
      exact ⟨a₂ ++ v', .entry (hne us') head₂ hv', happend hagrees₂ hrel⟩
  | @scope ts mid pos name inner plain head tail ih =>
    have hts : ts ≠ [] := by
      rintro rfl
      cases head
    obtain ⟨pos₁, head₁, hmid⟩ := fileScope_append hclosed head us
    obtain ⟨inner₁, htail₁, rfl⟩ := hw.of_fileScope (plain.extend hts hclosed us) head₁
    obtain ⟨v, hv, hreplace⟩ := ih hmid htail₁
    refine ⟨v, hv, fun us' v' hus' hv' hrel => ?_⟩
    obtain ⟨pos₂, head₂, -⟩ := fileScope_append hclosed head us'
    obtain ⟨inner₂, htail₂, hinner⟩ := hreplace us' v' hus' hv' hrel
    exact ⟨_, .scope (plain.extend hts hclosed us') head₂ htail₂,
      hR.scope pos₁ pos₂ name hinner⟩

/-- The list between two parts of a text leaves the tree as it is, if the second one is a
declaration or a statement. -/
theorem Entries.insert_global {us' ws : List Token} {u₁ u : CompilationUnit}
    (hg : IsGlobalList g) (hshape : ∀ t ∈ g, WellShaped t) (h₁ : Entries ts u₁)
    (hclosed : Closed ts) (hus : ∀ w ∈ ["else", "catch", "finally"], Ahead.reads w us = false)
    (h : Entries (ts ++ us) u) (hne : us ≠ []) (hplain : Plain us) (hshift : Shifted us us')
    (hws : Shifted (g ++ us') ws) : ∃ w, Entries (ts ++ ws) w ∧ u.Agrees Eq Eq w := by
  obtain ⟨v, hv, hreplace⟩ := h₁.replace contextual_agrees hclosed hus h
  -- Behind the list stands what has stood there before.
  obtain ⟨v₁, hv₁, hagrees₁⟩ := hv.shift hshift
  obtain ⟨v₂, hv₂, hagrees₂⟩ := Entries.global hg hshape hv₁ (hshift.alike.ne_nil hne)
    (hplain.alike hshift.alike)
  obtain ⟨v₃, hv₃, hagrees₃⟩ := hv₂.shift hws
  exact hreplace ws v₃ ((unclaimed_global hg us').alike hws.alike) hv₃
    (hv.agrees_trans hagrees₁ (hv₁.agrees_trans hagrees₂ hagrees₃))

/-- Of an item that stands alone the list makes a statement. -/
theorem Entries.insert_global_bare {us' ws d : List Token} {ds : List String}
    {u₁ u : CompilationUnit} (hg : IsGlobalList g) (hshape : ∀ t ∈ g, WellShaped t)
    (h₁ : Entries ts u₁) (hclosed : Closed ts)
    (hus : ∀ w ∈ ["else", "catch", "finally"], Ahead.reads w us = false)
    (h : Entries (ts ++ us) u) (hbare : IsBare d ds) (hshift : Shifted (d ++ rest) us)
    (hshift' : Shifted (d ++ rest) us') (hws : Shifted (g ++ us') ws) :
    ∃ w, Entries (ts ++ ws) w ∧ Misread ds u w := by
  obtain ⟨v, hv, hreplace⟩ := h₁.replace (contextual_misread ds) hclosed hus h
  obtain ⟨v₁, hv₁, hagrees₁⟩ := hv.shift hshift.symm
  obtain ⟨pos, b, b', rfl, hb, hv₂⟩ := Entries.global_bare hg hshape hbare hv₁ hshift'
  obtain ⟨v₃, hv₃, hagrees₃⟩ := hv₂.shift hws
  have hdirective : CompilationUnit.Agrees Eq Eq ⟨ds, []⟩ ⟨ds, []⟩ :=
    ⟨List.forall₂_same.mpr fun _ _ => rfl, .nil⟩
  have hbefore : CompilationUnit.Agrees Eq Eq (⟨ds, []⟩ ++ b') v :=
    .euclidean (euclidean_eq _) (euclidean_eq _)
      (hv.agrees_trans hagrees₁ (hdirective.append hb)) hv.agrees_refl
  exact hreplace ws v₃ ((unclaimed_global hg us').alike hws.alike) hv₃
    (.here pos b' hbefore hagrees₃)

/-- At the end of a text the list cannot stand, whatever comes before it. -/
theorem not_entries_append_global {ws : List Token} {u₁ w : CompilationUnit}
    (hg : IsGlobalList g) (hshape : ∀ t ∈ g, WellShaped t) (h₁ : Entries ts u₁)
    (hclosed : Closed ts) (hws : Shifted g ws) : ¬ Entries (ts ++ ws) w := by
  intro h
  have hopen : Unclaimed ws := by
    have hunclaimed := unclaimed_global hg []
    rw [List.append_nil] at hunclaimed
    exact hunclaimed.alike hws.alike
  obtain ⟨v, hv, -⟩ := h₁.replace contextual_agrees hclosed hopen.goesOn h
  obtain ⟨v', hv', -⟩ := hv.shift hws.symm
  exact not_entries_global hg hshape hv'

end Parser

/-! ## Source texts -/

/-- A place between two entries of a source text: it is in no token and no comment,
what stands before it is a source text of its own, and what stands behind it does not
go on with a statement. -/
structure ItemBoundary (s₁ s₂ : String) : Prop where
  before : ∃ u₁, parse s₁ = .ok u₁
  tokens : ∃ t₁ t₂ t us, tokenize s₁ = .ok t₁ ∧ tokenize s₂ = .ok t₂ ∧
    tokenize (s₁ ++ s₂) = .ok t ∧ t.tokens = t₁.tokens ++ us ∧ Shifted t₂.tokens us
  behind : ∀ t₂, tokenize s₂ = .ok t₂ →
    ∀ w ∈ ["else", "catch", "finally"], Ahead.reads w t₂.tokens = false

/-- The end of a line is such a place, if whole entries stand before it. -/
theorem itemBoundary_line {s₁ s₂ : String} {u₁ : CompilationUnit} {t₂ : Tokenized}
    (h₁ : parse s₁ = .ok u₁) (ht₂ : tokenize s₂ = .ok t₂)
    (hbehind : ∀ w ∈ ["else", "catch", "finally"], Ahead.reads w t₂.tokens = false) :
    ItemBoundary (s₁ ++ "\n") s₂ := by
  obtain ⟨t₁, ht₁, hentries⟩ := parse_eq_ok.mp h₁
  obtain ⟨t, us, ht, htokens, hshift⟩ := tokenize_lines ht₁ ht₂
  have hempty : tokenize "" = .ok ⟨[], "", .start⟩ := rfl
  obtain ⟨t', _, ht', htokens', hnil⟩ := tokenize_lines ht₁ hempty
  obtain rfl := List.length_eq_zero_iff.mp hnil.alike.length_eq.symm
  rw [List.append_nil] at htokens'
  rw [String.append_empty] at ht'
  refine ⟨⟨u₁, parse_eq_ok.mpr ⟨t', ht', htokens' ▸ hentries⟩⟩, ?_, fun t ht => ?_⟩
  · exact ⟨t', t₂, t, us, ht', ht₂, ht, htokens' ▸ htokens, hshift⟩
  · obtain rfl := Except.ok.inj (ht₂.symm.trans ht)
    exact hbehind

/-- **A list of annotations of the assembly may stand between any two entries of a source
text, if the second is a declaration or a statement.**  Then the tree is the same, up to
positions.  At the end of a source text it cannot stand, and of an item that stands alone
it makes a statement. -/
theorem parse_globalList {s₁ s₂ g : String} {u : CompilationUnit} {tg t₂ : Tokenized}
    (hparse : parse (s₁ ++ s₂) = .ok u) (hboundary : ItemBoundary s₁ s₂)
    (htg : tokenize g = .ok tg) (hg : IsGlobalList tg.tokens) (ht₂ : tokenize s₂ = .ok t₂) :
    (t₂.tokens ≠ [] → Plain t₂.tokens →
      ∃ v, parse (s₁ ++ "\n" ++ g ++ "\n" ++ s₂) = .ok v ∧ u.Agrees Eq Eq v) ∧
    (t₂.tokens = [] → ∃ e, parse (s₁ ++ "\n" ++ g ++ "\n" ++ s₂) = .error e) ∧
    ∀ d rest ds, t₂.tokens = d ++ rest → IsBare d ds →
      ∃ v, parse (s₁ ++ "\n" ++ g ++ "\n" ++ s₂) = .ok v ∧ Misread ds u v ∧
      ¬ u.Agrees Eq Eq v := by
  obtain ⟨u₁, hu₁⟩ := hboundary.before
  obtain ⟨t₁, _, t, us, ht₁, ht₂', ht, htokens, hshift⟩ := hboundary.tokens
  obtain rfl := Except.ok.inj (ht₂.symm.trans ht₂')
  obtain ⟨_, ht₁', hentries₁⟩ := parse_eq_ok.mp hu₁
  obtain rfl := Except.ok.inj (ht₁.symm.trans ht₁')
  obtain ⟨_, ht', hentries⟩ := parse_eq_ok.mp hparse
  obtain rfl := Except.ok.inj (ht.symm.trans ht')
  rw [htokens] at hentries
  have hclosed := hentries₁.closed (lexed_of_tokenize ht₁).wellShaped
  have hshape := (lexed_of_tokenize htg).wellShaped
  -- The tokens of the longer text.
  obtain ⟨t', us', ht', htokens', hshift'⟩ := tokenize_lines htg ht₂
  obtain ⟨t'', ws, ht'', htokens'', hshift''⟩ := tokenize_lines ht₁ ht'
  rw [htokens'] at hshift''
  have htext : s₁ ++ "\n" ++ g ++ "\n" ++ s₂ = s₁ ++ "\n" ++ (g ++ "\n" ++ s₂) := by
    simp only [String.append_assoc]
  have hus : ∀ w ∈ ["else", "catch", "finally"], Ahead.reads w us = false := fun w hw =>
    (tame_reads w).alike _ _ hshift.alike ▸ hboundary.behind t₂ ht₂ w hw
  have hread {w : CompilationUnit} :
      parse (s₁ ++ "\n" ++ g ++ "\n" ++ s₂) = .ok w ↔ Entries (t₁.tokens ++ ws) w := by
    rw [htext, parse_eq_ok]
    constructor
    · rintro ⟨_, ht, hw⟩
      obtain rfl := Except.ok.inj (ht''.symm.trans ht)
      rwa [htokens''] at hw
    · exact fun hw => ⟨t'', ht'', htokens'' ▸ hw⟩
  refine ⟨?_, ?_, ?_⟩
  · intro hne hplain
    obtain ⟨w, hw, hagrees⟩ := hentries₁.insert_global hg hshape hclosed hus hentries
      (hshift.alike.ne_nil hne) (hplain.alike hshift.alike) (hshift.symm.trans hshift')
      hshift''
    exact ⟨w, hread.mpr hw, hagrees⟩
  · intro hnil
    cases hw : parse (s₁ ++ "\n" ++ g ++ "\n" ++ s₂) with
    | error e => exact ⟨e, rfl⟩
    | ok w =>
      obtain rfl : us' = [] := by
        have hlength := hshift'.alike.length_eq
        rw [hnil] at hlength
        exact List.length_eq_zero_iff.mp hlength.symm
      rw [List.append_nil] at hshift''
      have hnot := not_entries_append_global hg hshape hentries₁ hclosed hshift'' (w := w)
      exact absurd (hread.mp hw) hnot
  · intro d rest ds hd hbare
    rw [hd] at hshift hshift'
    obtain ⟨w, hw, hmisread⟩ := hentries₁.insert_global_bare hg hshape hclosed hus hentries
      hbare hshift hshift' hshift''
    exact ⟨w, hread.mpr hw, hmisread, hmisread.not_agrees⟩

/-- A class with an annotation of its own. -/
def annotatedEmpty : String := "[D]class C" ++ Text.braced ""

/-- A list with arguments between a using directive and an annotated class, and between
two using directives. -/
theorem parse_globalList_class :
    ItemBoundary ("using B;" ++ "\n") annotatedEmpty ∧
      (∃ tg, tokenize "[assembly: A(1), E]" = .ok tg ∧ IsGlobalList tg.tokens) ∧
      (∃ u v, parse ("using B;" ++ "\n" ++ annotatedEmpty) = .ok u ∧
        parse ("using B;" ++ "\n" ++ "\n" ++ "[assembly: A(1), E]" ++ "\n" ++ annotatedEmpty) =
          .ok v ∧ u.Agrees Eq Eq v) ∧
      ItemBoundary ("using B;" ++ "\n") "using E;" ∧
      ∃ u v, parse ("using B;" ++ "\n" ++ "using E;") = .ok u ∧
        parse ("using B;" ++ "\n" ++ "\n" ++ "[assembly: A(1), E]" ++ "\n" ++ "using E;") =
          .ok v ∧ Misread ["using E;"] u v := by
  obtain ⟨u₁, hu₁⟩ := exists_parse_eq_ok (s := "using B;") (by decide +kernel)
  obtain ⟨u, hu⟩ :=
    exists_parse_eq_ok (s := "using B;" ++ "\n" ++ annotatedEmpty) (by decide +kernel)
  obtain ⟨t₂, ht₂, hne, hplain, hbehind⟩ : ∃ t₂, tokenize annotatedEmpty = .ok t₂ ∧
      t₂.tokens ≠ [] ∧ Plain t₂.tokens ∧
      ∀ w ∈ ["else", "catch", "finally"], Ahead.reads w t₂.tokens = false :=
    ⟨_, rfl, by decide, ⟨rfl, rfl, rfl⟩, by decide⟩
  obtain ⟨tg, htg, hg⟩ : ∃ tg, tokenize "[assembly: A(1), E]" = .ok tg ∧
      IsGlobalList tg.tokens := by
    obtain ⟨tg, htg, l, w, c, a, p, x, q, d, e, r, htokens, hl, hw, htext, hc, ha, hp, hx, hq,
      hd, he, hr⟩ : ∃ tg, tokenize "[assembly: A(1), E]" = .ok tg ∧
        ∃ l w c a p x q d e r : Token, tg.tokens = [l, w, c, a, p, x, q, d, e, r] ∧
        l.content = sign "[" ∧ w.kind.isWord = true ∧ w.text ∈ ["assembly", "module"] ∧
        c.content = sign ":" ∧ a.content = (.identifier false, "A") ∧ p.content = sign "(" ∧
        x.content = (.number, "1") ∧ q.content = sign ")" ∧ d.content = sign "," ∧
        e.content = (.identifier false, "E") ∧ r.content = sign "]" :=
      ⟨_, rfl, _, _, _, _, _, _, _, _, _, _, rfl, rfl, rfl,
        by decide, rfl, rfl, rfl, rfl, rfl, rfl, rfl, rfl⟩
    obtain ⟨hkind, hone⟩ : x.kind = .number ∧ x.text = "1" := Prod.mk.inj hx
    have hargs : IsArgumentList [p, x, q] := by
      refine ⟨p, [x], q, rfl, hp, hq, .inr (.single ⟨[[x]], rfl, List.cons_ne_nil _ _, ?_⟩)⟩
      refine List.forall_mem_singleton.mpr
        (.token (Token.sign?_eq_none (by simp [hone])) fun h => ?_)
      exact absurd (hkind.symm.trans h.1) (by decide)
    refine ⟨tg, htg, l, w, c, [a, p, x, q, d, e], r, htokens, hl, hw, htext, hc, hr, ?_⟩
    have hname : ∀ {u : Token} (i : Identifier), u.content = i.content →
        [u].map Token.content = (TypeName.part (.plain i)).contents :=
      fun i hu => congrArg (· :: []) hu
    have hcall : IsAnnotation ([a] ++ [p, x, q]) :=
      .call _ (hname (.ofName "A" (by decide +kernel)) ha) hargs
    exact .more hcall hd (.single (.name _ (hname (.ofName "E" (by decide +kernel)) he)))
  have hboundary := itemBoundary_line hu₁ ht₂ hbehind
  obtain ⟨v, hv, hagrees⟩ := (parse_globalList hu hboundary htg hg ht₂).1 hne hplain
  obtain ⟨t₃, ht₃, hbehind₃, hbare⟩ : ∃ t₃, tokenize "using E;" = .ok t₃ ∧
      (∀ w ∈ ["else", "catch", "finally"], Ahead.reads w t₃.tokens = false) ∧
      IsBare t₃.tokens ["using E;"] := by
    refine ⟨_, rfl, by decide, @IsBare.directive _ _ [[_]] rfl ?_ ?_ ?_ rfl⟩
    · exact List.forall_mem_singleton.mpr (.token rfl)
    · decide
    · exact List.forall_mem_singleton.mpr rfl
  have hboundary₃ := itemBoundary_line hu₁ ht₃ hbehind₃
  obtain ⟨u', hu'⟩ :=
    exists_parse_eq_ok (s := "using B;" ++ "\n" ++ "using E;") (by decide +kernel)
  obtain ⟨v', hv', hmisread, -⟩ := (parse_globalList hu' hboundary₃ htg hg ht₃).2.2 _ [] _
    (List.append_nil _).symm hbare
  exact ⟨hboundary, ⟨tg, htg, hg⟩, ⟨u, v, hu, hv, hagrees⟩, hboundary₃, u', v',
    hu', hv', hmisread⟩

/-- At the end of a source text a list is an error, and before a `;`, a using directive and the
name of an assembly it makes a statement of them. -/
theorem parse_globalList_misread :
    (∃ e, parse ("" ++ "\n" ++ "[assembly: A(1)]" ++ "\n" ++ "") = .error e) ∧
    ∀ s ∈ [";", "using B;", "extern alias B;"], ∃ u v, parse ("" ++ s) = .ok u ∧
      parse ("" ++ "\n" ++ "[assembly: A(1)]" ++ "\n" ++ s) = .ok v ∧ ¬ u.Agrees Eq Eq v := by
  refine ⟨exists_error_of_isNone (by decide +kernel), fun s hs => ?_⟩
  have hbefore : ∀ s ∈ [";", "using B;", "extern alias B;"],
      (parse ("" ++ s)).toOption.any (fun u => u.items.isEmpty) = true := by decide +kernel
  have hbehind : ∀ s ∈ [";", "using B;", "extern alias B;"],
      (parse ("" ++ "\n" ++ "[assembly: A(1)]" ++ "\n" ++ s)).toOption.any
        (fun u => !u.items.isEmpty) = true := by decide +kernel
  obtain ⟨u, hu, hempty⟩ := exists_ok_of_any (hbefore s hs)
  obtain ⟨v, hv, hitems⟩ := exists_ok_of_any (hbehind s hs)
  refine ⟨u, v, hu, hv, fun hagrees => ?_⟩
  have hagree := hagrees.items
  rw [List.isEmpty_iff.mp hempty] at hagree
  obtain ⟨usings, items⟩ := v
  cases hagree
  cases hitems

end SharpScript
