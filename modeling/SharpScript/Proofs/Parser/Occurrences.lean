import SharpScript.Proofs.Printing.Locality
import SharpScript.Proofs.Tree.Within

/-! # Where the members of a tree are read

Every member in the tree of a source text, at any depth, was read by the rules for members
from one place of the text.

## Main Definitions

* `Parser.Keeps`: a rule that stays in a text and gives what a predicate allows;
* `Parser.ReadIn`: a member that is read from some place of a text.

## Main Results

* `Parser.Keeps.gather`, `Parser.keeps_fix`: the predicate is kept by
  repetition and by recursion;
* `Parser.readIn_of_compilationUnit`: **every member of a tree is read somewhere in its text**.

## Design Notes

What was read before a place does not matter for what is read there, so nothing is said about
it but that the place is in the text: the tokens that are left are a suffix of all of them.
-/

namespace SharpScript.Parser

variable {α β ι : Type} {T : List Token}

/-! ## Rules that stay in a text -/

/-- From any place in the text `T` the rule `p` leads to a place in it, with
a result as `P` says. -/
def Keeps (T : List Token) (p : Parser α) (P : α → Prop) : Prop :=
  ∀ ⦃ts a rest⦄, ts <:+ T → p ts = .ok (a, rest) → rest <:+ T ∧ P a

variable {p : Parser α} {P : α → Prop} {Q : β → Prop}

/-- A rule that reads nothing stays where it is. -/
theorem keeps_pure {a : α} (h : P a) : Keeps T (pure a) P := by
  rintro ts _ _ hts ⟨⟩
  exact ⟨hts, h⟩

theorem keeps_fail {e : Problem} : Keeps T (fail e) P := nofun

/-- A rule of which only the tokens matter that it leaves. -/
theorem keeps_of_sim {c : α → Contract} {V : α → α → Prop}
    (h : Comparison.shifted.SimBy c V p p) :
    Keeps T p fun _ => True :=
  fun _ _ _ hts hp => ⟨(suffix_of_reads h hp).trans hts, trivial⟩

/-- A rule behind a rule, from wherever the first one has led. -/
theorem Keeps.bind {f : α → Parser β} (hp : Keeps T p P) (hf : ∀ a, P a → Keeps T (f a) Q) :
    Keeps T (p >>= f) Q := by
  intro ts b rest hts hrun
  obtain ⟨a, mid, ha, hb⟩ := bind_eq_ok.mp hrun
  obtain ⟨hmid, hP⟩ := hp hts ha
  exact hf a hP hmid hb

/-- A look at the tokens ahead, which may answer anything. -/
theorem Keeps.ahead {γ : Type} {g : List Token → γ} {f : γ → Parser α}
    (h : ∀ c, Keeps T (f c) P) :
    Keeps T (Parser.ahead g >>= f) P :=
  fun ts _ _ hts hrun => h (g ts) hts hrun

theorem Keeps.ite {b : Bool} {k l : Parser α} (hk : Keeps T k P) (hl : Keeps T l P) :
    Keeps T (if b = true then k else l) P := by
  cases b
  · exact hl
  · exact hk

/-- A part that is read if a test holds, and what comes behind it. -/
theorem Keeps.optional {f : List Token → Bool} {p : Parser Unit} {k : Unit → Parser α}
    (hp : Keeps T p fun _ => True) (hk : Keeps T (k ()) P) :
    Keeps T (Parser.ahead f >>= fun b => if b = true then p >>= k else k ()) P :=
  .ahead fun _ => .ite (hp.bind fun _ _ => hk) hk

/-- What each round keeps, the rule keeps that calls itself. -/
theorem keeps_fix {step : (ι → Parser α) → ι → Parser α} {P : ι → α → Prop}
    (hstep : ∀ p, (∀ i, Keeps T (p i) (P i)) → ∀ i, Keeps T (step p i) (P i)) (i : ι) :
    Keeps T (fix step i) (P i) := by
  have hdescend : ∀ n i, Keeps T (descend step n i) (P i) := by
    intro n
    induction n with
    | zero => exact fun i => keeps_fail
    | succ n ih => exact hstep _ ih
  exact fun ts _ _ hts hrun => hdescend (ts.length + 1) i hts hrun

/-- Rounds whose values are put together. -/
theorem Keeps.gather [EmptyCollection α] [Append α] {item : Parser (Option α)}
    (hitem : Keeps T item fun o => ∀ a, o = some a → P a) (hnil : P ∅)
    (happend : ∀ a b, P a → P b → P (a ++ b)) : Keeps T (Parser.gather item) P := by
  refine keeps_fix (P := fun _ => P) (fun again hagain _ => hitem.bind fun o ho => ?_) ()
  cases o with
  | none => exact keeps_pure hnil
  | some a => exact (hagain ()).bind fun b hb => keeps_pure (happend a b (ho a rfl) hb)

/-! ## Members -/

/-- The member `m` is read from some place in `T`, as a member of some type. -/
def ReadIn (T : List Token) (m : Member) : Prop :=
  ∃ owner start mid rest, start <:+ T ∧ lead start = .ok (m.lead, mid) ∧
    memberForm owner mid = .ok (m.form, rest)

/-- Every member in the declarations is read from some place in `T`. -/
def AllRead (T : List Token) (is : List Item) : Prop :=
  ∀ m, .member m ∈ itemsWithin is → ReadIn T m

theorem allRead_nil : AllRead T [] := nofun

/-- What declarations hold, one list behind the other. -/
theorem itemsWithin_append (is js : List Item) :
    itemsWithin (is ++ js) = itemsWithin is ++ itemsWithin js := by
  induction is with
  | nil => rfl
  | cons i is ih => rw [List.cons_append, itemsWithin, itemsWithin, ih, List.append_assoc]

/-- Declarations whose members are all read from the text, one list behind the other. -/
theorem AllRead.append {is js : List Item} (h : AllRead T is) (h' : AllRead T js) :
    AllRead T (is ++ js) := by
  intro m hm
  rw [itemsWithin_append, List.mem_append] at hm
  exact hm.elim (h m) (h' m)

/-- A member alone. -/
theorem allRead_member {m : Member} (h : ReadIn T m) : AllRead T [.member m] := by
  intro m' hm'
  obtain rfl : m' = m := by simpa [itemsWithin, Item.within] using hm'
  exact h

/-- A type holds the members that are read between its braces. -/
theorem allRead_type {sort : TypeSort} {l : Lead} {name : String} {bases : List String}
    {items : List Item} (h : AllRead T items) : AllRead T [.type sort l name bases items] := by
  intro m hm
  exact h m (by simpa [itemsWithin, Item.within] using hm)

/-- A namespace holds what is read in it. -/
theorem allRead_scope {pos : Pos} {name : String} {items : List Item} (h : AllRead T items) :
    AllRead T [.scope pos name items] := by
  intro m hm
  exact h m (by simpa [itemsWithin, Item.within] using hm)

/-- An enumeration holds no member. -/
theorem allRead_enumeration {l : Lead} {name : String} {members : List EnumMember} :
    AllRead T [.enumeration l name members] := by
  intro m hm
  simp [itemsWithin, Item.within] at hm

theorem allRead_skipped {pos : Pos} {name : String} {kind : Option String} :
    AllRead T [.skipped pos name kind] := by
  intro m hm
  simp [itemsWithin, Item.within] at hm

/-! ## Types -/

/-- Rules that give no declaration: only the place matters to which they lead. -/
theorem keeps_accept {w : String} (hw : w ≠ "") : Keeps T (accept w) fun _ => True :=
  keeps_of_sim (Comparison.sim_accept hw)

theorem keeps_expect {w : String} (hw : w ≠ "") : Keeps T (expect w) fun _ => True :=
  keeps_of_sim (Comparison.sim_expect hw)

theorem keeps_identifier : Keeps T identifier fun _ => True :=
  keeps_of_sim Comparison.sim_identifier

theorem keeps_group : Keeps T group fun _ => True := keeps_of_sim Comparison.sim_group

/-- An enumeration, in which no member is read. -/
theorem keeps_enumBody (l : Lead) : Keeps T (enumBody l) (AllRead T [·]) := by
  refine keeps_identifier.bind fun name _ => ?_
  have hbody : Keeps T (do
      expect Text.openBrace
      let members ←
        if ← isAt Text.closeBrace then pure []
        else collect enumMember (commaBefore Text.closeBrace)
      expect Text.closeBrace
      let _ ← accept ";"
      return .enumeration l name.text members) (AllRead T [·]) := by
    have hend : ∀ members : List EnumMember, Keeps T (do
        expect Text.closeBrace
        let _ ← accept ";"
        return .enumeration l name.text members) (AllRead T [·]) := fun members =>
      (keeps_expect (by decide)).bind fun _ _ => (keeps_accept (by decide)).bind fun _ _ =>
        keeps_pure allRead_enumeration
    refine (keeps_expect (by decide)).bind fun _ _ => .ahead fun _ => .ite (hend []) ?_
    exact (keeps_of_sim (Comparison.sim_enumMember.collect (k := .keen) (r := .open_)
      (e := .open_) (Comparison.sim_commaBefore Text.closeBrace) (by decide) (by decide)
      (by decide) (by decide))).bind fun members _ => hend members
  refine (keeps_accept (by decide)).bind fun _ _ => .ite ?_ hbody
  exact (keeps_of_sim Comparison.sim_typeReference).bind fun _ _ => hbody

theorem keeps_skippedType (pos : Pos) (kind : String) :
    Keeps T (skippedType pos kind) (AllRead T [·]) := by
  refine (keeps_of_sim Comparison.sim_advance).bind fun _ _ => ?_
  refine .optional (keeps_of_sim Comparison.sim_advance)
    (keeps_identifier.bind fun name _ => ?_)
  refine (keeps_of_sim (Comparison.sim_restOfHead (by decide))).bind fun _ _ =>
    .optional keeps_group ?_
  exact (keeps_accept (by decide)).bind fun _ _ => keeps_pure allRead_skipped

theorem keeps_skippedDelegate (pos : Pos) : Keeps T (skippedDelegate pos) (AllRead T [·]) :=
  (keeps_of_sim Comparison.sim_typeReference).bind fun _ _ => keeps_identifier.bind fun _ _ =>
    (keeps_of_sim Comparison.sim_restOfMember).bind fun _ _ => keeps_pure allRead_skipped

section Types

variable {member : String → Parser Item}
  (hmember : ∀ owner, Keeps T (member owner) (AllRead T [·]))

include hmember

/-- A class or an interface, given its members. -/
theorem keeps_typeBody (sort : TypeSort) (l : Lead) :
    Keeps T (typeBody member sort l) (AllRead T [·]) := by
  have hround : ∀ owner, Keeps T (do
      if ← isAt Text.closeBrace then return none
      else if ← atEnd then fail (.expected (.word Text.closeBrace))
      else if ← accept ";" then return some []
      else return some [← member owner]) fun o => ∀ is, o = some is → AllRead T is := by
    intro owner
    refine .ahead fun _ => .ite (keeps_pure nofun) (.ahead fun _ => .ite keeps_fail ?_)
    refine (keeps_accept (by decide)).bind fun _ _ => .ite (keeps_pure ?_) ?_
    · rintro _ ⟨⟩
      exact allRead_nil
    · refine (hmember owner).bind fun i hi => keeps_pure ?_
      rintro _ ⟨⟩
      exact hi
  refine keeps_identifier.bind fun name _ => ?_
  refine .optional (keeps_of_sim Comparison.sim_typeArguments) (.optional keeps_group ?_)
  refine (keeps_of_sim Comparison.sim_baseList).bind fun bases _ => ?_
  refine (keeps_of_sim Comparison.sim_constraints).bind fun _ _ => ?_
  refine (keeps_expect (by decide)).bind fun _ _ => ?_
  refine ((hround name.text).gather allRead_nil fun _ _ => AllRead.append).bind
    fun items hitems => ?_
  refine (keeps_expect (by decide)).bind fun _ _ =>
    (keeps_accept (by decide)).bind fun _ _ => ?_
  exact keeps_pure (allRead_type hitems)

/-- A type of any sort, or none. -/
theorem keeps_typeDeclaration (l : Lead) :
    Keeps T (typeDeclaration member l) fun o => ∀ i, o = some i → AllRead T [i] := by
  have hsome : ∀ {p : Parser Item}, Keeps T p (AllRead T [·]) →
      Keeps T (p >>= fun i => pure (some i)) fun o => ∀ i, o = some i → AllRead T [i] := by
    intro p hp
    refine hp.bind fun i hi => keeps_pure ?_
    rintro _ ⟨⟩
    exact hi
  have hword : ∀ {w : String} {p : Parser Item} {q : Parser (Option Item)}, w ≠ "" →
      Keeps T p (AllRead T [·]) → Keeps T q (fun o => ∀ i, o = some i → AllRead T [i]) →
      Keeps T (accept w >>= fun b => if b = true then p >>= fun i => pure (some i) else q)
        fun o => ∀ i, o = some i → AllRead T [i] :=
    fun hw hp hq => (keeps_accept hw).bind fun _ _ => .ite (hsome hp) hq
  refine hword (by decide) (keeps_typeBody hmember _ l) ?_
  refine hword (by decide) (keeps_typeBody hmember _ l)
    (hword (by decide) (keeps_enumBody l) ?_)
  refine .ahead fun _ => .ite (hsome (keeps_skippedType _ _)) ?_
  refine .ahead fun _ => .ite (hsome (keeps_skippedType _ _)) ?_
  exact hword (by decide) (keeps_skippedDelegate _) (keeps_pure nofun)

end Types

/-- Where no type comes next, nothing is read for one. -/
theorem eq_of_typeDeclaration {member : String → Parser Item} {l : Lead} {ts rest : List Token}
    (h : typeDeclaration member l ts = .ok (none, rest)) : rest = ts := by
  have hsome : ∀ {p : Parser Item} {us : List Token},
      (p >>= fun i => pure (some i)) us ≠ .ok (none, rest) := by
    intro p us h
    obtain ⟨i, mid, -, hpure⟩ := bind_eq_ok.mp h
    cases hpure
  have hword : ∀ {w : String} {p : Parser Item} {q : Parser (Option Item)},
      (accept w >>= fun b => if b = true then p >>= fun i => pure (some i) else q) ts =
        .ok (none, rest) → q ts = .ok (none, rest) := by
    intro w p q h
    rw [accept_bind] at h
    split at h
    · exact absurd h hsome
    · exact h
  have htest : ∀ {f : List Token → Bool} {p : Parser Item} {q : Parser (Option Item)},
      (ahead f >>= fun b => if b = true then p >>= fun i => pure (some i) else q) ts =
        .ok (none, rest) → q ts = .ok (none, rest) := by
    intro f p q h
    rw [ahead_bind] at h
    split at h
    · exact absurd h hsome
    · exact h
  have hnone := hword (htest (htest (hword (hword (hword h)))))
  cases hnone
  rfl

/-- A member: it is read here, or it is a type with members that are. -/
theorem keeps_memberStep {member : String → Parser Item}
    (hmember : ∀ owner, Keeps T (member owner) (AllRead T [·])) (owner : String) :
    Keeps T (memberStep member owner) (AllRead T [·]) := by
  intro ts i rest hts hrun
  obtain ⟨l, mid, hlead, hrun⟩ := bind_eq_ok.mp hrun
  have hmid : mid <:+ T := (suffix_of_reads Comparison.sim_lead hlead).trans hts
  obtain ⟨o, mid', htype, hbehind⟩ := bind_eq_ok.mp hrun
  obtain ⟨hmid', hitem⟩ := keeps_typeDeclaration hmember l hmid htype
  cases o with
  | some j =>
    cases hbehind
    exact ⟨hmid', hitem _ rfl⟩
  | none =>
    obtain rfl := eq_of_typeDeclaration htype
    obtain ⟨form, _, hform, hpure⟩ := bind_eq_ok.mp hbehind
    cases hpure
    refine ⟨(suffix_of_reads (Comparison.sim_memberForm owner) hform).trans hmid, ?_⟩
    exact allRead_member ⟨owner, ts, mid', rest, hts, hlead, hform⟩

/-- **Every member of a type is read from some place of the text on.** -/
theorem keeps_member (owner : String) : Keeps T (member owner) (AllRead T [·]) :=
  keeps_fix (P := fun _ => (AllRead T [·])) (fun _ hp owner => keeps_memberStep hp owner) owner

/-! ## Namespaces -/

section Nodes

variable {node : Parser (Item × List String)} (hnode : Keeps T node fun r => AllRead T [r.1])

include hnode

/-- What stands in a namespace, given one declaration. -/
theorem keeps_nodesWith (closing : Bool) :
    Keeps T (nodesWith node closing) fun u => AllRead T u.items := by
  suffices hround : Keeps T (nodeRound node closing)
      fun r => ∀ u : CompilationUnit, r = some u → AllRead T u.items from
    hround.gather allRead_nil fun _ _ => AllRead.append
  have hempty : ∀ u : CompilationUnit, some (∅ : CompilationUnit) = some u →
      AllRead T u.items := by
    rintro _ ⟨⟩
    exact allRead_nil
  refine .ahead fun _ => .ite (.ite keeps_fail (keeps_pure nofun)) (.ahead fun _ => .ite
    (keeps_pure nofun) ?_)
  refine (keeps_accept (by decide)).bind fun _ _ => .ite (keeps_pure hempty)
    (.ahead fun _ => .ite ?_ ?_)
  · refine (keeps_of_sim Comparison.sim_usingDirective).bind fun s _ => keeps_pure ?_
    rintro _ ⟨⟩
    exact allRead_nil
  refine .ahead fun _ => .ite ?_ ?_
  · exact (keeps_of_sim Comparison.sim_restOfMember).bind fun _ _ => keeps_pure hempty
  · refine hnode.bind fun r hr => keeps_pure ?_
    rintro _ ⟨⟩
    exact hr

theorem keeps_namespaceWith (pos : Pos) :
    Keeps T (namespaceWith node pos) fun r => AllRead T [r.1] := by
  rw [namespaceWith_eq]
  refine (keeps_of_sim Comparison.sim_scopeHead).bind fun name _ => ?_
  refine (keeps_accept (by decide)).bind fun _ _ => .ite ?_ ?_
  · exact (keeps_nodesWith hnode false).bind fun u hu => keeps_pure (allRead_scope hu)
  · refine (keeps_expect (by decide)).bind fun _ _ =>
      (keeps_nodesWith hnode true).bind fun u hu => ?_
    exact (keeps_expect (by decide)).bind fun _ _ => keeps_pure (allRead_scope hu)

/-- A declaration of a namespace, given those in it. -/
theorem keeps_nodeStep : Keeps T (nodeStep node) fun r => AllRead T [r.1] := by
  refine (keeps_of_sim Comparison.sim_lead).bind fun l _ => ?_
  refine .ahead fun _ => .ite (keeps_namespaceWith hnode l.pos) ?_
  refine (keeps_typeDeclaration keeps_member l).bind fun o ho => ?_
  cases o with
  | some i => exact keeps_pure (ho i rfl)
  | none =>
    exact (keeps_of_sim Comparison.sim_statement).bind fun _ _ => keeps_pure allRead_skipped

end Nodes

/-- **Every member of a declaration is read from some place of the text on.** -/
theorem keeps_node : Keeps T node fun r => AllRead T [r.1] :=
  keeps_fix (P := fun _ (r : Item × List String) => AllRead T [r.1])
    (fun _ hp _ => keeps_nodeStep (hp ())) ()

/-- **Every member of a tree, at any depth, is read somewhere in its text.** -/
theorem readIn_of_compilationUnit {ts rest : List Token} {u : CompilationUnit}
    (h : compilationUnit ts = .ok (u, rest)) {m : Member}
    (hm : .member m ∈ itemsWithin u.items) :
    ReadIn ts m :=
  (keeps_nodesWith keeps_node false List.suffix_rfl h).2 m hm

end SharpScript.Parser
