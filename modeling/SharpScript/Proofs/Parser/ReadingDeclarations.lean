import SharpScript.Proofs.Parser.Entry
import SharpScript.Proofs.Parser.Reading

/-! # What the rules for declarations read

## Main Results

* `Parser.tells_member`: members, with the types that are nested in them;
* `Parser.tells_usingDirective`: using directives, in which no brackets are paired;
* `Parser.tells_nodes`: **what stands in a namespace**, and thus all of a source text.
-/

namespace SharpScript.Parser

variable {ts rest : List Token}

/-! ## Types -/

/-- The quotes of a declaration, whose names, types and code are sound. -/
def ItemTold (i : Item) (qs : List Quote) : Prop := i.Quotes qs ∧ i.Sound

/-- The quotes of declarations in order. -/
def ItemsTold (is : List Item) (qs : List Quote) : Prop := ItemsQuote is qs ∧ ItemsSound is

theorem ItemTold.single {i : Item} {qs : List Quote} (h : ItemTold i qs) :
    ItemsTold [i] qs := by
  rw [← List.append_nil qs]
  exact ⟨.cons h.1 .nil, .cons h.2 .nil⟩

/-- Each base is quoted from the text as a type. -/
theorem tells_baseList : Tells baseList (EachOf textQuote IsTypeText) := by
  have hbase : Tells (do
      let base ← Text.trim <$> verbatim typeReference
      if ← isAt "(" then group
      return base) (Only textQuote IsTypeText) := by
    intro ts hts
    refine (tells_type.trim (fun _ => id) ts hts).bind hts fun s qs mid hs _ hmid => ?_
    refine TellsAt.optional (fun _ => tells_group mid hmid) hmid fun mid _ => tellsAt_pure ?_
    rwa [List.append_nil]
  intro ts hts
  refine .accept (by decide) hts (fun _ hrest => ?_) (tellsAt_pure ⟨rfl, nofun⟩)
  exact hbase.collect (tells_accept (by decide)) _ hrest

/-- A class or an interface tells its bases and then its members, given what each member tells.
-/
theorem tells_typeBody {member : String → Parser Item}
    (hmember : ∀ owner, Tells (member owner) ItemTold) (sort : TypeSort) (l : Lead) :
    Tells (typeBody member sort l) fun i qs => ItemTold i (l.quotes ++ qs) := by
  have hitems : ∀ owner, Tells (gather do
      if ← isAt Text.closeBrace then return none
      else if ← atEnd then fail (.expected (.word Text.closeBrace))
      else if ← accept ";" then return some []
      else return some [← member owner]) ItemsTold := by
    intro owner
    refine Tells.gather (fun ts hts => .ahead ?_) ⟨.nil, .nil⟩
      fun _ _ _ _ h h' => ⟨h.1.append h'.1, h.2.append h'.2⟩
    split
    · exact tellsAt_pure rfl
    refine .ahead ?_
    split
    · exact tellsAt_fail
    refine .accept (by decide) hts (fun _ _ => tellsAt_pure ⟨.nil, .nil⟩) ?_
    refine (hmember owner ts hts).bind hts fun i qs _ hi _ _ => tellsAt_pure ?_
    rw [List.append_nil]
    exact hi.single
  intro ts hts
  refine .identifier hts fun name mid _ _ hname hmid => ?_
  refine TellsAt.optional (fun _ => tells_typeArguments mid hmid) hmid fun mid hmid => ?_
  refine TellsAt.optional (fun _ => tells_group mid hmid) hmid fun mid hmid => ?_
  refine (tells_baseList mid hmid).bind hmid fun bases qs mid hbases _ hmid => ?_
  obtain ⟨rfl, hbases⟩ := hbases
  refine (tells_constraints mid hmid).skip hmid fun _ mid _ hmid => ?_
  refine .opens .curly hmid fun hrest => ?_
  refine (hitems name.text _ hrest).bind hrest fun items qs mid hitems _ hmid => ?_
  refine .closes .curly hmid fun hrest => ?_
  refine (tells_accept (by decide) _ hrest).skip hrest fun _ _ _ _ => tellsAt_pure ?_
  rw [List.append_nil, flatMap_textQuote]
  exact ⟨.type sort l name.text bases hitems.1, .type hname hbases hitems.2⟩

/-- A member of an enumeration, whose text is all of it. -/
theorem tells_enumMember :
    Tells enumMember (Only (fun m => [.text m.text]) fun m => IsCodeText m.text) := by
  intro ts hts
  refine (tells_attributeLists.silent ts hts).skip hts fun _ mid _ hmid => .ahead ?_
  intro m rest hrun
  obtain ⟨⟨⟨name, value⟩, text⟩, _, hspelled, hpure⟩ := bind_eq_ok.mp hrun
  cases hpure
  obtain ⟨hp, htext⟩ := of_spelled hspelled
  obtain ⟨w, rfl, hspans⟩ := exists_append_of_reads Comparison.sim_enumValue hp
  obtain rfl := htext w rfl
  obtain ⟨hcode, hpassage⟩ := passage_code hmid (hspans.progress rfl) (hspans.balanced rfl)
  exact ⟨_, ⟨rfl, hcode⟩, hpassage⟩

/-- An enumeration tells its members. -/
theorem tells_enumBody (l : Lead) :
    Tells (enumBody l) fun i qs => ItemTold i (l.quotes ++ qs) := by
  intro ts hts
  refine .identifier hts fun name mid _ _ hname hmid => ?_
  have hend : ∀ ms : List EnumMember, (∀ m ∈ ms, IsCodeText m.text) → ∀ mid, Lexed mid →
      TellsAt [.curly] (do
        expect Text.closeBrace
        let _ ← accept ";"
        return .enumeration l name.text ms)
      (fun i qs => ItemTold i (l.quotes ++ ((ms.map fun m => .text m.text) ++ qs))) mid := by
    intro ms hms mid hmid
    refine .closes .curly hmid fun hrest => ?_
    refine (tells_accept (by decide) _ hrest).skip hrest fun _ _ _ _ => tellsAt_pure ?_
    rw [List.append_nil]
    exact ⟨.enumeration l name.text ms, .enumeration hname hms⟩
  have hbody : ∀ mid, Lexed mid → TellsAt [] (do
      expect Text.openBrace
      let members ←
        if ← isAt Text.closeBrace then pure []
        else collect enumMember (commaBefore Text.closeBrace)
      expect Text.closeBrace
      let _ ← accept ";"
      return .enumeration l name.text members) (fun i qs =>
          ItemTold i (l.quotes ++ qs)) mid := by
    intro mid hmid
    refine .opens .curly hmid fun hrest => .ahead ?_
    split
    · exact hend [] nofun _ hrest
    · refine (tells_enumMember.collect (tells_commaBefore _) _ hrest).bind hrest
        fun ms qs mid hms _ hmid => ?_
      obtain ⟨rfl, hms⟩ := hms
      rw [← List.map_eq_flatMap]
      exact hend ms hms mid hmid
  refine .accept (by decide) hmid (fun _ hrest => ?_) (hbody mid hmid)
  exact (tells_typeReference _ hrest).skip hrest fun _ mid _ hmid => hbody mid hmid

/-- A type that is passed over, as its head and its braces. -/
theorem skippedType_eq (pos : Pos) (kind : String) : skippedType pos kind = (do
    let name ← skippedHead
    if ← isAt Text.openBrace then group
    let _ ← accept ";"
    return .skipped pos name.text (some kind)) := by
  unfold skippedType skippedHead
  simp only [bind_assoc]
  congr 1
  funext _
  congr 1
  funext b
  cases b <;> simp

theorem sim_skippedHead :
    Comparison.shifted.Sim .open_ (fun _ _ => True) skippedHead skippedHead := by
  refine Comparison.sim_advance.bind (d := fun _ => .open_) (fun _ _ _ => ?_)
    fun _ => by decide
  refine Comparison.sim_optional (d := .open_) (Comparison.test_readsAny (by decide))
    Comparison.sim_advance ?_ (by decide) (by decide)
  refine Comparison.sim_identifier.bind (d := fun _ => .open_) (fun _ _ _ => ?_)
    fun _ => by decide
  exact (Comparison.sim_restOfHead (by decide)).map (fun _ _ _ => trivial) fun _ => by decide

/-- A structure or a record, whose head is loose. -/
theorem tells_skippedType (pos : Pos) (kind : String) (hts : Lexed ts)
    (hstart : Ahead.reads "struct" ts = true ∨ startsRecord ts = true) :
    TellsAt [] (skippedType pos kind) ItemTold ts := by
  have hhead : TellsAt [] skippedHead Silent ts := by
    intro name rest hrun
    obtain ⟨w, rfl, -⟩ := exists_append_of_reads sim_skippedHead hrun
    exact ⟨[], rfl, .loose (.head hstart hrun)⟩
  rw [skippedType_eq]
  refine hhead.skip hts fun name mid _ hmid => ?_
  refine TellsAt.optional (fun _ => tells_group mid hmid) hmid fun mid hmid => ?_
  exact (tells_accept (by decide) mid hmid).skip hmid fun _ _ _ _ =>
    tellsAt_pure ⟨.skipped pos name.text (some kind), .skipped⟩

/-- A delegate tells nothing. -/
theorem tells_skippedDelegate (pos : Pos) : Tells (skippedDelegate pos) ItemTold := by
  intro ts hts
  refine (tells_typeReference ts hts).skip hts fun _ mid _ hmid => ?_
  refine .identifier hmid fun name mid _ _ _ hmid => ?_
  exact (tells_restOfMember mid hmid).skip hmid fun _ _ _ _ =>
    tellsAt_pure ⟨.skipped pos name.text (some "delegate"), .skipped⟩

/-- The quotes of a type behind what stands before it, which are left out with a type that is
skipped. -/
def TypeTold (l : Lead) (o : Option Item) (qs : List Quote) : Prop :=
  PerRound (fun i qs => ∃ qs', qs'.Sublist (l.quotes ++ qs) ∧ ItemTold i qs') o qs

/-- A type of any sort, or none. -/
theorem tells_typeDeclaration {member : String → Parser Item}
    (hmember : ∀ owner, Tells (member owner) ItemTold) (l : Lead) :
    Tells (typeDeclaration member l) (TypeTold l) := by
  -- A type with its lead, and a type without it.
  have hkept : ∀ {p : Parser Item} {ts : List Token}, Lexed ts →
      TellsAt [] p (fun i qs => ItemTold i (l.quotes ++ qs)) ts →
      TellsAt [] (p >>= fun i => pure (some i)) (TypeTold l) ts := by
    intro p ts hts hp
    refine hp.bind hts fun i qs _ hi _ _ => tellsAt_pure ?_
    rw [List.append_nil]
    exact ⟨_, List.Sublist.refl _, hi⟩
  have hskipped : ∀ {p : Parser Item} {ts : List Token}, Lexed ts → TellsAt [] p ItemTold ts →
      TellsAt [] (p >>= fun i => pure (some i)) (TypeTold l) ts := by
    intro p ts hts hp
    refine hp.bind hts fun i qs _ hi _ _ => tellsAt_pure ?_
    rw [List.append_nil]
    exact ⟨qs, List.sublist_append_right _ _, hi⟩
  intro ts hts
  refine .accept (by decide) hts
    (fun _ hrest => hkept hrest (tells_typeBody hmember _ l _ hrest)) ?_
  refine .accept (by decide) hts
    (fun _ hrest => hkept hrest (tells_typeBody hmember _ l _ hrest)) ?_
  refine .accept (by decide) hts (fun _ hrest => hkept hrest (tells_enumBody l _ hrest)) ?_
  refine .ahead ?_
  split
  · rename_i h
    exact hskipped hts (tells_skippedType _ _ hts (.inl h))
  refine .ahead ?_
  split
  · rename_i h
    exact hskipped hts (tells_skippedType _ _ hts (.inr h))
  refine .accept (by decide) hts
    (fun _ hrest => hskipped hrest (tells_skippedDelegate _ _ hrest)) ?_
  exact tellsAt_pure rfl

/-- One member, given what the members in it tell. -/
theorem tells_memberStep {member : String → Parser Item}
    (hmember : ∀ owner, Tells (member owner) ItemTold) (owner : String) :
    Tells (memberStep member owner) ItemTold := by
  intro ts hts
  refine .leave ((tells_lead ts hts).bind hts fun l qs mid hl _ hmid => ?_)
  subst hl
  refine (tells_typeDeclaration hmember l mid hmid).bind hmid fun o qs mid ho _ hmid => ?_
  cases o with
  | some i =>
    refine tellsAt_pure ?_
    rw [List.append_nil]
    exact ho
  | none =>
    obtain rfl : qs = [] := ho
    refine (tells_memberForm owner mid hmid).bind hmid
      fun form qs _ hform _ _ => tellsAt_pure ?_
    rw [List.append_nil]
    exact ⟨_, List.Sublist.refl _, .member (m := ⟨l, form⟩) hform.1, .member hform.2⟩

/-- **Members tell what they quote in the order of the text.** -/
theorem tells_member (owner : String) : Tells (member owner) ItemTold :=
  tells_fix (V := fun _ => ItemTold) (fun _ hp owner => tells_memberStep hp owner) owner

/-! ## Namespaces -/

/-- The quotes of declarations and using directives.  Both are among them in order, and the
declarations are sound. -/
structure UnitTold (u : CompilationUnit) (qs : List Quote) : Prop where
  items : ∃ xs, ItemsQuote u.items xs ∧ xs.Sublist qs
  usings : (u.usings.map Quote.text).Sublist qs
  sound : ItemsSound u.items

/-- Units behind one another tell what each of them does. -/
theorem UnitTold.append {u v : CompilationUnit} {qs qs' : List Quote} (h : UnitTold u qs)
    (h' : UnitTold v qs') : UnitTold (u ++ v) (qs ++ qs') := by
  obtain ⟨⟨xs, hxs, hsub⟩, husings, hsound⟩ := h
  obtain ⟨⟨ys, hys, hsub'⟩, husings', hsound'⟩ := h'
  refine ⟨⟨xs ++ ys, hxs.append hys, hsub.append hsub'⟩, ?_, hsound.append hsound'⟩
  rw [CompilationUnit.usings_append, List.map_append]
  exact husings.append husings'

theorem unitTold_empty :
    UnitTold ∅ [] := ⟨⟨[], .nil, List.Sublist.refl _⟩, List.Sublist.refl _, .nil⟩

/-- The quotes of a declaration and of the using directives in it. -/
def NodeTold (r : Item × List String) (qs : List Quote) : Prop := UnitTold ⟨r.2, [r.1]⟩ qs

/-- A using directive is passed over up to its first `;`. -/
theorem directive_reads (h : repeatWhile directiveRound ts = .ok ((), rest)) :
    ∃ v t us, ts = v ++ t :: us ∧ rest = t :: us ∧ (∀ u ∈ v, u.reads ";" = false) ∧
      t.reads ";" = true := by
  induction hn : ts.length using Nat.strongRecOn generalizing ts with
  | _ n ih =>
    rcases (repeatWhile_eq_ok fun _ _ => directiveRound_lt).mp h with hlast |
      ⟨mid, hmid, hmore⟩
    · obtain ⟨-, rfl, hread⟩ | ⟨_, hb, -⟩ := directiveRound_eq_ok hlast
      · obtain ⟨t, us, rfl, ht⟩ := Comparison.exists_reads (by decide) hread
        exact ⟨[], t, us, rfl, rfl, nofun, ht⟩
      · cases hb
    · obtain ⟨hb, -⟩ | ⟨u, -, rfl, hu⟩ := directiveRound_eq_ok hmid
      · cases hb
      · obtain ⟨v, t, us, rfl, rfl, hv, ht⟩ :=
          ih _ (by rw [← hn]; exact Nat.lt_succ_self _) hmore rfl
        exact ⟨u :: v, t, us, rfl, rfl, List.forall_mem_cons.mpr ⟨hu, hv⟩, ht⟩

/-- A using directive is quoted as a whole. -/
theorem tells_usingDirective (hts : Lexed ts) (hstart : startsUsing ts = true) :
    TellsAt [] usingDirective (fun s qs => qs = [.text s]) ts := by
  intro s rest hrun
  obtain ⟨hp, htext⟩ := of_verbatim hrun
  obtain ⟨_, mid, hloop, hadvance⟩ := bind_eq_ok.mp hp
  obtain ⟨v, t, us, rfl, rfl, hv, ht⟩ := directive_reads hloop
  cases hadvance
  obtain rfl := htext (v ++ [t]) (by simp)
  have hpassage : Passage [] [] (v ++ [t] ++ us) us := .loose (.directive hstart hv ht)
  have hcites : Cites [.text (Token.spelling (v ++ [t]))] (v ++ [t] ++ us) us :=
    .text (by simp) (.nil us)
  rw [List.append_assoc] at hpassage hcites
  exact ⟨_, rfl, hpassage.parts, hcites⟩

/-- One round of a namespace: a using directive, a declaration or nothing that is kept. -/
theorem tells_nodeRound {node : Parser (Item × List String)} (hnode : Tells node NodeTold)
    (closing : Bool) : Tells (nodeRound node closing) (PerRound UnitTold) := by
  intro ts hts
  refine .ahead ?_
  split
  · split
    · exact tellsAt_fail
    · exact tellsAt_pure rfl
  refine .ahead ?_
  split
  · exact tellsAt_pure rfl
  refine .accept (by decide) hts (fun _ _ => tellsAt_pure unitTold_empty) ?_
  refine .ahead ?_
  split
  · rename_i h
    refine (tells_usingDirective hts h).bind hts fun s qs _ hs _ _ => tellsAt_pure ?_
    subst hs
    exact ⟨⟨[], .nil, List.nil_sublist _⟩, List.Sublist.refl _, .nil⟩
  refine .ahead ?_
  split
  · exact (tells_restOfMember ts hts).skip hts fun _ _ _ _ => tellsAt_pure unitTold_empty
  · refine (hnode ts hts).bind hts fun r qs _ hr _ _ => tellsAt_pure ?_
    rw [List.append_nil]
    exact hr

/-- What stands in a namespace, given one declaration. -/
theorem tells_nodesWith {node : Parser (Item × List String)} (hnode : Tells node NodeTold)
    (closing : Bool) : Tells (nodesWith node closing) UnitTold := by
  rw [nodesWith_eq]
  exact (tells_nodeRound hnode closing).gather unitTold_empty fun _ _ _ _ h h' => h.append h'

theorem tells_scopeHead : Tells scopeHead Silent := by
  have hname : Tells (Token.text <$> identifier) (Only (fun _ => []) fun _ => True) := by
    rw [map_eq_pure_bind]
    exact fun ts hts => .identifier hts fun _ _ _ _ _ _ => tellsAt_pure ⟨rfl, trivial⟩
  intro ts hts
  refine .expect (by decide) hts fun _ hrest => ?_
  refine ((hname.collect (tells_accept (by decide))).silent _ hrest).skip hrest
    fun _ _ _ _ => ?_
  exact tellsAt_pure rfl

/-- A namespace tells what its declarations do, and hands its using directives on. -/
theorem UnitTold.scope {u : CompilationUnit} {qs : List Quote} (h : UnitTold u qs) (pos : Pos)
    (name : String) : NodeTold (.scope pos name u.items, u.usings) qs := by
  obtain ⟨⟨xs, hxs, hsub⟩, husings, hsound⟩ := h
  refine ⟨⟨xs ++ [], .cons (.scope pos name hxs) .nil, ?_⟩, husings,
    .cons (.scope hsound) .nil⟩
  rwa [List.append_nil]

/-- A namespace with braces, or one for the rest of a file. -/
theorem tells_namespaceWith {node : Parser (Item × List String)} (hnode : Tells node NodeTold)
    (pos : Pos) : Tells (namespaceWith node pos) NodeTold := by
  rw [namespaceWith_eq]
  intro ts hts
  refine (tells_scopeHead ts hts).skip hts fun name mid _ hmid => ?_
  refine .accept (by decide) hmid (fun _ hrest => ?_) ?_
  · refine (tells_nodesWith hnode false _ hrest).bind hrest
      fun u qs _ hu _ _ => tellsAt_pure ?_
    rw [List.append_nil]
    exact hu.scope pos name
  · refine .opens .curly hmid fun hrest => ?_
    refine (tells_nodesWith hnode true _ hrest).bind hrest fun u qs mid hu _ hmid => ?_
    refine .closes .curly hmid fun _ => tellsAt_pure ?_
    rw [List.append_nil]
    exact hu.scope pos name

theorem ItemTold.node {i : Item} {qs qs' : List Quote} (h : ItemTold i qs')
    (hqs : qs'.Sublist qs) :
    NodeTold (i, []) qs :=
  ⟨⟨qs', h.single.1, hqs⟩, List.nil_sublist qs, h.single.2⟩

/-- One declaration of a namespace, given those in it. -/
theorem tells_nodeStep {node : Parser (Item × List String)} (hnode : Tells node NodeTold) :
    Tells (nodeStep node) NodeTold := by
  intro ts hts
  refine .leave ((tells_lead ts hts).bind hts fun l qs mid hl _ hmid => ?_)
  subst hl
  refine .ahead ?_
  split
  · exact (tells_namespaceWith hnode l.pos mid hmid).mono fun _ qs hr =>
      ⟨qs, List.sublist_append_right _ _, hr⟩
  refine (tells_typeDeclaration tells_member l mid hmid).bind hmid fun o qs mid ho _ hmid => ?_
  cases o with
  | some i =>
    obtain ⟨qs', hsub, hi⟩ := ho
    refine tellsAt_pure ⟨qs', ?_, hi.node (List.Sublist.refl _)⟩
    rwa [List.append_nil]
  | none =>
    obtain rfl : qs = [] := ho
    refine (tells_of_balanced Comparison.sim_statement rfl mid hmid).skip hmid fun _ _ _ _ =>
      tellsAt_pure ⟨[], List.nil_sublist _, ?_⟩
    exact ItemTold.node ⟨.skipped l.pos "" (some "statement"), .skipped⟩ (List.Sublist.refl _)

/-- **Declarations tell what they quote in the order of the text.** -/
theorem tells_node : Tells node NodeTold :=
  tells_fix (V := fun _ => NodeTold) (fun _ hp _ => tells_nodeStep (hp ())) ()

/-- **What stands in a namespace**: its brackets are paired apart from loose parts, and the
texts of its declarations are quoted in order. -/
theorem tells_nodes (closing : Bool) : Tells (nodes closing) UnitTold :=
  tells_nodesWith tells_node closing

end SharpScript.Parser
