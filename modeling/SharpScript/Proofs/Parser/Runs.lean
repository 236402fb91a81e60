import SharpScript.Proofs.Parser.Declaration

/-! # Runs of the grammar

What a rule reads is told by its contract.  This is used to unfold the rules that call
themselves, each time with fewer tokens left, and to follow the run of a rule where more tokens
come behind those that it has read.

## Main Definitions

* `Comparison.shifted`: a list of tokens and the same list elsewhere in a source text;
* `Comparison.extension`: a list of tokens and a longer one.

## Main Results

* `Comparison.SimBy.reads`: what the contract of a rule tells of its run;
* `Comparison.SimBy.same`: rules that agree do the same at the same tokens elsewhere;
* `Parser.gather_eq`, `Parser.loop_eq`, `Parser.node_eq_ok`: **rules that call themselves
  satisfy their equations**.
-/

namespace SharpScript

/-! ## Comparisons -/

namespace Comparison

/-- The same tokens elsewhere. -/
def shifted : Comparison where
  tokens := Shifted
  strict := True
  text := Eq
  code := Eq
  alike h := by
    rw [h.alike.length_eq, List.take_length]
    exact h.alike
  whole h _ := h.alike.length_eq
  closed _ := .inl trivial
  drop n h _ := h.drop n
  text_spelling n h _ := (h.take n).spelling_eq
  code_spelling n h _ _ := (h.take n).spelling_eq
  text_trim h := congrArg _ h
  code_trim h := congrArg _ h
  code_return returns h := by rw [h]
  text_void h := by rw [h]

/-- The same tokens, and the tokens `us` behind them. -/
def extension (us : List Token) : Comparison where
  tokens ts vs := vs = ts ++ us ∧ Closed ts
  strict := False
  text := Eq
  code := Eq
  alike := by
    rintro ts _ ⟨rfl, -⟩
    rw [List.take_left]
    exact .refl ts
  whole _ h := h.elim
  closed h := .inr h.2
  drop := by
    rintro ts _ n ⟨rfl, hclosed⟩ hn
    exact ⟨List.drop_append_of_le_length hn, hclosed.drop n⟩
  text_spelling := by
    rintro ts _ n ⟨rfl, -⟩ hn
    rw [List.take_append_of_le_length hn]
  code_spelling := by
    rintro ts _ n ⟨rfl, -⟩ hn _
    rw [List.take_append_of_le_length hn]
  text_trim h := congrArg _ h
  code_trim h := congrArg _ h
  code_return returns h := by rw [h]
  text_void h := by rw [h]

variable {α : Type} {c : α → Contract} {V : α → α → Prop} {p q : Parser α}
  {ts rest : List Token} {a : α}

/-- What the contract of a rule tells of its run. -/
theorem SimBy.reads (h : shifted.SimBy c V p q) (hp : p ts = .ok (a, rest)) :
    ∃ n, n ≤ ts.length ∧ rest = ts.drop n ∧ (c a).Spans (ts.take n) := by
  obtain ⟨n, _, hn, hrest, hspans, -⟩ := (h ts ts (Shifted.refl ts)).ok hp
  exact ⟨n, hn, hrest, hspans⟩

/-- A rule that reads something leaves fewer tokens. -/
theorem SimBy.length_lt (h : shifted.SimBy c V p q) (hp : p ts = .ok (a, rest))
    (hc : (c a).progress = true) : rest.length < ts.length := by
  obtain ⟨n, hn, rfl, hspans⟩ := h.reads hp
  have hpos : n ≠ 0 := by
    rintro rfl
    exact hspans.progress hc rfl
  rw [List.length_drop]
  omega

theorem SimBy.length_le (h : shifted.SimBy c V p q) (hp : p ts = .ok (a, rest)) :
    rest.length ≤ ts.length := by
  obtain ⟨n, hn, rfl, -⟩ := h.reads hp
  rw [List.length_drop]
  omega

/-- Two rules that agree do the same at tokens that are the same. -/
theorem SimBy.same (h : shifted.SimBy c V p q) {us : List Token} (hshift : Shifted ts us)
    (hp : p ts = .ok (a, rest)) :
    ∃ n b, rest = ts.drop n ∧ q us = .ok (b, us.drop n) ∧ V a b := by
  obtain ⟨n, b, -, rfl, -, hV, hrun⟩ := (h ts us hshift).ok hp
  obtain ⟨_, hq, hlands⟩ := hrun (.inl trivial)
  obtain rfl := hlands.eq_of_length (hshift.drop n).alike.length_eq
  exact ⟨n, b, rfl, hq, hV⟩

end Comparison

namespace Parser

variable {α β : Type} {ts rest : List Token}

/-! ## Single tokens -/

theorem ahead_bind {γ : Type} (f : List Token → γ) (g : γ → Parser β) (ts : List Token) :
    (ahead f >>= g) ts = g (f ts) ts := rfl

theorem accept_bind (w : String) (f : Bool → Parser α) (ts : List Token) :
    (accept w >>= f) ts = if Ahead.reads w ts = true then f true ts.tail else f false ts := by
  rw [Comparison.accept_bind, ahead_bind]
  split <;> rfl

theorem expect_bind_eq_ok {w : String} {f : Unit → Parser α} {r : α × List Token} :
    (expect w >>= f) ts = .ok r ↔ Ahead.reads w ts = true ∧ f () ts.tail = .ok r := by
  have hrun : (expect w >>= f) ts = ((if Ahead.reads w ts = true then advance
      else fail (.expected (.word w))) >>= f) ts := rfl
  rw [hrun]
  split
  · rename_i h
    exact ⟨fun hf => ⟨h, hf⟩, fun hf => hf.2⟩
  · rename_i h
    exact ⟨fun hf => (nomatch hf), fun hf => absurd hf.1 h⟩

theorem reads_unique {w w' : String} (h : Ahead.reads w ts = true) (hne : w ≠ w')
    (hw : w ≠ "") :
    Ahead.reads w' ts = false := by
  obtain ⟨t, rest, rfl, hread⟩ := Comparison.exists_reads hw h
  exact Token.reads_of_ne hread hne

/-! ## Repetition -/

/-- One round of `gather`, and what comes behind it. -/
def gatherRound [EmptyCollection α] [Append α] (item : Parser (Option α))
    (again : Unit → Parser α) (_ : Unit) : Parser α :=
  item >>= fun r => r.elim (pure ∅) fun a => again () >>= fun b => pure (a ++ b)

theorem gather_eq [EmptyCollection α] [Append α] (item : Parser (Option α)) :
    gather item = fix (gatherRound item) () := by
  unfold gather gatherRound
  congr 1
  funext again _
  congr 1
  funext r
  cases r <;> rfl

/-- What `gather` gives, in terms of its first round. -/
theorem gather_eq_ok [EmptyCollection α] [Append α] {item : Parser (Option α)}
    (hitem : ∀ ts a rest, item ts = .ok (some a, rest) → rest.length < ts.length) {c : α} :
    gather item ts = .ok (c, rest) ↔ (item ts = .ok (none, rest) ∧ c = ∅) ∨
      ∃ a mid b, item ts = .ok (some a, mid) ∧
      gather item mid = .ok (b, rest) ∧ c = a ++ b := by
  have hguarded : Guarded (gatherRound item) := by
    intro p q i ts h
    show (item ts >>= fun r => _) = (item ts >>= fun r => _)
    cases hrun : item ts with
    | error e => rfl
    | ok r =>
      obtain ⟨a | _, mid⟩ := r
      · rfl
      · rename_i a
        show (p () mid >>= fun r => _) = (q () mid >>= fun r => _)
        rw [h () mid (hitem _ _ _ hrun)]
  have hrun : gather item ts = (item >>= fun r =>
      r.elim (pure ∅) fun a => gather item >>= fun b => pure (a ++ b)) ts := by
    rw [gather_eq]
    exact congrFun (fix_eq hguarded ()) ts
  rw [hrun, bind_eq_ok]
  constructor
  · rintro ⟨a | _, mid, hitem', hrest⟩
    · cases hrest
      exact .inl ⟨hitem', rfl⟩
    · rename_i a
      obtain ⟨b, mid', hgather, hpure⟩ := bind_eq_ok.mp hrest
      cases hpure
      exact .inr ⟨a, mid, b, hitem', hgather, rfl⟩
  · rintro (⟨hitem', rfl⟩ | ⟨a, mid, b, hitem', hgather, rfl⟩)
    · exact ⟨none, rest, hitem', rfl⟩
    · exact ⟨some a, mid, hitem', bind_eq_ok.mpr ⟨b, rest, hgather, rfl⟩⟩

section Loop

variable {σ : Type} {step : σ → Parser (σ ⊕ β)} {s s' : σ} {mid : List Token}

/-- A repetition whose rounds read something is its first round, and the others behind it. -/
theorem loop_eq (hstep : ∀ s ts s' mid, step s ts = .ok (.inl s', mid) →
    mid.length < ts.length) (s : σ) : loop step s = step s >>= Sum.elim (loop step) pure := by
  let round : (σ → Parser β) → σ → Parser β := fun again s => step s >>= Sum.elim again pure
  have hround : loop step = fix round := by
    unfold loop
    congr 1
    funext again s
    congr 1
    funext r
    cases r <;> rfl
  have hguarded : Guarded round := by
    intro p q s ts hpq
    show (step s ts >>= fun r => _) = (step s ts >>= fun r => _)
    cases hrun : step s ts with
    | error e => rfl
    | ok r =>
      obtain ⟨s' | b, mid⟩ := r
      · exact hpq s' mid (hstep s ts s' mid hrun)
      · rfl
  rw [hround]
  exact fix_eq hguarded s

theorem loop_again (hstep : ∀ s ts s' mid, step s ts = .ok (.inl s', mid) →
    mid.length < ts.length) (h :
    step s ts = .ok (.inl s', mid)) : loop step s ts = loop step s' mid := by
  rw [loop_eq hstep s]
  show (step s ts >>= fun r => _) = _
  rw [h]
  rfl

theorem loop_done (hstep : ∀ s ts s' mid, step s ts = .ok (.inl s', mid) →
    mid.length < ts.length) {b : β} (h :
    step s ts = .ok (.inr b, mid)) : loop step s ts = .ok (b, mid) := by
  rw [loop_eq hstep s]
  show (step s ts >>= fun r => _) = _
  rw [h]
  rfl

end Loop

/-- What `repeatWhile` does, in terms of its first round. -/
theorem repeatWhile_eq_ok {step : Parser Bool}
    (hstep : ∀ ts mid, step ts = .ok (true, mid) → mid.length < ts.length) :
    repeatWhile step ts = .ok ((), rest) ↔ step ts = .ok (false, rest) ∨
      ∃ mid, step ts = .ok (true, mid) ∧ repeatWhile step mid = .ok ((), rest) := by
  let round : Unit → Parser (Unit ⊕ Unit) := fun _ =>
    step >>= fun b => pure (if b = true then .inl () else .inr ())
  have hround : ∀ s ts s' mid, round s ts = .ok (.inl s', mid) → mid.length < ts.length := by
    intro _ ts _ mid h
    obtain ⟨_ | _, _, hrun, hpure⟩ := bind_eq_ok.mp h
    · cases hpure
    · cases hpure
      exact hstep ts mid hrun
  have hrun :
      repeatWhile step ts =
        (step >>= fun b => pure (if b = true then .inl () else .inr ()) >>= Sum.elim
          (fun _ => repeatWhile step) pure) ts := by
    rw [← bind_assoc]
    exact congrFun (loop_eq hround ()) ts
  rw [hrun, bind_eq_ok]
  constructor
  · rintro ⟨_ | _, mid, hmid, hrest⟩
    · cases hrest
      exact .inl hmid
    · exact .inr ⟨mid, hmid, hrest⟩
  · rintro (hfalse | ⟨mid, hmid, hrest⟩)
    · exact ⟨false, rest, hfalse, rfl⟩
    · exact ⟨true, mid, hmid, hrest⟩

/-- Two rules behind the same rule, of which the second does what the first one does. -/
theorem bind_imp {p : Parser α} {f g : α → Parser β} {r : β × List Token}
    (h : ∀ a mid, p ts = .ok (a, mid) → f a mid = .ok r → g a mid = .ok r)
    (hr : (p >>= f) ts = .ok r) : (p >>= g) ts = .ok r := by
  obtain ⟨a, mid, hp, hf⟩ := bind_eq_ok.mp hr
  exact bind_eq_ok.mpr ⟨a, mid, hp, h a mid hp hf⟩

/-- A test before two rules, and before two others that do what those do. -/
theorem ite_imp {f : List Token → Bool} {k k' l l' : Parser α} {r : α × List Token}
    (hk : k ts = .ok r → k' ts = .ok r) (hl : l ts = .ok r → l' ts = .ok r)
    (hr : (ahead f >>= fun b => if b = true then k else l) ts = .ok r) :
    (ahead f >>= fun b => if b = true then k' else l') ts = .ok r := by
  refine bind_imp (fun b mid hb hr => ?_) hr
  cases hb
  split at hr
  · rename_i hf
    rw [if_pos hf]
    exact hk hr
  · rename_i hf
    rw [if_neg hf]
    exact hl hr

/-! ## Leads -/

/-- What `attributeLists` gives, in terms of the first list. -/
theorem attributeLists_eq_ok {as : List Annotation} : attributeLists ts = .ok (as, rest) ↔
    (Ahead.reads "[" ts = false ∧ rest = ts ∧ as = []) ∨ (Ahead.reads "[" ts = true ∧
      ∃ bs mid cs, attributeList ts = .ok (bs, mid) ∧ attributeLists mid = .ok (cs, rest) ∧
        as = bs ++ cs) := by
  let round : Parser (Option (List Annotation)) := do
    if ← isAt "[" then return some (← attributeList) else return none
  have hround : ∀ ts, round ts = if Ahead.reads "[" ts = true then
      (attributeList >>= fun as => pure (some as)) ts else .ok (none, ts) := by
    intro ts
    show (isAt "[" >>= _) ts = _
    rw [isAt, ahead_bind]
    split <;> rfl
  have hsome : ∀ {ts as rest}, round ts = .ok (some as, rest) ↔
      Ahead.reads "[" ts = true ∧ attributeList ts = .ok (as, rest) := by
    intro ts as rest
    rw [hround]
    split
    · rename_i hread
      rw [bind_eq_ok, and_iff_right hread]
      exact ⟨fun ⟨bs, mid, hlist, hpure⟩ => by cases hpure; exact hlist,
        fun hlist => ⟨as, rest, hlist, rfl⟩⟩
    · rename_i hread
      exact ⟨nofun, fun h => absurd h.1 hread⟩
  have hnone : ∀ {rest}, round ts = .ok (none, rest) ↔
      Ahead.reads "[" ts = false ∧ rest = ts := by
    intro rest
    rw [hround]
    split
    · rename_i hread
      refine ⟨fun h => ?_, fun h => by simp [hread] at h⟩
      obtain ⟨_, _, -, hpure⟩ := bind_eq_ok.mp h
      cases hpure
    · rename_i hread
      refine ⟨fun h => ?_, fun h => by rw [h.2]⟩
      cases h
      exact ⟨Bool.eq_false_iff.mpr hread, rfl⟩
  show gather round ts = _ ↔ _
  rw [gather_eq_ok fun ts as rest h => Comparison.sim_attributeList.length_lt (hsome.mp h).2
    rfl, hnone, and_assoc]
  refine or_congr Iff.rfl ⟨?_, ?_⟩
  · rintro ⟨bs, mid, cs, hlist, hrest, rfl⟩
    exact ⟨(hsome.mp hlist).1, bs, mid, cs, (hsome.mp hlist).2, hrest, rfl⟩
  · rintro ⟨hread, bs, mid, cs, hlist, hrest, rfl⟩
    exact ⟨bs, mid, cs, hsome.mpr ⟨hread, hlist⟩, hrest, rfl⟩

/-- What `modifiers` gives, in terms of the first modifier. -/
theorem modifiers_eq_ok {ws : List String} : modifiers ts = .ok (ws, rest) ↔
    (modifier? ts = none ∧ rest = ts ∧ ws = []) ∨
      ∃ w vs, modifier? ts = some w ∧ modifiers ts.tail = .ok (vs, rest) ∧ ws = w :: vs := by
  obtain ⟨round, hgather, hround⟩ : ∃ round, modifiers = gather round ∧ ∀ ts, round ts =
      .ok ((modifier? ts).map fun w => [w],
        if (modifier? ts).isSome then ts.tail else ts) := by
    refine ⟨_, rfl, fun ts => ?_⟩
    rw [ahead_bind]
    cases ts with
    | nil => rfl
    | cons t ts => cases modifier? (t :: ts) <;> rfl
  have hlt : ∀ ts ws rest, round ts = .ok (some ws, rest) → rest.length < ts.length := by
    intro ts ws rest h
    rw [hround] at h
    cases ts with
    | nil => cases h
    | cons t ts =>
      cases hw : modifier? (t :: ts) <;> rw [hw] at h <;> cases h
      exact Nat.lt_succ_self _
  rw [hgather, gather_eq_ok hlt, hround]
  cases modifier? ts with
  | none =>
    constructor
    · rintro (⟨⟨⟩, rfl⟩ | ⟨_, _, _, ⟨⟩, -⟩)
      exact .inl ⟨rfl, rfl, rfl⟩
    · rintro (⟨-, rfl, rfl⟩ | ⟨_, _, ⟨⟩, -⟩)
      exact .inl ⟨rfl, rfl⟩
  | some w =>
    constructor
    · rintro (⟨⟨⟩, -⟩ | ⟨_, _, vs, ⟨⟩, hrest, rfl⟩)
      exact .inr ⟨w, vs, rfl, hrest, rfl⟩
    · rintro (⟨⟨⟩, -⟩ | ⟨_, vs, ⟨⟩, hrest, rfl⟩)
      exact .inr ⟨[w], ts.tail, vs, rfl, hrest, rfl⟩

/-- What stands before a declaration is annotations and modifiers. -/
theorem lead_eq_ok {l : Lead} : lead ts = .ok (l, rest) ↔
    ∃ as mid ws, attributeLists ts = .ok (as, mid) ∧ modifiers mid = .ok (ws, rest) ∧
      l = ⟨(ts.head?.map fun t => t.place.pos).getD default, as, ws⟩ := by
  unfold lead
  rw [here, ahead_bind, bind_eq_ok]
  refine exists_congr fun as => exists_congr fun mid => ?_
  rw [bind_eq_ok]
  constructor
  · rintro ⟨has, ws, _, hws, hpure⟩
    cases hpure
    exact ⟨ws, has, hws, rfl⟩
  · rintro ⟨ws, has, hws, rfl⟩
    exact ⟨has, ws, rest, hws, rfl⟩

/-! ## Namespaces -/

section Nodes

variable {p q : Parser (Item × List String)}

theorem nodeRound_imp {closing : Bool} {r : Option CompilationUnit × List Token}
    (h : ∀ r, p ts = .ok r → q ts = .ok r) (hr : nodeRound p closing ts = .ok r) :
    nodeRound q closing ts = .ok r := by
  refine ite_imp id (fun hr => ?_) hr
  refine bind_imp (fun b mid hb hr => ?_) hr
  cases hb
  split at hr
  · rwa [if_pos ‹_›]
  rw [if_neg ‹_›]
  rw [Comparison.accept_bind] at hr ⊢
  refine ite_imp id (fun hr => ?_) hr
  refine ite_imp id (fun hr => ?_) hr
  refine ite_imp id (fun hr => ?_) hr
  obtain ⟨a, mid, hp, hpure⟩ := bind_eq_ok.mp hr
  exact bind_eq_ok.mpr ⟨a, mid, h _ hp, hpure⟩

/-- The rules that may stand for `node`: those that read something. -/
def Advances (p : Parser (Item × List String)) : Prop :=
  Comparison.shifted.Sim .keen (Comparison.NodeAgrees .shifted) p p

theorem Advances.nodeRound_lt (hp : Advances p) {closing : Bool} :
    ∀ ts a rest, nodeRound p closing ts = .ok (some a, rest) → rest.length < ts.length :=
  fun _ _ _ h => (Comparison.sim_nodeRound hp closing).length_lt h rfl

theorem nodesWith_imp (hp : Advances p) (hq : Advances q) {closing : Bool}
    {u : CompilationUnit} (h : ∀ us, us.length ≤ ts.length → ∀ r, p us = .ok r → q us = .ok r)
    (hr : nodesWith p closing ts = .ok (u, rest)) :
    nodesWith q closing ts = .ok (u, rest) := by
  induction hn : ts.length using Nat.strongRecOn generalizing ts u with
  | _ n ih =>
    rw [nodesWith_eq] at hr ⊢
    refine (gather_eq_ok hq.nodeRound_lt).mpr ?_
    have hround : ∀ r, nodeRound p closing ts = .ok r → nodeRound q closing ts = .ok r :=
      fun _ => nodeRound_imp (h ts (le_refl _))
    rcases (gather_eq_ok hp.nodeRound_lt).mp hr with ⟨hnone, rfl⟩ |
      ⟨a, mid, b, hsome, hrest, rfl⟩
    · exact .inl ⟨hround _ hnone, rfl⟩
    · have hlt := hp.nodeRound_lt _ _ _ hsome
      refine .inr ⟨a, mid, b, hround _ hsome, ?_, rfl⟩
      exact ih mid.length (by omega) (fun us hus => h us (by omega)) hrest rfl

theorem nodeStep_imp (hp : Advances p) (hq : Advances q)
    {r : (Item × List String) × List Token}
    (h : ∀ us, us.length < ts.length → ∀ r, p us = .ok r → q us = .ok r)
    (hr : nodeStep p ts = .ok r) : nodeStep q ts = .ok r := by
  refine bind_imp (fun lead mid hlead hr => ?_) hr
  have hmid := Comparison.sim_lead.length_le hlead
  refine ite_imp (fun hr => ?_) id hr
  rw [namespaceWith_eq] at hr ⊢
  refine bind_imp (fun name mid' hname hr => ?_) hr
  have hmid' := Comparison.sim_scopeHead.length_lt hname rfl
  rw [Comparison.accept_bind] at hr ⊢
  refine ite_imp (fun hr => ?_) (fun hr => ?_) hr
  · obtain ⟨_, mid₁, hadvance, hr⟩ := bind_eq_ok.mp hr
    have hmid₁ := Comparison.sim_advance.length_le hadvance
    obtain ⟨inner, rest, hinner, hpure⟩ := bind_eq_ok.mp hr
    have hinner' := nodesWith_imp hp hq (fun us hus => h us (by omega)) hinner
    exact bind_eq_ok.mpr ⟨_, _, hadvance, bind_eq_ok.mpr ⟨_, _, hinner', hpure⟩⟩
  · obtain ⟨_, mid₁, hexpect, hr⟩ := bind_eq_ok.mp hr
    have hmid₁ := (Comparison.sim_expect (w := Text.openBrace) (by decide)).length_le hexpect
    obtain ⟨inner, rest, hinner, hr⟩ := bind_eq_ok.mp hr
    have hinner' := nodesWith_imp hp hq (fun us hus => h us (by omega)) hinner
    exact bind_eq_ok.mpr ⟨_, _, hexpect, bind_eq_ok.mpr ⟨_, _, hinner', hr⟩⟩

theorem advances_descend (n : Nat) :
    Advances (descend (fun again (_ : Unit) => nodeStep (again ())) n ()) := by
  induction n with
  | zero => exact fun _ _ _ => Comparison.at_fail
  | succ n ih => exact Comparison.sim_nodeStep ih

theorem advances_node : Advances node := Comparison.sim_node

/-- Nesting deeper than there are tokens makes no difference. -/
theorem descend_nodeStep_imp {m n : Nat} {r : (Item × List String) × List Token}
    (hm : ts.length < m) (hn : ts.length < n)
    (hr : descend (fun again (_ : Unit) => nodeStep (again ())) m () ts = .ok r) :
    descend (fun again (_ : Unit) => nodeStep (again ())) n () ts = .ok r := by
  induction m generalizing n ts r with
  | zero => omega
  | succ m ih =>
    cases n with
    | zero => omega
    | succ n =>
      refine nodeStep_imp (advances_descend m) (advances_descend n) (fun us hus r hr => ?_) hr
      exact ih (by omega) (by omega) hr

/-- **A declaration is read as its rule says**, with itself for the declarations in it. -/
theorem node_eq_ok {r : (Item × List String) × List Token} :
    node ts = .ok r ↔ nodeStep node ts = .ok r := by
  constructor
  · refine nodeStep_imp (advances_descend _) advances_node fun us hus r hr => ?_
    exact descend_nodeStep_imp hus (by omega) hr
  · refine nodeStep_imp advances_node (advances_descend _) fun us hus r hr => ?_
    exact descend_nodeStep_imp (by omega) hus hr

end Nodes

end Parser

end SharpScript
