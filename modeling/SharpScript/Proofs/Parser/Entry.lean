import SharpScript.Proofs.Parser.Runs

/-! # The entries of a source text

A source text is a sequence of entries: using directives, declarations and statements.  A
namespace behind whose head a `;` stands is no entry; it reaches to the end of the text, and
its entries come behind its head.

## Main Definitions

* `Parser.entry`: one entry;
* `Parser.fileScope`: the head of a namespace that reaches to the end of the text;
* `Parser.Entries`: the tokens of a whole text.

## Main Results

* `Comparison.sim_entry`: entries agree in both runs of a comparison;
* `Parser.nodes_iff_entries`: **a source text is read entry by entry, up to its end**.
-/

namespace SharpScript

namespace Parser

variable {ts rest : List Token}

/-- A declaration or statement, but no namespace that reaches to the end of the text. -/
def closedNode (node : Parser (Item × List String)) : Parser (Item × List String) := do
  let lead ← lead
  if ← isAt "namespace" then
    let name ← scopeHead
    expect Text.openBrace
    let inner ← nodesWith node true
    expect Text.closeBrace
    return (.scope lead.pos name inner.items, inner.usings)
  else
    match ← typeDeclaration member lead with
    | some item => return (item, [])
    | none =>
      statement
      return (.skipped lead.pos "" (some "statement"), [])

/-- An entry of a source text, given how to read a declaration or statement. -/
def entryWith (node : Parser (Item × List String)) : Parser CompilationUnit := do
  if ← accept ";" then return ∅
  else if ← ahead startsUsing then return ⟨[← usingDirective], []⟩
  else if ← ahead fun ts => Ahead.reads "extern" ts && Ahead.text 1 ts == "alias" then
    restOfMember
    return ∅
  else
    let (item, usings) ← node
    return ⟨usings, [item]⟩

/-- An entry of a source text. -/
def entry : Parser CompilationUnit := entryWith (closedNode node)

/-- The head of a namespace that reaches to the end of the text, and where it starts. -/
def fileScope : Parser (Pos × String) := do
  let lead ← lead
  let name ← scopeHead
  expect ";"
  return (lead.pos, name)

end Parser

/-! ## Two runs of entries -/

/-- An entry is read, and a `;` behind it may be.  One that is a statement may go on with
`else`, `catch` or `finally`. -/
def Contract.entry : Contract := ⟨some ["else", "catch", "finally"], true, false, true, true⟩

namespace Comparison

variable {C : Comparison}

theorem sim_closedNode {node node' : Parser (Item × List String)}
    (hnode : C.Sim .keen (NodeAgrees C) node node') :
    C.Sim .entry (NodeAgrees C) (Parser.closedNode node) (Parser.closedNode node') := by
  refine sim_lead.bind (d := fun _ => .entry) (fun l l' hlead ts us ht => ?_)
    fun _ => by decide
  refine AtBy.branch ht (test_reads (by decide)) (fun _ => ?_) (fun _ => ?_) fun _ => .inl rfl
  · refine sim_scopeHead.bind (d := fun _ => .closed) (fun name _ hname => ?_)
      (fun _ => by decide) ts us ht
    subst hname
    exact sim_bracedScope hnode _ _ name
  · refine (sim_typeDeclaration sim_member hlead ts us ht).bind_cases
      (d := fun _ _ => .statement) ht fun a b hab => ?_
    cases hab with
    | some h =>
      exact .inr ⟨_, _, rfl, rfl, ⟨h, .nil⟩, (by decide : Contract.closing.Le .entry)⟩
    | none =>
      refine .inl
        ⟨sim_statement.map (fun _ _ _ => ⟨.skipped _ _ "" _, .nil⟩) fun _ => .refl _, ?_⟩
      exact fun _ _ _ _ => (by decide : Contract.Fits .open_ .statement .entry)

/-- Entries agree in both runs. -/
theorem sim_entry : C.Sim .entry (CompilationUnit.Agrees C.text C.code) Parser.entry
    Parser.entry := by
  intro ts us ht
  refine At.ifAccept (c := .still) (d := .entry) ht (by decide)
    (sim_pure CompilationUnit.agrees_empty) (fun _ => ?_) (by decide) (by decide)
  refine AtBy.branch ht test_startsUsing ?_ (fun _ => ?_) fun _ => .inl rfl
  · exact fun _ => (sim_usingDirective ts us ht).map ht (fun _ _ h => ⟨.cons h .nil, .nil⟩)
      fun _ => by decide
  refine AtBy.branch ht test_startsAlias ?_ (fun _ => ?_) fun _ => .inl rfl
  · exact fun _ => (sim_restOfMember ts us ht).map ht
      (fun _ _ _ => CompilationUnit.agrees_empty) fun _ => by decide
  · exact (sim_closedNode sim_node ts us ht).map ht (fun _ _ h => ⟨h.2, .cons h.1 .nil⟩)
      fun _ => .refl _

theorem sim_fileScope : C.Sim .closed (fun r r' => r.2 = r'.2) Parser.fileScope
    Parser.fileScope := by
  refine sim_lead.bind (d := fun _ => .closed) (fun _ _ _ => ?_) fun _ => by decide
  refine sim_scopeHead.bind (d := fun _ => .closed) (fun _ _ hname => ?_) fun _ => by decide
  exact (sim_expect (by decide)).map (fun _ _ _ => hname) fun _ => by decide

end Comparison

/-! ## Runs -/

namespace Parser

variable {ts rest : List Token}

/-- A declaration is closed, or it is a namespace that reaches to the end of the text. -/
theorem nodeStep_eq_ok {p : Parser (Item × List String)} {r : Item × List String} :
    nodeStep p ts = .ok (r, rest) ↔ closedNode p ts = .ok (r, rest) ∨
      ∃ pos name mid inner, fileScope ts = .ok ((pos, name), mid) ∧
        nodesWith p false mid = .ok (inner, rest) ∧
        r = (.scope pos name inner.items, inner.usings) := by
  constructor
  · intro h
    obtain ⟨l, mid, hlead, h⟩ := bind_eq_ok.mp h
    rw [isAt, ahead_bind] at h
    split at h
    · rename_i hspace
      rw [namespaceWith_eq] at h
      obtain ⟨name, mid', hname, h⟩ := bind_eq_ok.mp h
      rw [accept_bind] at h
      split at h
      · rename_i hsemi
        obtain ⟨inner, _, hinner, hpure⟩ := bind_eq_ok.mp h
        cases hpure
        refine .inr ⟨l.pos, name, mid'.tail, inner, ?_, hinner, rfl⟩
        refine bind_eq_ok.mpr ⟨l, mid, hlead, bind_eq_ok.mpr ⟨name, mid', hname, ?_⟩⟩
        exact expect_bind_eq_ok.mpr ⟨hsemi, rfl⟩
      · refine .inl (bind_eq_ok.mpr ⟨l, mid, hlead, ?_⟩)
        rw [isAt, ahead_bind, if_pos hspace]
        exact bind_eq_ok.mpr ⟨name, mid', hname, h⟩
    · rename_i hspace
      refine .inl (bind_eq_ok.mpr ⟨l, mid, hlead, ?_⟩)
      rw [isAt, ahead_bind, if_neg hspace]
      exact h
  · rintro (h | ⟨pos, name, mid₁, inner, hscope, hinner, rfl⟩)
    · refine bind_imp (fun l mid hlead h => ?_) h
      refine ite_imp (fun h => ?_) id h
      rw [namespaceWith_eq]
      refine bind_imp (fun name mid' hname h => ?_) h
      have hopen := (expect_bind_eq_ok.mp h).1
      have hsemi : Ahead.reads ";" mid' = false := reads_unique hopen (by decide) (by decide)
      rw [accept_bind, if_neg (by simp [hsemi])]
      exact h
    · obtain ⟨l, mid, hlead, h⟩ := bind_eq_ok.mp hscope
      obtain ⟨_, mid', hname, h⟩ := bind_eq_ok.mp h
      obtain ⟨hsemi, hpure⟩ := expect_bind_eq_ok.mp h
      cases hpure
      have hspace : Ahead.reads "namespace" mid = true := (expect_bind_eq_ok.mp hname).1
      refine bind_eq_ok.mpr ⟨l, mid, hlead, ?_⟩
      rw [isAt, ahead_bind, if_pos hspace, namespaceWith_eq]
      refine bind_eq_ok.mpr ⟨name, mid', hname, ?_⟩
      rw [accept_bind, if_pos hsemi]
      exact bind_eq_ok.mpr ⟨inner, rest, hinner, rfl⟩

/-- Neither `;`, nor a using directive, nor the name of an assembly comes next. -/
structure Plain (ts : List Token) : Prop where
  semicolon : Ahead.reads ";" ts = false
  directive : startsUsing ts = false
  assembly : (Ahead.reads "extern" ts && Ahead.text 1 ts == "alias") = false

section Rounds

variable {p q : Parser (Item × List String)}

theorem entryWith_eq (p : Parser (Item × List String)) (ts : List Token) : entryWith p ts =
    if Ahead.reads ";" ts = true then .ok (∅, ts.tail)
    else if startsUsing ts = true then (usingDirective >>= fun s => pure ⟨[s], []⟩) ts
    else if (Ahead.reads "extern" ts && Ahead.text 1 ts == "alias") = true then
      (restOfMember >>= fun _ => pure ∅) ts
    else (p >>= fun r => pure ⟨r.2, [r.1]⟩) ts := by
  unfold entryWith
  rw [accept_bind]
  split
  · rfl
  rw [if_neg Bool.false_ne_true, ahead_bind]
  split
  · rfl
  rw [ahead_bind]
  split <;> rfl

theorem entryWith_of_plain (h : Plain ts) :
    entryWith p ts = (p >>= fun r => pure ⟨r.2, [r.1]⟩) ts := by
  rw [entryWith_eq, if_neg (by simp [h.semicolon]), if_neg (by simp [h.directive]),
    if_neg (by simp [h.assembly])]

theorem entryWith_of_not_plain (h : ¬ Plain ts) : entryWith p ts = entryWith q ts := by
  rw [entryWith_eq, entryWith_eq]
  split
  · rfl
  split
  · rfl
  split
  · rfl
  · rename_i h₁ h₂ h₃
    exact absurd ⟨by simpa using h₁, by simpa using h₂, by simpa using h₃⟩ h

theorem nodeRound_cons (t : Token) (ts : List Token) :
    nodeRound p false (t :: ts) = (entryWith p >>= fun a => pure (some a)) (t :: ts) := by
  have hentry : (entryWith p >>= fun a => pure (some a)) (t :: ts) =
      (entryWith p (t :: ts)).map fun r => (some r.1, r.2) := by
    show (entryWith p (t :: ts) >>= fun r => _) = _
    cases entryWith p (t :: ts) <;> rfl
  rw [hentry, entryWith_eq]
  unfold nodeRound
  rw [atEnd, ahead_bind, if_neg (by simp), isAt, ahead_bind, if_neg (by simp), accept_bind]
  split
  · rfl
  rw [if_neg Bool.false_ne_true, ahead_bind]
  split
  · show (usingDirective (t :: ts) >>= fun r => _) =
      (usingDirective (t :: ts) >>= fun r => _).map _
    cases usingDirective (t :: ts) <;> rfl
  rw [ahead_bind]
  split
  · show (restOfMember (t :: ts) >>= fun r => _) =
      (restOfMember (t :: ts) >>= fun r => _).map _
    cases restOfMember (t :: ts) <;> rfl
  · show (p (t :: ts) >>= fun r => _) = (p (t :: ts) >>= fun r => _).map _
    cases p (t :: ts) <;> rfl

/-- A round ends at the end of the text, and otherwise reads an entry or a namespace that
reaches to the end of the text. -/
theorem nodeRound_eq_ok {r : Option CompilationUnit} :
    nodeRound node false ts = .ok (r, rest) ↔ (ts = [] ∧ rest = [] ∧ r = none) ∨
    (∃ a, ts ≠ [] ∧ entry ts = .ok (a, rest) ∧ r = some a) ∨ ∃ pos name mid inner, Plain ts ∧
      fileScope ts = .ok ((pos, name), mid) ∧ nodes false mid = .ok (inner, rest) ∧
      r = some ⟨inner.usings, [.scope pos name inner.items]⟩ := by
  cases ts with
  | nil =>
    have hnil : nodeRound node false [] = .ok (none, []) := rfl
    have hscope : ∀ r, fileScope [] ≠ .ok r := fun _ h => nomatch h
    rw [hnil]
    constructor
    · intro h
      cases h
      exact .inl ⟨rfl, rfl, rfl⟩
    · rintro (⟨-, rfl, rfl⟩ | ⟨_, h, -⟩ | ⟨_, _, _, _, -, h, -⟩)
      · rfl
      · exact absurd rfl h
      · exact absurd h (hscope _)
  | cons t ts =>
    rw [nodeRound_cons, bind_eq_ok]
    by_cases hplain : Plain (t :: ts)
    · rw [entry, entryWith_of_plain (p := node) hplain,
        entryWith_of_plain (p := closedNode node) hplain]
      constructor
      · rintro ⟨a, mid, ha, hpure⟩
        cases hpure
        obtain ⟨r, mid, hnode, hpure⟩ := bind_eq_ok.mp ha
        cases hpure
        rcases nodeStep_eq_ok.mp (node_eq_ok.mp hnode) with h |
          ⟨pos, name, mid, inner, h, h', rfl⟩
        · exact .inr (.inl ⟨_, List.cons_ne_nil _ _, bind_eq_ok.mpr ⟨r, rest, h, rfl⟩, rfl⟩)
        · exact .inr (.inr ⟨pos, name, mid, inner, hplain, h, h', rfl⟩)
      · rintro (⟨h, -⟩ | ⟨a, -, h, rfl⟩ | ⟨pos, name, mid, inner, -, h, h', rfl⟩)
        · cases h
        · obtain ⟨r, mid, hnode, hpure⟩ := bind_eq_ok.mp h
          cases hpure
          have := node_eq_ok.mpr (nodeStep_eq_ok.mpr (.inl hnode))
          exact ⟨_, rest, bind_eq_ok.mpr ⟨r, rest, this, rfl⟩, rfl⟩
        · have := node_eq_ok.mpr
            (nodeStep_eq_ok.mpr (.inr ⟨pos, name, mid, inner, h, h', rfl⟩))
          exact ⟨_, rest, bind_eq_ok.mpr ⟨_, rest, this, rfl⟩, rfl⟩
    · rw [entry, entryWith_of_not_plain (p := closedNode node) (q := node) hplain]
      constructor
      · rintro ⟨a, mid, ha, hpure⟩
        cases hpure
        exact .inr (.inl ⟨a, List.cons_ne_nil _ _, ha, rfl⟩)
      · rintro (⟨h, -⟩ | ⟨a, -, h, rfl⟩ | ⟨_, _, _, _, h, -⟩)
        · cases h
        · exact ⟨a, rest, h, rfl⟩
        · exact absurd h hplain

end Rounds

theorem nodes_eq_ok {u : CompilationUnit} : nodes false ts = .ok (u, rest) ↔
    (nodeRound node false ts = .ok (none, rest) ∧ u = ∅) ∨
      ∃ a mid b, nodeRound node false ts = .ok (some a, mid) ∧
        nodes false mid = .ok (b, rest) ∧ u = a ++ b :=
  gather_eq_ok advances_node.nodeRound_lt

/-- The tokens `ts` are those of entries, and perhaps of a namespace behind them that reaches
to the end of the text. -/
inductive Entries : List Token → CompilationUnit → Prop
  | nil : Entries [] ∅
  | entry {ts mid : List Token} {a b : CompilationUnit} (hts : ts ≠ [])
      (head : entry ts = .ok (a, mid)) (tail : Entries mid b) : Entries ts (a ++ b)
  | scope {ts mid : List Token} {pos : Pos} {name : String} {inner : CompilationUnit}
      (plain : Plain ts) (head : fileScope ts = .ok ((pos, name), mid))
      (tail : Entries mid inner) :
      Entries ts ⟨inner.usings, [.scope pos name inner.items]⟩

theorem Entries.eq_empty {u : CompilationUnit} (h : Entries [] u) : u = ∅ := by
  cases h with
  | nil => rfl
  | entry hts => exact absurd rfl hts
  | scope _ head => cases head

theorem append_empty (u : CompilationUnit) : u ++ (∅ : CompilationUnit) = u := by
  cases u
  show CompilationUnit.mk (_ ++ []) (_ ++ []) = _
  rw [List.append_nil, List.append_nil]

/-- **A source text is read entry by entry, up to its end.** -/
theorem nodes_iff_entries {u : CompilationUnit} :
    nodes false ts = .ok (u, rest) ↔ rest = [] ∧ Entries ts u := by
  constructor
  · intro h
    induction hn : ts.length using Nat.strongRecOn generalizing ts u rest with
    | _ n ih =>
      rcases nodes_eq_ok.mp h with ⟨hround, rfl⟩ | ⟨a, mid, b, hround, hrest, rfl⟩
      · rcases nodeRound_eq_ok.mp hround with ⟨rfl, rfl, -⟩ | ⟨_, -, -, ha⟩ |
          ⟨_, _, _, _, -, -, -, ha⟩
        · exact ⟨rfl, .nil⟩
        · cases ha
        · cases ha
      · have hmid := advances_node.nodeRound_lt _ _ _ hround
        obtain ⟨rfl, hb⟩ := ih mid.length (by omega) hrest rfl
        rcases nodeRound_eq_ok.mp hround with
          ⟨-, -, ha⟩ | ⟨_, hts, he, ha⟩ | ⟨pos, name, m, i, hplain, hscope, hinner, ha⟩
        · cases ha
        · cases ha
          exact ⟨rfl, .entry hts he hb⟩
        · -- The namespace takes all that is left, so there is nothing behind it.
          cases ha
          have hm := Comparison.sim_fileScope.length_lt hscope rfl
          obtain ⟨rfl, hi⟩ := ih m.length (by omega) hinner rfl
          obtain rfl : b = ∅ := hb.eq_empty
          rw [append_empty]
          exact ⟨rfl, .scope hplain hscope hi⟩
  · rintro ⟨rfl, h⟩
    induction h with
    | nil => rfl
    | entry hts head _ ih =>
      exact nodes_eq_ok.mpr
        (.inr ⟨_, _, _, nodeRound_eq_ok.mpr (.inr (.inl ⟨_, hts, head, rfl⟩)), ih, rfl⟩)
    | scope plain head _ ih =>
      have hround := nodeRound_eq_ok.mpr (.inr (.inr ⟨_, _, _, _, plain, head, ih, rfl⟩))
      exact nodes_eq_ok.mpr (.inr ⟨_, [], ∅, hround, rfl, (append_empty _).symm⟩)

end Parser

end SharpScript
