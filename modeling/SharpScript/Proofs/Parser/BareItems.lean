import SharpScript.Proofs.Parser.SimpleStatement
import SharpScript.Proofs.Printing.Declarations
import SharpScript.Proofs.Types.Reading

/-! # Items that stand alone

A `;`, a using directive and the name of an assembly are items of a source text that nothing
may stand before.  Where something does, they are statements.

## Main Definitions

* `IsBare`: the tokens of such an item, and the using directives that it gives.

## Main Results

* `IsBare.entry_append`: **such an item gives its using directives and no declaration**;
* `IsBare.closedNode_append`: **read as a declaration or statement, it is a statement**.

## Design Notes

A directive may hold brackets of every kind, since the name of a type does, and since a
declaration with `using` is read as a directive too.  Behind `global` it begins as a local
function does, which braces could be the body of.
-/

namespace SharpScript

open Lexer SharpScript.Parser

/-- The tokens of an item that nothing stands before, and the using
directives that it gives. -/
inductive IsBare : List Token → List String → Prop
  | semicolon {t : Token} (ht : t.content = sign ";") : IsBare [t] []
  | directive {u t : Token} {cs : List (List Token)} (hu : u.content = (.keyword, "using"))
      (hcs : ∀ c ∈ cs, IsChunk c) (hfirst : Ahead.text 0 (cs.flatten ++ [t]) ≠ "(")
      (hsemi : ∀ v ∈ cs.flatten, v.reads ";" = false) (ht : t.content = sign ";") :
      IsBare (u :: (cs.flatten ++ [t])) [Token.spelling (u :: (cs.flatten ++ [t]))]
  | globalDirective {g u t : Token} {cs : List (List Token)}
      (hg : g.content = (.identifier false, "global")) (hu : u.content = (.keyword, "using"))
      (hcs : ∀ c ∈ cs, IsChunk c ∧ ¬IsGroup .curly c)
      (hsemi : ∀ v ∈ cs.flatten, v.reads ";" = false) (ht : t.content = sign ";") :
      IsBare (g :: u :: (cs.flatten ++ [t])) [Token.spelling (g :: u :: (cs.flatten ++ [t]))]
  | assembly {e a n t : Token} (he : e.content = (.keyword, "extern"))
      (ha : a.content = (.identifier false, "alias")) (hn : n.kind.isIdentifier = true)
      (ht : t.content = sign ";") : IsBare [e, a, n, t] []

section Statements

variable {t : Token} {ts us rest : List Token}

theorem reads_of_word {k : Kind} {v w : String} (ht : t.content = (k, w))
    (hk : k.isLiteral = false) :
    t.reads v = (w == v) := by
  obtain ⟨rfl, rfl⟩ := Prod.mk.inj ht
  simp [Token.reads, hk]

theorem Kind.ne_operator_of_isWord {k : Kind} (h : k.isWord = true) : k ≠ .operator := by
  rintro rfl
  cases h

/-- The words and signs that the statement begins with as which such an item is read. -/
def bareWords : List String := [";", "using", "global", "alias"]

theorem isOneOf_bareWords {k : Kind} {w : String} (ht : t.content = (k, w))
    (hk : k.isLiteral = false) (hw : w ∈ bareWords) : t.IsOneOf bareWords := by
  obtain ⟨rfl, rfl⟩ := Prod.mk.inj ht
  exact Token.isOneOf_iff.mpr ⟨hw, hk⟩

theorem modifier?_of_isOneOf (ht : t.IsOneOf bareWords) : modifier? (t :: ts) = none := by
  have htext := (Token.isOneOf_iff.mp ht).1
  have hmodifier : t.text ∉ modifierWords ∧ t.text ∉ contextualWords := by
    revert htext
    generalize t.text = w
    revert w
    decide
  simp [modifier?, hmodifier.1, hmodifier.2]

/-- Nothing is read before one of these words. -/
theorem lead_of_isOneOf (ht : t.IsOneOf bareWords) :
    lead (t :: ts) = .ok (⟨t.place.pos, [], []⟩, t :: ts) := by
  have hbracket : Ahead.reads "[" (t :: ts) = false := ht.reads_eq_false (by decide)
  exact lead_eq_ok.mpr ⟨[], t :: ts, [], attributeLists_eq_ok.mpr (.inl ⟨hbracket, rfl, rfl⟩),
    modifiers_none (modifier?_of_isOneOf ht), rfl⟩

/-- A statement that begins with one of these words is read where a declaration may stand. -/
theorem closedNode_of_isOneOf {l : Lead} (hlead : lead us = .ok (l, t :: ts))
    (ht : t.IsOneOf bareWords) (hs : statement (t :: ts) = .ok ((), rest)) :
    closedNode node us = .ok ((.skipped l.pos "" (some "statement"), []), rest) := by
  have hreads : ∀ w ∉ bareWords, Ahead.reads w (t :: ts) = false :=
    fun w hw => ht.reads_eq_false hw
  have hnone : typeDeclaration member l (t :: ts) = .ok (none, t :: ts) := by
    refine typeDeclaration_none (fun w hw => hreads w ?_) ?_
    · revert w
      decide
    · rw [startsRecord, hreads "record" (by decide), Bool.false_and]
  refine bind_eq_ok.mpr ⟨l, t :: ts, hlead, ?_⟩
  rw [isAt, ahead_bind, if_neg (by simp [hreads "namespace" (by decide)])]
  exact bind_eq_ok.mpr ⟨none, t :: ts, hnone, bind_eq_ok.mpr ⟨(), rest, hs, rfl⟩⟩

/-- None of these words but `using` before `(` begins another form of a statement. -/
theorem unheaded_of_isOneOf (ht : t.IsOneOf bareWords) (hsemi : t.reads ";" = false)
    (hbracket : t.reads "using" = true → Ahead.text 0 ts ≠ "(")
    (hlabel : startsLabel (t :: ts) = false) :
    Unheaded (t :: ts) where
  word := by
    intro w hw
    by_cases hword : w = ";"
    · exact hword ▸ hsemi
    · refine ht.reads_eq_false ?_
      revert w
      decide
  pair := by
    intro p hp hread
    by_cases husing : p = ("using", "(")
    · subst husing
      exact hbracket hread
    · have hword : p.1 ∉ bareWords := by
        clear hread
        revert p
        decide
      rw [show Ahead.reads p.1 (t :: ts) = false from ht.reads_eq_false hword] at hread
      cases hread
  label := hlabel

/-- A simple statement is read. -/
theorem statement_of_isSimple {s : List Token} (h : IsSimple s) (rest : List Token) :
    statement (s ++ rest) = .ok ((), rest) := by
  rw [statement_of_unheaded (h.unheaded rest), simpleStatement_of_isSimple h rest]

end Statements

section Directives

variable {t : Token} {d ws rest : List Token} {cs : List (List Token)}

/-- A directive is read through its `;`. -/
theorem entry_directive (hstart : startsUsing (d ++ [t] ++ rest) = true)
    (hsemi : ∀ v ∈ d, v.reads ";" = false) (ht : t.content = sign ";") (hd : d ≠ []) :
    entry (d ++ [t] ++ rest) = .ok (⟨[Token.spelling (d ++ [t])], []⟩, rest) := by
  have hfirst : Ahead.reads ";" (d ++ [t] ++ rest) = false := by
    obtain ⟨u, us, rfl⟩ := List.exists_cons_of_ne_nil hd
    exact hsemi u List.mem_cons_self
  obtain ⟨_, hread, rfl⟩ := yields_usingDirective (n := (d ++ [t]).length + rest.length + 1)
    hsemi (reads_of_content ht) rest (Nat.lt_succ_self _) trivial
  rw [entry, entryWith_eq, hfirst, if_neg Bool.false_ne_true, if_pos hstart]
  exact bind_eq_ok.mpr ⟨_, rest, hread, rfl⟩

/-- Words, chunks and a `;` are a simple statement, if they do not begin as another form and no
braces among them are the body of a local function. -/
theorem isSimple_words (hws : ∀ w ∈ ws, w.kind.isWord = true) (hcs : ∀ c ∈ cs, IsChunk c)
    (hsemi : ∀ v ∈ cs.flatten, v.reads ";" = false) (ht : t.content = sign ";")
    (hun : Unheaded (ws ++ (cs.flatten ++ [t])))
    (hbody : StartsFunction (ws ++ (cs.flatten ++ [t])) → ∀ c ∈ cs, ¬IsGroup .curly c) :
    IsSimple (ws ++ (cs.flatten ++ [t])) := by
  have hflat : ((ws.map fun w => [w]) ++ cs).flatten = ws ++ cs.flatten := by
    rw [List.flatten_append, ← List.flatMap_def, List.flatMap_singleton']
  have hop : t.isOperator ";" = true := by
    obtain ⟨hkind, htext⟩ := Prod.mk.inj ht
    simp [Token.isOperator, hkind, htext]
  have hword : ∀ c ∈ ws.map fun w => [w], ∃ w, c = [w] ∧ w.kind.isWord = true := by
    intro c hc
    obtain ⟨w, hw, rfl⟩ := List.mem_map.mp hc
    exact ⟨w, rfl, hws w hw⟩
  rw [← List.append_assoc, ← hflat] at hun hbody ⊢
  refine .terminated ⟨hun, List.forall_mem_append.mpr ⟨fun c hc => ?_, hcs⟩,
    List.forall_mem_append.mpr ⟨fun c hc => ?_, fun c hc => ?_⟩, ?_⟩ hop
  · obtain ⟨w, rfl, hw⟩ := hword c hc
    exact .token (Token.sign?_of_isWord hw)
  · obtain ⟨w, rfl, hw⟩ := hword c hc
    simp [Ahead.isOperator, Kind.ne_operator_of_isWord hw]
  · obtain ⟨v, vs, rfl⟩ := List.exists_cons_of_ne_nil (hcs c hc).ne_nil
    have hv := hsemi v (List.mem_flatten.mpr ⟨_, hc, List.mem_cons_self⟩)
    refine Bool.eq_false_iff.mpr fun hop => ?_
    rw [Token.reads_of_isOperator (by simpa [Ahead.isOperator, Token.isOperator] using hop)]
      at hv
    cases hv
  · rintro pre c post heq hcurly ⟨hstart, -⟩
    rcases List.mem_append.mp (heq ▸ List.mem_append_right pre List.mem_cons_self) with hc | hc
    · obtain ⟨w, rfl, hw⟩ := hword c hc
      obtain ⟨_, _, hcons, hkind, -⟩ := hcurly.exists_cons
      cases hcons
      exact Kind.ne_operator_of_isWord hw hkind
    · exact hbody hstart c hc hcurly

/-- Behind something, a directive is a statement: a declaration with `using`. -/
theorem isSimple_directive {u : Token} (hu : u.content = (.keyword, "using"))
    (hcs : ∀ c ∈ cs, IsChunk c) (hfirst : Ahead.text 0 (cs.flatten ++ [t]) ≠ "(")
    (hsemi : ∀ v ∈ cs.flatten, v.reads ";" = false) (ht : t.content = sign ";") :
    IsSimple ([u] ++ (cs.flatten ++ [t])) := by
  obtain ⟨hkind, htext⟩ := Prod.mk.inj hu
  refine isSimple_words (by simp [hkind, Kind.isWord]) hcs hsemi ht ?_ ?_
  · refine unheaded_of_isOneOf (isOneOf_bareWords hu rfl (by decide)) (reads_of_word hu rfl)
      (fun _ => hfirst) ?_
    cases cs.flatten <;> simp [startsLabel, hkind, Kind.isIdentifier]
  · intro h
    cases h with
    | modifier hmodifier =>
      have hmem := (Token.isOneOf_iff.mp hmodifier).1
      rw [htext] at hmem
      exact absurd hmem (by decide)
    | name hname => simp [hkind, Kind.isIdentifier] at hname

/-- A directive behind `global` is one too, since no braces are in it. -/
theorem isSimple_globalDirective {g u : Token} (hg : g.content = (.identifier false, "global"))
    (hu : u.content = (.keyword, "using")) (hcs : ∀ c ∈ cs, IsChunk c ∧ ¬IsGroup .curly c)
    (hsemi : ∀ v ∈ cs.flatten, v.reads ";" = false) (ht : t.content = sign ";") :
    IsSimple ([g, u] ++ (cs.flatten ++ [t])) := by
  obtain ⟨hkind, -⟩ := Prod.mk.inj hg
  obtain ⟨hkind', -⟩ := Prod.mk.inj hu
  refine isSimple_words (by simp [hkind, hkind', Kind.isWord]) (fun c hc => (hcs c hc).1)
    hsemi ht ?_ fun _ c hc => (hcs c hc).2
  refine unheaded_of_isOneOf (isOneOf_bareWords hg rfl (by decide)) (reads_of_word hg rfl)
    (fun h => ?_) ?_
  · rw [reads_of_word hg rfl] at h
    cases h
  · simp [startsLabel, Token.isOperator, hkind']

/-- Behind `extern` as a modifier, the name of an assembly is the declaration of a variable of
the type `alias`. -/
theorem isSimple_assembly {a n : Token} (ha : a.content = (.identifier false, "alias"))
    (hn : n.kind.isIdentifier = true) (ht : t.content = sign ";") :
    IsSimple [a, n, t] := by
  obtain ⟨hkind, -⟩ := Prod.mk.inj ha
  have hn' := Kind.isWord_of_isIdentifier hn
  have hws : ∀ w ∈ [a, n], w.kind.isWord = true :=
    List.forall_mem_cons.mpr ⟨by rw [hkind]; rfl, List.forall_mem_singleton.mpr hn'⟩
  refine @isSimple_words t [a, n] [] hws (by simp) (by simp) ht ?_ (by simp)
  refine unheaded_of_isOneOf (isOneOf_bareWords ha rfl (by decide)) (reads_of_word ha rfl)
    (fun h => ?_) ?_
  · rw [reads_of_word ha rfl] at h
    cases h
  · simp [startsLabel, Token.isOperator, Kind.ne_operator_of_isWord hn']

/-- An `extern` is a modifier of the statement behind it. -/
theorem lead_assembly {e : Token} (he : e.content = (.keyword, "extern"))
    (ht : t.IsOneOf bareWords) (rest : List Token) :
    lead (e :: t :: rest) = .ok (⟨e.place.pos, [], ["extern"]⟩, t :: rest) := by
  obtain ⟨_, _, _, _⟩ := e
  cases he
  refine lead_eq_ok.mpr ⟨[], _, ["extern"],
    attributeLists_eq_ok.mpr (.inl ⟨rfl, rfl, rfl⟩), ?_, rfl⟩
  exact modifiers_eq_ok.mpr
    (.inr ⟨"extern", [], rfl, modifiers_none (modifier?_of_isOneOf ht), rfl⟩)

end Directives

/-- What comes behind `using` in a directive does not depend on what comes
behind the directive. -/
theorem text_directive (ds rest : List Token) (t : Token) :
    Ahead.text 0 (ds ++ [t] ++ rest) = Ahead.text 0 (ds ++ [t]) := by
  cases ds <;> rfl

namespace IsBare

variable {ts : List Token} {ds : List String}

theorem ne_nil (h : IsBare ts ds) : ts ≠ [] := by
  cases h <;> exact List.cons_ne_nil _ _

/-- **Such an item gives its using directives and no declaration.** -/
theorem entry_append (h : IsBare ts ds) (rest : List Token) :
    entry (ts ++ rest) = .ok (⟨ds, []⟩, rest) := by
  cases h with
  | @semicolon t ht =>
    have hread : Ahead.reads ";" ([t] ++ rest) = true := reads_of_content ht
    rw [entry, entryWith_eq, if_pos hread]
    rfl
  | @directive u t cs hu hcs hfirst hsemi ht =>
    obtain ⟨k, w, g, p⟩ := u
    cases hu
    refine entry_directive (d := ⟨_, _, g, p⟩ :: cs.flatten) ?_
      (List.forall_mem_cons.mpr ⟨rfl, hsemi⟩) ht (List.cons_ne_nil _ _)
    show (Ahead.text 0 (cs.flatten ++ [t] ++ rest) != "(") = true
    rw [text_directive]
    exact bne_iff_ne.mpr hfirst
  | @globalDirective v u t cs hv hu hcs hsemi ht =>
    obtain ⟨k, w, g, p⟩ := v
    obtain ⟨k', w', g', p'⟩ := u
    cases hv
    cases hu
    exact entry_directive (d := ⟨_, _, g, p⟩ :: ⟨_, _, g', p'⟩ :: cs.flatten) rfl
      (List.forall_mem_cons.mpr ⟨rfl, List.forall_mem_cons.mpr ⟨rfl, hsemi⟩⟩) ht
      (List.cons_ne_nil _ _)
  | @assembly e a n t he ha hn ht =>
    obtain ⟨ek, _, _, _⟩ := e
    obtain ⟨ak, _, _, _⟩ := a
    obtain ⟨nk, _, _, _⟩ := n
    obtain ⟨tk, _, _, _⟩ := t
    cases he
    cases ha
    cases ht
    cases nk with
    | identifier v => rfl
    | _ => cases hn

/-- **Read as a declaration or statement, such an item is a statement.** -/
theorem closedNode_append (h : IsBare ts ds) (rest : List Token) :
    ∃ pos, closedNode node (ts ++ rest) =
      .ok ((.skipped pos "" (some "statement"), []), rest) := by
  cases h with
  | @semicolon t ht =>
    have hword : t.IsOneOf bareWords := isOneOf_bareWords ht rfl (by decide)
    refine ⟨_, closedNode_of_isOneOf (lead_of_isOneOf hword) hword ?_⟩
    obtain ⟨_, _, _, _⟩ := t
    cases ht
    rfl
  | @directive u t cs hu hcs hfirst hsemi ht =>
    have hword : u.IsOneOf bareWords := isOneOf_bareWords hu rfl (by decide)
    exact ⟨_, closedNode_of_isOneOf (lead_of_isOneOf hword) hword
      (statement_of_isSimple (isSimple_directive hu hcs hfirst hsemi ht) rest)⟩
  | @globalDirective v u t cs hv hu hcs hsemi ht =>
    have hword : v.IsOneOf bareWords := isOneOf_bareWords hv rfl (by decide)
    exact ⟨_, closedNode_of_isOneOf (lead_of_isOneOf hword) hword
      (statement_of_isSimple (isSimple_globalDirective hv hu hcs hsemi ht) rest)⟩
  | @assembly e a n t he ha hn ht =>
    have hword : a.IsOneOf bareWords := isOneOf_bareWords ha rfl (by decide)
    exact ⟨_, closedNode_of_isOneOf (lead_assembly he hword _) hword
      (statement_of_isSimple (isSimple_assembly ha hn ht) rest)⟩

end IsBare

end SharpScript
