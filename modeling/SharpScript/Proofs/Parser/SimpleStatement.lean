import SharpScript.Proofs.Parser.Groups

/-! # Simple statements

A statement that has no word of its own goes on to the next `;` that is in no group.  A local
function is such a statement too, but ends with its body.  What tells the body from other
braces is described here in terms of the chunks before it, and statements of both sorts are
shown to be cut off behind their last token.

## Main Definitions

* `StartsFunction`, `OpensBody`: what tells the body of a local function from other braces;
* `Unheaded`: tokens that begin as none of the forms with a word or a sign of their own;
* `IsSimple`: statements up to a `;`, and local functions.

## Main Results

* `Parser.statementChunk_chunk`, `Parser.loop_chunks`: what one chunk of a statement does that
  does not end it, and what all of them do;
* `Parser.simpleStatement_of_isSimple`: **simple statements are cut off
  behind their last token**.
-/

namespace SharpScript

/-- The token reads as one of the words. -/
def Token.IsOneOf (t : Token) (ws : List String) : Prop := ∃ w ∈ ws, t.reads w = true

instance (t : Token) (ws : List String) : Decidable (t.IsOneOf ws) :=
  inferInstanceAs (Decidable (∃ w ∈ ws, t.reads w = true))

/-- The tokens begin as a local function does: with modifiers, as many as there are, and an
identifier other than `yield` and `await`. -/
inductive StartsFunction : List Token → Prop
  | modifier {t : Token} {ts : List Token} (ht : t.IsOneOf Parser.localModifiers)
      (h : StartsFunction ts) : StartsFunction (t :: ts)
  | name {t : Token} {ts : List Token} (ht : t.kind.isIdentifier = true)
      (hmodifier : ¬t.IsOneOf Parser.localModifiers) (hname : ¬t.IsOneOf ["yield", "await"]) :
      StartsFunction (t :: ts)

/-- Behind the chunks `cs` a brace may open the body of a local function: nothing has been
assigned, and round brackets stand right before the brace, or a `where` stands somewhere. -/
structure OpensBody (cs : List (List Token)) : Prop where
  unassigned : ∀ c ∈ cs, Ahead.isOperator Parser.assignments c = false
  ready : (∃ c, cs.getLast? = some c ∧ IsGroup .round c) ∨
    ∃ t, [t] ∈ cs ∧ t.kind.isIdentifier = true ∧ t.text = "where"

/-- The words that begin a form of their own before a certain second token only. -/
def pairedWords : List (String × String) :=
  [("using", "("), ("switch", "("), ("checked", Text.openBrace), ("unchecked", Text.openBrace),
    ("unsafe", Text.openBrace), ("await", "foreach"), ("await", "using")]

/-- The tokens do not begin as one of the forms that have a word or a sign of their own. -/
structure Unheaded (ts : List Token) : Prop where
  word : ∀ w ∈ [Text.openBrace, ";", "if", "while", "for", "foreach", "lock", "fixed", "do",
    "try"], Ahead.reads w ts = false
  pair : ∀ p ∈ pairedWords, Ahead.reads p.1 ts = true → Ahead.text 1 ts ≠ p.2
  label : Parser.startsLabel ts = false

/-- The chunks `cs` are the first ones of the simple statement `ts`, which does not end with
one of them: none is a `;` or the body of a local function. -/
structure IsHead (ts : List Token) (cs : List (List Token)) : Prop where
  unheaded : Unheaded ts
  chunk : ∀ c ∈ cs, IsChunk c
  semicolon : ∀ c ∈ cs, Ahead.isOperator [";"] c = false
  body : ∀ pre c post, cs = pre ++ c :: post → IsGroup .curly c →
    ¬(StartsFunction ts ∧ OpensBody pre)

/-- A statement that has no word or sign of its own. -/
inductive IsSimple : List Token → Prop
  /-- Up to the first `;` that is in no group. -/
  | terminated {cs : List (List Token)} {t : Token} (h : IsHead (cs.flatten ++ [t]) cs)
      (ht : t.isOperator ";" = true) : IsSimple (cs.flatten ++ [t])
  /-- A local function, up to its body. -/
  | function {cs : List (List Token)} {b : List Token} (h : IsHead (cs.flatten ++ b) cs)
      (hstart : StartsFunction (cs.flatten ++ b)) (hcs : OpensBody cs)
      (hb : IsGroup .curly b) :
      IsSimple (cs.flatten ++ b)

/-! ## Tests on tokens -/

section Tokens

variable {t : Token} {w : String} {ws : List String}

/-- A token is one of some words if its text is and it is no literal. -/
theorem Token.isOneOf_iff : t.IsOneOf ws ↔ t.text ∈ ws ∧ t.kind.isLiteral = false := by
  constructor
  · rintro ⟨w, hw, hread⟩
    have hread' := hread
    unfold Token.reads at hread'
    rw [Token.text_of_reads hread]
    exact ⟨hw, by simpa using (Bool.and_eq_true_iff.mp hread').2⟩
  · rintro ⟨htext, hliteral⟩
    exact ⟨t.text, htext, by simp [Token.reads, hliteral]⟩

theorem Token.contains_iff_isOneOf :
    (ws.contains t.text && !t.kind.isLiteral) = true ↔ t.IsOneOf ws := by
  rw [Token.isOneOf_iff, Bool.and_eq_true_iff, List.contains_iff_mem, Bool.not_eq_true']

theorem Token.contains_iff_of_isIdentifier (h : t.kind.isIdentifier = true) :
    ws.contains t.text = true ↔ t.IsOneOf ws := by
  have hliteral : t.kind.isLiteral = false := by
    revert h
    cases t.kind <;> simp [Kind.isIdentifier, Kind.isLiteral]
  rw [Token.isOneOf_iff, List.contains_iff_mem]
  exact ⟨fun h => ⟨h, hliteral⟩, And.left⟩

theorem Token.isOneOf_single (h : t.reads w = true) : t.IsOneOf [w] :=
  ⟨w, List.mem_singleton_self w, h⟩

theorem Token.IsOneOf.mono {ws' : List String} (h : t.IsOneOf ws) (hws : ws ⊆ ws') :
    t.IsOneOf ws' := by
  obtain ⟨v, hv, hread⟩ := h
  exact ⟨v, hws hv, hread⟩

/-- A token that is one of some words reads as no other word. -/
theorem Token.IsOneOf.reads_eq_false (h : t.IsOneOf ws) (hw : w ∉ ws) : t.reads w = false := by
  obtain ⟨v, hv, hread⟩ := h
  exact Token.reads_of_ne hread fun hvw => hw (hvw ▸ hv)

theorem Token.reads_of_isOperator (h : t.isOperator w = true) : t.reads w = true := by
  obtain ⟨hkind, htext⟩ : t.kind = .operator ∧ t.text = w := by
    simpa [Token.isOperator] using h
  simp [Token.reads, hkind, htext, Kind.isLiteral]

end Tokens

/-! ## Chunks of a statement -/

namespace Parser

/-- Whether a local function may begin is decided by tokens that are not all modifiers. -/
theorem mayBeFunction_iff {ts : List Token} (h : ∃ t ∈ ts, ¬t.IsOneOf localModifiers)
    (rest : List Token) : mayBeFunction (ts ++ rest) = true ↔ StartsFunction ts := by
  induction ts with
  | nil =>
    obtain ⟨t, ht, -⟩ := h
    cases ht
  | cons t ts ih =>
    rw [List.cons_append, mayBeFunction_cons]
    split
    · rename_i htest
      have hmodifier := Token.contains_iff_isOneOf.mp htest
      have hts : ∃ u ∈ ts, ¬u.IsOneOf localModifiers := by
        obtain ⟨u, hu, hnot⟩ := h
        rcases List.mem_cons.mp hu with rfl | hu
        · exact absurd hmodifier hnot
        · exact ⟨u, hu, hnot⟩
      rw [ih hts]
      constructor
      · exact .modifier hmodifier
      · intro hstart
        cases hstart with
        | modifier _ hrest => exact hrest
        | name _ hnot _ => exact absurd hmodifier hnot
    · rename_i htest
      have hmodifier := mt Token.contains_iff_isOneOf.mpr htest
      rw [Bool.and_eq_true_iff, Bool.not_eq_true', Bool.eq_false_iff]
      constructor
      · rintro ⟨hident, hname⟩
        exact .name hident hmodifier (mt (Token.contains_iff_of_isIdentifier hident).mpr hname)
      · intro hstart
        cases hstart with
        | modifier ht _ => exact absurd ht hmodifier
        | name ht _ hname => exact ⟨ht, mt (Token.contains_iff_of_isIdentifier ht).mp hname⟩

/-- What has been seen behind the chunks `cs`. -/
def Seen.behind (cs : List (List Token)) : Seen where
  assigned := cs.any (Ahead.isOperator assignments)
  constrained := cs.any fun c => Ahead.isIdentifier 0 c && Ahead.text 0 c == "where"
  parenthesized := cs.getLast?.any (Ahead.isOperator ["("])

section Chunks

variable {b : Bracket} {c rest : List Token} {cs pre : List (List Token)} {mayDeclare : Bool}

/-- The next token of a chunk is that of the chunk with what comes behind it. -/
theorem isOperator_append {ws : List String} (hc : c ≠ []) (rest : List Token) :
    Ahead.isOperator ws (c ++ rest) = Ahead.isOperator ws c := by
  obtain ⟨t, c, rfl⟩ := List.exists_cons_of_ne_nil hc
  rfl

/-- What is seen behind one chunk more. -/
theorem Seen.behind_concat (cs : List (List Token)) (c : List Token) :
    Seen.behind (cs ++ [c]) = ⟨(Seen.behind cs).assigned || Ahead.isOperator assignments c,
      (Seen.behind cs).constrained || (Ahead.isIdentifier 0 c && Ahead.text 0 c == "where"),
      Ahead.isOperator ["("] c⟩ := by
  simp [Seen.behind]

/-- A brace behind chunks opens the body of a local function just when the chunks say so. -/
theorem opensBody_iff (hcs : ∀ c ∈ cs, IsChunk c) :
    (mayDeclare && !(Seen.behind cs).assigned &&
      ((Seen.behind cs).parenthesized || (Seen.behind cs).constrained)) = true ↔
        mayDeclare = true ∧ OpensBody cs := by
  have hround : (Seen.behind cs).parenthesized = true ↔
      ∃ c, cs.getLast? = some c ∧ IsGroup .round c := by
    simp only [Seen.behind, Option.any_eq_true]
    refine exists_congr fun c => and_congr_right fun hc => ?_
    exact (hcs c (List.mem_of_getLast? hc)).isGroup_iff (b := .round)
  have hwhere : (Seen.behind cs).constrained = true ↔
      ∃ t, [t] ∈ cs ∧ t.kind.isIdentifier = true ∧ t.text = "where" := by
    simp only [Seen.behind, List.any_eq_true, Bool.and_eq_true, beq_iff_eq]
    constructor
    · rintro ⟨c, hc, hident, htext⟩
      cases hcs c hc with
      | @token t _ => exact ⟨t, hc, by simpa [Ahead.isIdentifier] using hident, htext⟩
      | group hgroup =>
        obtain ⟨t, ts, rfl, hkind, -⟩ := hgroup.exists_cons
        simp [Ahead.isIdentifier, hkind, Kind.isIdentifier] at hident
    · rintro ⟨t, ht, hident, htext⟩
      exact ⟨[t], ht, by simpa [Ahead.isIdentifier] using hident, htext⟩
  rw [Bool.and_eq_true_iff, Bool.and_eq_true_iff, Bool.or_eq_true_iff, hround, hwhere]
  constructor
  · rintro ⟨⟨hmay, hassigned⟩, hready⟩
    exact ⟨hmay, by simpa [Seen.behind] using hassigned, hready⟩
  · rintro ⟨hmay, hassigned, hready⟩
    exact ⟨⟨hmay, by simpa [Seen.behind] using hassigned⟩, hready⟩

/-- One chunk that does not end the statement. -/
theorem statementChunk_chunk (hpre : ∀ d ∈ pre, IsChunk d) (hc : IsChunk c)
    (hsemicolon : Ahead.isOperator [";"] c = false)
    (hbody : IsGroup .curly c → ¬(mayDeclare = true ∧ OpensBody pre)) (rest : List Token) :
    statementChunk mayDeclare (Seen.behind pre) (c ++ rest) =
      .ok (.inl (Seen.behind (pre ++ [c])), rest) := by
  unfold statementChunk
  rw [ahead_bind, isOperator_append hc.ne_nil, hsemicolon, if_neg Bool.false_ne_true,
    ahead_bind, isOperator_append hc.ne_nil]
  split
  · rename_i hcurly
    have hgroup : IsGroup .curly c := (hc.isGroup_iff (b := .curly)).mp hcurly
    refine bind_eq_ok.mpr ⟨(), rest, group_of_isGroup hgroup rest, ?_⟩
    rw [if_neg (mt (opensBody_iff hpre).mp (hbody hgroup)), Seen.behind_concat]
    -- The brace itself assigns nothing, and is neither a `where` nor a round bracket.
    obtain ⟨t, ts, rfl, hkind, htext⟩ := hgroup.exists_cons
    have hassigns : Ahead.isOperator assignments (t :: ts) = false := by
      simp [Ahead.isOperator, htext, assignments, Bracket.opening]
    have hwhere : Ahead.isIdentifier 0 (t :: ts) = false := by
      simp [Ahead.isIdentifier, hkind, Kind.isIdentifier]
    have hround : Ahead.isOperator ["("] (t :: ts) = false := by
      simp [Ahead.isOperator, htext, Bracket.opening]
    rw [hassigns, hwhere, hround, Bool.or_false, Bool.false_and, Bool.or_false]
    rfl
  · rw [ahead_bind, ahead_bind, ahead_bind]
    refine bind_eq_ok.mpr ⟨(), rest, chunk_of_isChunk hc rest, ?_⟩
    rw [Seen.behind_concat]
    obtain ⟨t, ts, rfl⟩ := List.exists_cons_of_ne_nil hc.ne_nil
    rfl

/-- A round that goes on has read something. -/
theorem statementChunk_length_lt (seen : Seen) (ts : List Token) (seen' : Seen)
    (mid : List Token) (h : statementChunk mayDeclare seen ts = .ok (.inl seen', mid)) :
    mid.length < ts.length :=
  (Comparison.sim_statementChunk mayDeclare seen).length_lt h rfl

/-- The chunks of a statement that do not end it. -/
theorem loop_chunks (hpre : ∀ d ∈ pre, IsChunk d) (hcs : ∀ c ∈ cs, IsChunk c)
    (hsemicolon : ∀ c ∈ cs, Ahead.isOperator [";"] c = false)
    (hbody : ∀ cs₁ c cs₂, cs = cs₁ ++ c :: cs₂ → IsGroup .curly c →
      ¬(mayDeclare = true ∧ OpensBody (pre ++ cs₁))) (rest : List Token) :
    loop (statementChunk mayDeclare) (Seen.behind pre) (cs.flatten ++ rest) =
      loop (statementChunk mayDeclare) (Seen.behind (pre ++ cs)) rest := by
  induction cs generalizing pre with
  | nil => rw [List.flatten_nil, List.nil_append, List.append_nil]
  | cons c cs ih =>
    obtain ⟨hc, hcs⟩ := List.forall_mem_cons.mp hcs
    obtain ⟨hc', hsemicolon⟩ := List.forall_mem_cons.mp hsemicolon
    have hstep := statementChunk_chunk hpre hc hc'
      (fun hgroup => by simpa using hbody [] c cs rfl hgroup) (cs.flatten ++ rest)
    have hpre' : ∀ d ∈ pre ++ [c], IsChunk d := by
      intro d hd
      rcases List.mem_append.mp hd with hd | hd
      · exact hpre d hd
      · rwa [List.mem_singleton.mp hd]
    rw [List.flatten_cons, List.append_assoc, loop_again statementChunk_length_lt hstep,
      ih hpre' hcs hsemicolon (fun cs₁ d cs₂ hsplit hd => ?_), List.append_assoc,
      List.singleton_append]
    rw [List.append_assoc, List.singleton_append]
    exact hbody (c :: cs₁) d cs₂ (by rw [hsplit, List.cons_append]) hd

end Chunks

/-- The test on a local function looks at the statement alone. -/
theorem mayBeFunction_of_isOperator {ts : List Token} {t : Token} {w : String} (ht : t ∈ ts)
    (hop : t.kind = .operator ∧ t.text = w) (hw : w ∉ localModifiers) (rest : List Token) :
    mayBeFunction (ts ++ rest) = true ↔ StartsFunction ts := by
  refine mayBeFunction_iff ⟨t, ht, fun honeOf => hw ?_⟩ rest
  rw [← hop.2]
  exact (Token.isOneOf_iff.mp honeOf).1

/-- A simple statement is read up to its last chunk. -/
theorem simpleStatement_of_isHead {cs : List (List Token)} {v rest : List Token}
    (h : IsHead (cs.flatten ++ v) cs)
    (hmay : mayBeFunction (cs.flatten ++ v ++ rest) = true ↔
      StartsFunction (cs.flatten ++ v)) :
    simpleStatement (cs.flatten ++ v ++ rest) =
      loop (statementChunk (mayBeFunction (cs.flatten ++ v ++ rest))) (Seen.behind cs)
      (v ++ rest) := by
  have hpre : ∀ d ∈ ([] : List (List Token)), IsChunk d := nofun
  have hchunks := loop_chunks hpre h.chunk h.semicolon (fun pre c post hcs hc hbody =>
    h.body pre c post hcs hc ⟨hmay.mp hbody.1, hbody.2⟩) (v ++ rest)
  rw [← List.append_assoc] at hchunks
  exact hchunks

/-- **Simple statements are cut off.** -/
theorem simpleStatement_of_isSimple {s : List Token} (h : IsSimple s) (rest : List Token) :
    simpleStatement (s ++ rest) = .ok ((), rest) := by
  cases h with
  | @terminated cs t h ht =>
    have hop : t.kind = .operator ∧ t.text = ";" := by simpa [Token.isOperator] using ht
    have hmem : t ∈ cs.flatten ++ [t] := by simp
    rw [simpleStatement_of_isHead h (mayBeFunction_of_isOperator hmem hop (by decide) rest)]
    refine loop_done statementChunk_length_lt ?_
    unfold statementChunk
    rw [ahead_bind, if_pos (by simp [Ahead.isOperator, hop])]
    rfl
  | @function cs b h hstart hcs hb =>
    obtain ⟨t, ts, hts, hop⟩ := hb.exists_cons
    have hmem : t ∈ cs.flatten ++ b := by simp [hts]
    have hmay := mayBeFunction_of_isOperator hmem hop (by decide) rest
    have hcurly : ∀ ws, Ahead.isOperator ws (b ++ rest) = ws.contains Text.openBrace := by
      intro ws
      rw [hts]
      simp [Ahead.isOperator, hop, Bracket.opening]
    rw [simpleStatement_of_isHead h hmay]
    refine loop_done statementChunk_length_lt ?_
    unfold statementChunk
    rw [ahead_bind, hcurly, if_neg (by decide), ahead_bind, hcurly, if_pos (by decide)]
    refine bind_eq_ok.mpr ⟨(), rest, group_of_isGroup hb rest, ?_⟩
    rw [if_pos ((opensBody_iff h.chunk).mpr ⟨hmay.mpr hstart, hcs⟩)]
    rfl

end Parser

/-! ## Statements without a head -/

namespace Unheaded

variable {ts : List Token}

/-- The head of a statement is one or two words, so what comes behind two tokens does not
matter. -/
theorem append (h : Unheaded ts) (hlength : 2 ≤ ts.length) (rest : List Token) :
    Unheaded (ts ++ rest) := by
  obtain _ | ⟨t, _ | ⟨u, ts⟩⟩ := ts
  · simp at hlength
  · simp at hlength
  · exact ⟨h.word, h.pair, h.label⟩

theorem pair_eq_false (h : Unheaded ts) {w v : String} (hp : (w, v) ∈ pairedWords) :
    (Ahead.reads w ts && Ahead.text 1 ts == v) = false := by
  rw [Bool.and_eq_false_imp]
  exact fun hread => beq_false_of_ne (h.pair (w, v) hp hread)

theorem await_eq_false (h : Unheaded ts) :
    (Ahead.reads "await" ts && ["foreach", "using"].contains (Ahead.text 1 ts)) = false := by
  have hforeach := h.pair_eq_false (w := "await") (v := "foreach") (by decide)
  have husing := h.pair_eq_false (w := "await") (v := "using") (by decide)
  simp only [List.contains_cons, List.contains_nil, Bool.or_false, Bool.and_or_distrib_left,
    hforeach, husing]

/-- No form of a statement with a head begins here. -/
theorem startsNested_eq_false (h : Unheaded ts) : Parser.startsNested ts = false := by
  unfold Parser.startsNested
  rw [h.pair_eq_false (by decide), Bool.or_false]
  simp only [Ahead.readsAny, List.any_cons, List.any_nil, h.word "while" (by decide),
    h.word "for" (by decide), h.word "foreach" (by decide), h.word "lock" (by decide),
    h.word "fixed" (by decide), Bool.or_false]

theorem startsMarkedBlock_eq_false (h : Unheaded ts) :
    Parser.startsMarkedBlock ts = false := by
  unfold Parser.startsMarkedBlock
  have hchecked := h.pair_eq_false (w := "checked") (v := Text.openBrace) (by decide)
  have hunchecked := h.pair_eq_false (w := "unchecked") (v := Text.openBrace) (by decide)
  have hunsafe := h.pair_eq_false (w := "unsafe") (v := Text.openBrace) (by decide)
  simp only [Ahead.readsAny, List.any_cons, List.any_nil, Bool.or_false,
    Bool.and_or_distrib_right, hchecked, hunchecked, hunsafe]

end Unheaded

/-- What comes behind a simple statement does not make another form of it, since the statement
has two tokens or more. -/
theorem IsSimple.unheaded {s : List Token} (h : IsSimple s) (rest : List Token) :
    Unheaded (s ++ rest) := by
  have hlength {cs : List (List Token)} {v : List Token} (h : IsHead (cs.flatten ++ v) cs)
      (hcs : cs ≠ []) (hv : v ≠ []) : 2 ≤ (cs.flatten ++ v).length := by
    obtain ⟨c, cs, rfl⟩ := List.exists_cons_of_ne_nil hcs
    have hc := List.length_pos_of_ne_nil (h.chunk c List.mem_cons_self).ne_nil
    have hv := List.length_pos_of_ne_nil hv
    simp only [List.flatten_cons, List.length_append]
    omega
  cases h with
  | @terminated cs t h ht =>
    refine h.unheaded.append (hlength h ?_ (List.cons_ne_nil _ _)) rest
    rintro rfl
    have hnot : t.reads ";" = false := h.unheaded.word ";" (by decide)
    rw [Token.reads_of_isOperator ht] at hnot
    cases hnot
  | @function cs b h _ hcs hb =>
    obtain ⟨t, ts, rfl, -⟩ := hb.exists_cons
    refine h.unheaded.append (hlength h ?_ (List.cons_ne_nil _ _)) rest
    rintro rfl
    obtain ⟨c, hc, -⟩ | ⟨t, ht, -⟩ := hcs.ready
    · cases hc
    · cases ht

namespace Parser

/-- A statement without a head is read up to its end. -/
theorem yields_simple {n : Nat} {G : List Token → Prop} {again : Parser Unit} {s : List Token}
    (hs : IsSimple s) : Yields n (statementForm again) G (fun _ => True) s := by
  have hun := hs.unheaded
  refine .skip (fun rest _ => (hun rest).word "if" (by decide))
    (.neg (fun rest _ => (hun rest).startsNested_eq_false)
      (.skip (fun rest _ => (hun rest).word "do" (by decide))
        (.skip (fun rest _ => (hun rest).word "try" (by decide))
          (.neg (fun rest _ => (hun rest).pair_eq_false (by decide))
            (.neg (fun rest _ => (hun rest).startsMarkedBlock_eq_false) ?_)))))
  exact fun rest _ _ => ⟨(), simpleStatement_of_isSimple hs rest, trivial⟩

/-- A statement without a head. -/
theorem statement_of_unheaded {ts : List Token} (h : Unheaded ts) :
    statement ts = simpleStatement ts := by
  show statementStep _ ts = _
  unfold statementStep isAt
  rw [ahead_bind, if_neg (by simp [h.word Text.openBrace (by decide)]), ahead_bind,
    if_neg (by simp [h.word ";" (by decide)]), ahead_bind, if_neg (by simp [h.label]),
    ahead_bind, if_neg (Bool.eq_false_iff.mp h.await_eq_false)]
  unfold statementForm
  rw [accept_bind, if_neg (by simp [h.word "if" (by decide)]), if_neg Bool.false_ne_true,
    ahead_bind, if_neg (by simp [h.startsNested_eq_false]), accept_bind,
    if_neg (by simp [h.word "do" (by decide)]), if_neg Bool.false_ne_true, accept_bind,
    if_neg (by simp [h.word "try" (by decide)]), if_neg Bool.false_ne_true, ahead_bind,
    if_neg (Bool.eq_false_iff.mp (h.pair_eq_false (by decide))), ahead_bind,
    if_neg (by simp [h.startsMarkedBlock_eq_false])]

end Parser

end SharpScript
