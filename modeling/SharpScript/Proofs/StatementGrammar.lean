import SharpScript.Proofs.Parser.SimpleStatement

/-! # The grammar of statements

Where a statement ends is decided while its tokens are passed over, by looking at one or two of
them at a time.  Here the statements are described by their forms instead, and every one of
them is shown to be cut off behind its last token.

## Main Definitions

* `IsCatch`, `IsNesting`: parts of statements;
* `IsStatement`: **the forms of statements**;
* `NoneAhead`: no word comes next that would continue a statement.

## Main Results

* `Parser.yields_ifElse`, `Parser.yields_nested`, `Parser.yields_try`
  and others: one form each;
* `Parser.yields_statement`: statements are read if no word behind them continues them;
* `statement_cut`: **statements of a source text are cut off behind their last token**.

## Design Notes

An `if` without `else` is continued by an `else`, and so is every statement that ends with one;
a `try` without `finally` is continued by a `catch` or a `finally`.  The words that continue a
statement are an argument of `IsStatement`, so that the first branch of an `if` with `else` is
one that no `else` continues.
-/

namespace SharpScript

/-! ## Forms of statements -/

/-- The words that stand before a head in round brackets and a statement under it. -/
def nestingWords : List String := ["while", "for", "foreach", "lock", "fixed", "using"]

/-- The words before a head in round brackets and the statement under it. -/
inductive IsNesting : List Token → Prop
  | word {t : Token} (ht : t.IsOneOf nestingWords) : IsNesting [t]
  | await {a t : Token} (ha : a.reads "await" = true) (ht : t.IsOneOf ["foreach", "using"]) :
      IsNesting [a, t]

/-- A condition of a `catch` clause, or none. -/
inductive IsFilter : List Token → Prop
  | none : IsFilter []
  | when {t : Token} {g : List Token} (ht : t.reads "when" = true) (hg : IsGroup .round g) :
      IsFilter (t :: g)

/-- A `catch` clause, which may have a head and a condition. -/
inductive IsCatch : List Token → Prop
  | bare {t : Token} {f b : List Token} (ht : t.reads "catch" = true) (hf : IsFilter f)
      (hb : IsGroup .curly b) : IsCatch (t :: (f ++ b))
  | head {t : Token} {g f b : List Token} (ht : t.reads "catch" = true) (hg : IsGroup .round g)
      (hf : IsFilter f) (hb : IsGroup .curly b) : IsCatch (t :: (g ++ (f ++ b)))

/-- The tokens are a statement, which one of the words `more` behind it would continue. -/
inductive IsStatement : (more : List String) → List Token → Prop
  | block {b : List Token} (hb : IsGroup .curly b) : IsStatement [] b
  | empty {t : Token} (ht : t.isOperator ";" = true) : IsStatement [] [t]
  | label {t u : Token} {more : List String} {s : List Token} (ht : t.kind.isIdentifier = true)
      (hu : u.isOperator ":" = true) (hs : IsStatement more s) : IsStatement more (t :: u :: s)
  | ifThen {t : Token} {more : List String} {g s : List Token} (ht : t.reads "if" = true)
      (hg : IsGroup .round g) (hs : IsStatement more s) :
      IsStatement ("else" :: more) (t :: (g ++ s))
  | ifElse {t e : Token} {more more' : List String} {g s s' : List Token}
      (ht : t.reads "if" = true) (hg : IsGroup .round g) (hs : IsStatement more s)
      (hmore : "else" ∉ more) (he : e.reads "else" = true) (hs' : IsStatement more' s') :
      IsStatement more' (t :: (g ++ (s ++ e :: s')))
  | nested {more : List String} {h g s : List Token} (hh : IsNesting h) (hg : IsGroup .round g)
      (hs : IsStatement more s) : IsStatement more (h ++ (g ++ s))
  /-- An identifier `@do` with a colon behind it is a label. -/
  | doWhile {t w u : Token} {more : List String} {s g : List Token} (ht : t.reads "do" = true)
      (hlabel : Parser.startsLabel (t :: s) = false) (hs : IsStatement more s)
      (hw : w.reads "while" = true) (hg : IsGroup .round g) (hu : u.isOperator ";" = true) :
      IsStatement [] (t :: (s ++ w :: (g ++ [u])))
  | tryCatch {t : Token} {b : List Token} {cs : List (List Token)} (ht : t.reads "try" = true)
      (hb : IsGroup .curly b) (hcs : ∀ c ∈ cs, IsCatch c) :
      IsStatement ["catch", "finally"] (t :: (b ++ cs.flatten))
  | tryFinally {t f : Token} {b b' : List Token} {cs : List (List Token)}
      (ht : t.reads "try" = true) (hb : IsGroup .curly b) (hcs : ∀ c ∈ cs, IsCatch c)
      (hf : f.reads "finally" = true) (hb' : IsGroup .curly b') :
      IsStatement [] (t :: (b ++ (cs.flatten ++ f :: b')))
  | switch {t : Token} {g b : List Token} (ht : t.reads "switch" = true)
      (hg : IsGroup .round g) (hb : IsGroup .curly b) : IsStatement [] (t :: (g ++ b))
  | marked {t : Token} {b : List Token} (ht : t.IsOneOf ["checked", "unchecked", "unsafe"])
      (hb : IsGroup .curly b) : IsStatement [] (t :: b)
  | simple {s : List Token} (hs : IsSimple s) : IsStatement [] s
  /-- A declaration with `await using`. -/
  | awaited {a : Token} {s : List Token} (ha : a.reads "await" = true)
      (hu : Ahead.reads "using" s = true) (hs : IsSimple s) : IsStatement [] (a :: s)

/-- None of the words comes next. -/
def NoneAhead (ws : List String) (rest : List Token) : Prop :=
  ∀ w ∈ ws, Ahead.reads w rest = false

/-- Only these words continue a statement. -/
theorem IsStatement.more_subset {more : List String} {s : List Token}
    (h : IsStatement more s) :
    more ⊆ ["else", "catch", "finally"] := by
  induction h with
  | label _ _ _ ih => exact ih
  | ifThen _ _ _ ih => exact List.cons_subset.mpr ⟨by decide, ih⟩
  | ifElse _ _ _ _ _ _ _ ih => exact ih
  | nested _ _ _ ih => exact ih
  | tryCatch => decide
  | _ => exact List.nil_subset _

theorem IsStatement.ne_nil {more : List String} {s : List Token} (h : IsStatement more s) :
    s ≠ [] := by
  cases h with
  | block hb => exact (IsChunk.group hb).ne_nil
  | nested hh _ _ => cases hh <;> exact List.cons_ne_nil _ _
  | simple hs =>
    cases hs with
    | terminated _ _ => simp
    | function _ _ _ hb => simp [(IsChunk.group hb).ne_nil]
  | _ => exact List.cons_ne_nil _ _

/-! ## Statements with a head -/

/-- A group reads as the bracket that it begins with. -/
theorem IsGroup.reads_eq {b : Bracket} {g : List Token} (h : IsGroup b g) (w : String)
    (rest : List Token) : Ahead.reads w (g ++ rest) = (b.opening == w) := by
  obtain ⟨t, ts, rfl, hkind, htext⟩ := h.exists_cons
  simp [Ahead.reads, Token.reads, hkind, htext, Kind.isLiteral]

theorem IsFilter.reads_round {f b : List Token} (hf : IsFilter f) (hb : IsGroup .curly b)
    (rest : List Token) : Ahead.reads "(" (f ++ b ++ rest) = false := by
  cases hf with
  | none => exact hb.reads_eq "(" rest
  | when ht _ => exact Token.reads_of_ne ht (by decide)

namespace Parser

variable {n : Nat} {G H : List Token → Prop} {again : Parser Unit} {t e w u : Token}
  {s s' g b f : List Token} {cs : List (List Token)}

theorem yields_group {k : Bracket} (hg : IsGroup k g) : Yields n group G (fun _ => True) g :=
  fun rest _ _ => ⟨(), group_of_isGroup hg rest, trivial⟩

/-- A group, and a rule behind it. -/
theorem Yields.group_bind {α : Type} {V : α → Prop} {k : Bracket} {p : Unit → Parser α}
    (hg : IsGroup k g) (hp : Yields n (p ()) G V s) : Yields n (group >>= p) G V (g ++ s) :=
  .bind (H := fun _ => True) (yields_group hg) (fun _ _ => trivial) fun _ _ => hp

/-- An `if` without `else` needs to know that no `else` comes behind it. -/
theorem yields_ifThen (ht : t.reads "if" = true) (hg : IsGroup .round g)
    (hs : Yields n again H (fun _ => True) s) (hH : ∀ rest, G rest → H rest)
    (helse : ∀ rest, G rest → Ahead.reads "else" rest = false) :
    Yields (n + 1) (statementForm again) G (fun _ => True) (t :: (g ++ s)) := by
  refine .accept ht (.group_bind hg ?_)
  rw [← List.append_nil s]
  exact .bind hs hH fun _ _ => .skip helse (yields_pure trivial)

/-- Between `if` and `else` there is a statement that does not go on with `else` itself. -/
theorem yields_ifElse (ht : t.reads "if" = true) (hg : IsGroup .round g)
    (hs : Yields n again H (fun _ => True) s) (hH : ∀ rest, H (e :: rest))
    (he : e.reads "else" = true) (hs' : Yields n again G (fun _ => True) s') :
    Yields (n + 1) (statementForm again) G (fun _ => True) (t :: (g ++ (s ++ e :: s'))) :=
  .accept ht (.group_bind hg (.bind hs (fun rest _ => hH (s' ++ rest)) fun _ _ =>
    (Yields.accept he hs').less))

/-- A word before a head in brackets, and a statement under it. -/
theorem startsNested_eq_true (ht : t.IsOneOf nestingWords) (hg : IsGroup .round g) :
    startsNested (t :: (g ++ s)) = true := by
  obtain ⟨v, vs, rfl, -, htext⟩ := hg.exists_cons
  obtain ⟨w, hw, hread⟩ := ht
  unfold startsNested
  rw [Bool.or_eq_true_iff, Bool.and_eq_true_iff]
  have hcases : w ∈ ["while", "for", "foreach", "lock", "fixed"] ∨ w = "using" := by
    simpa [nestingWords, or_assoc] using hw
  rcases hcases with hw | rfl
  · exact .inl (List.any_eq_true.mpr ⟨w, hw, hread⟩)
  · exact .inr ⟨hread, by simp [Ahead.text, htext, Bracket.opening]⟩

/-- A word with a group before a statement: loops, locks and the like. -/
theorem yields_nested (ht : t.IsOneOf nestingWords) (hg : IsGroup .round g)
    (hs : Yields n again G (fun _ => True) s) :
    Yields (n + 1) (statementForm again) G (fun _ => True) (t :: (g ++ s)) := by
  refine .skip (fun _ _ => ht.reads_eq_false (by decide))
    (.pos (fun rest _ => ?_) (.advance_succ (.group_bind hg hs)))
  rw [List.cons_append, List.append_assoc]
  exact startsNested_eq_true ht hg

/-- A word that begins no statement with a head and a statement under it. -/
theorem startsNested_eq_false {ws : List String} (ht : t.IsOneOf ws)
    (hws : ∀ v ∈ nestingWords, v ∉ ws) : startsNested (t :: s) = false := by
  have hreads : ∀ v ∈ nestingWords, t.reads v = false :=
    fun v hv => ht.reads_eq_false (hws v hv)
  simp only [nestingWords, List.forall_mem_cons] at hreads
  simp [startsNested, Ahead.readsAny, Ahead.reads, hreads]

/-- A `do` ends with a `;`. -/
theorem yields_doWhile (ht : t.reads "do" = true) (hs : Yields n again H (fun _ => True) s)
    (hH : ∀ rest, H (w :: rest)) (hw : w.reads "while" = true) (hg : IsGroup .round g)
    (hu : u.isOperator ";" = true) :
    Yields (n + 1) (statementForm again) G (fun _ => True) (t :: (s ++ w :: (g ++ [u]))) := by
  have hclosing : Yields n (expect ";") G (fun _ => True) [u] := by
    rw [← bind_pure (expect ";")]
    exact .expect (Token.reads_of_isOperator hu) (yields_pure trivial)
  refine .skip (fun _ _ => Token.reads_of_ne ht (by decide))
    (.neg (fun _ _ => startsNested_eq_false (Token.isOneOf_single ht) (by decide))
      (.accept ht ?_))
  exact .bind hs (fun rest _ => hH (g ++ [u] ++ rest)) fun _ _ =>
    .expect hw (.group_bind hg hclosing)

/-! ## Clauses -/

/-- A filter before the block of a clause, or none. -/
theorem yields_filter (hf : IsFilter f) (hb : IsGroup .curly b) :
    Yields n (do if ← accept "when" then group
                 group
                 return true) G (· = true) (f ++ b) := by
  have hbody : Yields n (group >>= fun _ => pure true) G (· = true) b :=
    (yields_group hb).map fun _ _ => rfl
  cases hf with
  | none => exact .skip (fun rest _ => hb.reads_eq "when" rest) hbody
  | when ht hg => exact (Yields.accept ht (.group_bind hg hbody)).less

/-- A clause, with what is caught and a filter or without them. -/
theorem yields_catchClause {c : List Token} (hc : IsCatch c) :
    Yields n catchClause G (· = true) c := by
  refine Yields.less ?_
  cases hc with
  | bare ht hf hb =>
    exact .accept ht (.neg (fun rest _ => hf.reads_round hb rest) (yields_filter hf hb))
  | head ht hg hf hb =>
    refine .accept ht (.pos (fun rest _ => ?_) (.group_bind hg (yields_filter hf hb)))
    rw [List.append_assoc]
    exact hg.reads_eq "(" _

theorem catchClause_of_not_reads {ts : List Token} (h : Ahead.reads "catch" ts = false) :
    catchClause ts = .ok (false, ts) := by
  unfold catchClause
  rw [accept_bind, if_neg (by simp [h])]
  rfl

/-- All clauses are read if no other one comes behind them. -/
theorem yields_clauses (hcs : ∀ c ∈ cs, IsCatch c)
    (hG : ∀ rest, G rest → Ahead.reads "catch" rest = false) :
    Yields n (repeatWhile catchClause) G (fun _ => True) cs.flatten := by
  have hround : ∀ ts mid, catchClause ts = .ok (true, mid) → mid.length < ts.length :=
    fun ts mid h => Comparison.sim_catchClause.length_lt h rfl
  intro rest hn hrest
  refine ⟨(), ?_, trivial⟩
  clear hn
  induction cs with
  | nil =>
    exact (repeatWhile_eq_ok hround).mpr (.inl (catchClause_of_not_reads (hG rest hrest)))
  | cons c cs ih =>
    obtain ⟨hc, hcs⟩ := List.forall_mem_cons.mp hcs
    obtain ⟨_, hclause, rfl⟩ := yields_catchClause (G := fun _ => True) hc (cs.flatten ++ rest)
      (Nat.lt_succ_self _) trivial
    rw [List.flatten_cons, List.append_assoc]
    exact (repeatWhile_eq_ok hround).mpr (.inr ⟨_, hclause, ih hcs⟩)

/-- A `try` with its clauses, and what comes behind them. -/
theorem yields_try (ht : t.reads "try" = true) (hb : IsGroup .curly b)
    (hcs : ∀ c ∈ cs, IsCatch c) (hG : ∀ rest, G rest → Ahead.reads "catch" (f ++ rest) = false)
    (hf : Yields n (do if ← accept "finally" then group) G (fun _ => True) f) :
    Yields (n + 1) (statementForm again) G (fun _ => True)
      (t :: (b ++ (cs.flatten ++ f))) := by
  refine .skip (fun _ _ => Token.reads_of_ne ht (by decide))
    (.neg (fun _ _ => startsNested_eq_false (Token.isOneOf_single ht) (by decide))
      (.skip (fun _ _ => Token.reads_of_ne ht (by decide)) (.accept ht (.group_bind hb ?_))))
  exact .bind (yields_clauses hcs fun _ h => h) hG fun _ _ => hf

/-! ## Words before a group -/

/-- A `switch` ends with its braces. -/
theorem yields_switch (ht : t.reads "switch" = true) (hg : IsGroup .round g)
    (hb : IsGroup .curly b) :
    Yields (n + 1) (statementForm again) G (fun _ => True) (t :: (g ++ b)) := by
  refine .skip (fun _ _ => Token.reads_of_ne ht (by decide))
    (.neg (fun _ _ => startsNested_eq_false (Token.isOneOf_single ht) (by decide))
      (.skip (fun _ _ => Token.reads_of_ne ht (by decide))
        (.skip (fun _ _ => Token.reads_of_ne ht (by decide))
          (.pos (fun rest _ => ?_) (.advance_succ (.group_bind hg (yields_group hb)))))))
  obtain ⟨v, vs, rfl, -, htext⟩ := hg.exists_cons
  simp [Ahead.reads, Ahead.text, ht, htext, Bracket.opening]

/-- A block with a word before it. -/
theorem yields_marked (ht : t.IsOneOf ["checked", "unchecked", "unsafe"])
    (hb : IsGroup .curly b) :
    Yields (n + 1) (statementForm again) G (fun _ => True) (t :: b) := by
  refine .skip (fun _ _ => ht.reads_eq_false (by decide))
    (.neg (fun _ _ => startsNested_eq_false ht (by decide))
      (.skip (fun _ _ => ht.reads_eq_false (by decide))
        (.skip (fun _ _ => ht.reads_eq_false (by decide))
          (.neg (fun rest _ => ?_)
            (.pos (fun rest _ => ?_) (.advance_succ (yields_group hb)))))))
  · rw [Bool.and_eq_false_iff]
    exact .inl (ht.reads_eq_false (by decide))
  · obtain ⟨v, vs, rfl, -, htext⟩ := hb.exists_cons
    unfold startsMarkedBlock
    rw [Bool.and_eq_true_iff]
    exact ⟨List.any_eq_true.mpr ht, by simp [Ahead.text, htext, Bracket.opening]⟩

/-! ## All statements -/

/-- There is no label without a colon. -/
theorem startsLabel_eq_false {ts : List Token} (h : Ahead.text 1 ts ≠ ":") :
    startsLabel ts = false := by
  obtain _ | ⟨t, _ | ⟨u, ts⟩⟩ := ts
  · rfl
  · rfl
  · have hu : u.text ≠ ":" := h
    simp [startsLabel, Token.isOperator, hu]

theorem startsLabel_of_isGroup {k : Bracket} (hg : IsGroup k g) (rest : List Token) :
    startsLabel (t :: (g ++ rest)) = false := by
  obtain ⟨v, vs, rfl, -, htext⟩ := hg.exists_cons
  refine startsLabel_eq_false fun h => ?_
  rw [show v.text = ":" from h] at htext
  revert htext
  cases k <;> decide

/-- A statement that begins with a word of its own. -/
theorem yields_word {ws : List String} (ht : t.IsOneOf ws)
    (hws : ∀ v ∈ [Text.openBrace, ";", "await"], v ∉ ws)
    (hlabel : ∀ rest, startsLabel (t :: s ++ rest) = false)
    (h : Yields n (statementForm again) G (fun _ => True) (t :: s)) :
    Yields n (statementStep again) G (fun _ => True) (t :: s) := by
  have hne : ∀ v ∈ [Text.openBrace, ";", "await"], t.reads v = false :=
    fun v hv => ht.reads_eq_false (hws v hv)
  refine .neg (fun _ _ => hne Text.openBrace (by decide))
    (.neg (fun _ _ => hne ";" (by decide))
      (.neg (fun rest _ => hlabel rest) (.neg (fun rest _ => ?_) h)))
  rw [Bool.and_eq_false_iff]
  exact .inl (hne "await" (by decide))

/-- A statement that begins with a word and a group. -/
theorem yields_word_group {k : Bracket} {ws : List String} (ht : t.IsOneOf ws)
    (hws : ∀ v ∈ [Text.openBrace, ";", "await"], v ∉ ws) (hg : IsGroup k g)
    (h : Yields n (statementForm again) G (fun _ => True) (t :: (g ++ s))) :
    Yields n (statementStep again) G (fun _ => True) (t :: (g ++ s)) := by
  refine yields_word ht hws (fun rest => ?_) h
  rw [List.cons_append, List.append_assoc]
  exact startsLabel_of_isGroup hg _

/-- A statement behind an `await`. -/
theorem yields_awaited (ht : t.reads "await" = true) (hu : u.IsOneOf ["foreach", "using"])
    (h : Yields n (statementForm again) G (fun _ => True) (u :: s)) :
    Yields (n + 1) (statementStep again) G (fun _ => True) (t :: u :: s) := by
  have htext := (Token.isOneOf_iff.mp hu).1
  refine .neg (fun _ _ => Token.reads_of_ne ht (by decide))
    (.neg (fun _ _ => Token.reads_of_ne ht (by decide))
      (.neg (fun rest _ => startsLabel_eq_false fun h => ?_)
        (.pos (fun rest _ => ?_) (.advance_succ h))))
  · rw [show u.text = ":" from h] at htext
    revert htext
    decide
  · rw [Bool.and_eq_true_iff]
    exact ⟨ht, List.contains_iff_mem.mpr htext⟩

theorem NoneAhead.cons_token {more : List String} {v : String} (ht : t.reads v = true)
    (hv : v ∉ more) (rest : List Token) : NoneAhead more (t :: rest) :=
  fun _ hw => Token.reads_of_ne ht fun h => hv (h ▸ hw)

/-- An identifier is no sign. -/
theorem reads_of_isIdentifier {v : String} (ht : t.kind.isIdentifier = true)
    (hshape : Lexer.WellShaped t) (hv : Lexer.startsWord v = false) : t.reads v = false := by
  refine eq_false_of_ne_true fun hread => ?_
  rw [(hshape.isOperator_of_reads hread hv).1] at ht
  cases ht

/-- A statement is read if no word behind it continues it. -/
theorem yields_statement {more : List String} {ts : List Token} (h : IsStatement more ts)
    (hshape : ∀ t ∈ ts, Lexer.WellShaped t) :
    ∀ m, Yields m (descend (fun again (_ : Unit) => statementStep (again ())) m ())
      (NoneAhead more) (fun _ => True) ts := by
  -- A form is unfolded once, and the statements in it once less, which the
  -- hypotheses allow for.
  induction h with
  | block hb =>
    exact yields_descend fun m => .pos (fun rest _ => hb.reads_eq Text.openBrace rest)
      (yields_group hb)
  | empty ht =>
    have hread := Token.reads_of_isOperator ht
    exact yields_descend fun m => .neg (fun _ _ => Token.reads_of_ne hread (by decide))
      (.pos (fun _ _ => hread) fun rest _ _ => ⟨(), rfl, trivial⟩)
  | @label t u more s ht hu _ ih =>
    obtain ⟨htshape, -, hsshape⟩ : Lexer.WellShaped t ∧ Lexer.WellShaped u ∧
        ∀ v ∈ s, Lexer.WellShaped v := by simpa [List.forall_mem_cons] using hshape
    refine yields_descend fun m => ?_
    exact .neg (fun _ _ => reads_of_isIdentifier ht htshape (by decide))
      (.neg (fun _ _ => reads_of_isIdentifier ht htshape (by decide))
        (.pos (fun _ _ => Bool.and_eq_true_iff.mpr ⟨ht, hu⟩)
          (.advance_succ (.advance (ih hsshape m)))))
  | @ifThen t more g s ht hg _ ih =>
    have hs := ih fun v hv => hshape v (by simp [hv])
    exact yields_descend fun m => yields_word_group (Token.isOneOf_single ht) (by decide) hg
      (yields_ifThen ht hg (hs m) (fun rest h => (List.forall_mem_cons.mp h).2)
        fun rest h => h "else" List.mem_cons_self)
  | @ifElse t e more more' g s s' ht hg _ hmore he _ ih ih' =>
    have hs := ih fun v hv => hshape v (by simp [hv])
    have hs' := ih' fun v hv => hshape v (by simp [hv])
    exact yields_descend fun m => yields_word_group (Token.isOneOf_single ht) (by decide) hg
      (yields_ifElse ht hg (hs m) (NoneAhead.cons_token he hmore) he (hs' m))
  | @nested more h g s hh hg _ ih =>
    have hs := ih fun v hv => hshape v (by simp [hv])
    refine yields_descend fun m => ?_
    cases hh with
    | @word t ht =>
      rw [List.singleton_append]
      exact yields_word_group ht (by decide) hg (yields_nested ht hg (hs m))
    | @await a t ha ht =>
      exact yields_awaited ha ht (yields_nested (ht.mono (by decide)) hg (hs m)).less
  | @doWhile t w u more s g ht hlabel hs hw hg hu ih =>
    have hs' := ih fun v hv => hshape v (by simp [hv])
    have hmore : "while" ∉ more := fun h => absurd (hs.more_subset h) (by decide)
    refine yields_descend fun m => yields_word (Token.isOneOf_single ht) (by decide)
      (fun rest => ?_) (yields_doWhile ht (hs' m) (NoneAhead.cons_token hw hmore) hw hg hu)
    obtain ⟨v, s, rfl⟩ := List.exists_cons_of_ne_nil hs.ne_nil
    exact hlabel
  | tryCatch ht hb hcs =>
    refine yields_descend fun m => yields_word_group (Token.isOneOf_single ht)
      (by decide) hb ?_
    rw [← List.append_nil (List.flatten _)]
    exact yields_try ht hb hcs (fun rest h => h "catch" (by decide))
      (.skip (fun rest h => h "finally" (by decide)) (yields_pure trivial))
  | tryFinally ht hb hcs hf hb' =>
    exact yields_descend fun m => yields_word_group (Token.isOneOf_single ht) (by decide) hb
      (yields_try ht hb hcs (fun rest _ => Token.reads_of_ne hf (by decide))
        (Yields.accept hf (yields_group hb')).less)
  | switch ht hg hb =>
    exact yields_descend fun m => yields_word_group (Token.isOneOf_single ht) (by decide) hg
      (yields_switch ht hg hb)
  | marked ht hb =>
    refine yields_descend fun m => yields_word ht (by decide) (fun rest => ?_)
      (yields_marked ht hb)
    exact startsLabel_of_isGroup hb rest
  | simple hs =>
    have hun := hs.unheaded
    exact yields_descend fun m =>
      .neg (fun rest _ => (hun rest).word Text.openBrace (by decide))
        (.neg (fun rest _ => (hun rest).word ";" (by decide))
          (.neg (fun rest _ => (hun rest).label)
            (.neg (fun rest _ => (hun rest).await_eq_false) (yields_simple hs))))
  | @awaited a s ha hu hs =>
    obtain ⟨u, s, rfl, hu⟩ := Comparison.exists_reads (by decide) hu
    exact yields_descend fun m => yields_awaited ha
      ((Token.isOneOf_single hu).mono (by decide)) (yields_simple hs)

end Parser

/-- **Statements of a source text are cut off behind their last token**, if what comes behind
does not continue them. -/
theorem statement_cut {source : String} {t : Tokenized} (ht : tokenize source = .ok t)
    {before ts rest : List Token} (hsplit : t.tokens = before ++ (ts ++ rest))
    {more : List String} (hts : IsStatement more ts) (hrest : NoneAhead more rest) :
    Parser.statement (ts ++ rest) = .ok ((), rest) := by
  have hshape : ∀ u ∈ ts, Lexer.WellShaped u := by
    intro u hu
    refine (lexed_of_tokenize ht).wellShaped u ?_
    rw [hsplit]
    simp [hu]
  obtain ⟨_, hread, -⟩ := Parser.yields_fix (n := (ts ++ rest).length + 1)
    (Parser.yields_statement hts hshape) rest (by rw [List.length_append]; omega) hrest
  exact hread

/-- A token on the first line of a text, right behind another one. -/
def Token.adjoining (k : Kind) (w : String) (n : Nat) : Token :=
  ⟨k, w, "", ⟨n, 1, n + 1, n == 0⟩⟩

/-- Two `if` with an `else` each, a local function under both, and an `else` too many. -/
theorem statement_cut_branches : ∃ t ts rest,
    tokenize ("if(a)if(b)F()" ++ Text.braced "" ++ "else;else;else") = .ok t ∧
      t.tokens = [] ++ (ts ++ rest) ∧ IsStatement [] ts ∧ NoneAhead [] rest ∧
        rest.map Token.text = ["else"] ∧ Parser.statement (ts ++ rest) = .ok ((), rest) := by
  let name := Token.adjoining (.identifier false)
  let sign := Token.adjoining .operator
  let word := Token.adjoining .keyword
  have hcondition (w : String) (n : Nat) :
      IsGroup .round [sign "(" n, name w (n + 1), sign ")" (n + 2)] :=
    ⟨_, [_], _, rfl, rfl, balanced_single rfl, rfl⟩
  have hround : IsGroup .round [sign "(" 11, sign ")" 12] :=
    ⟨_, [], _, rfl, rfl, balanced_nil, rfl⟩
  have hcurly : IsGroup .curly [sign Text.openBrace 13, sign Text.closeBrace 14] :=
    ⟨_, [], _, rfl, rfl, balanced_nil, rfl⟩
  have hhead : IsHead ([[name "F" 10], [sign "(" 11, sign ")" 12]].flatten ++
      [sign Text.openBrace 13, sign Text.closeBrace 14]) [[name "F" 10],
      [sign "(" 11, sign ")" 12]] := by
    refine ⟨⟨by decide, by decide, rfl⟩, ?_, by decide, fun pre c post hcs hc => ?_⟩
    · simp only [List.forall_mem_cons]
      exact ⟨.token rfl, .group hround, nofun⟩
    · obtain ⟨t, ts, rfl, -, htext⟩ := hc.exists_cons
      have hmem : t :: ts ∈ [[name "F" 10], [sign "(" 11, sign ")" 12]] := hcs ▸ by simp
      have hfirst : t = name "F" 10 ∨ t = sign "(" 11 := by
        simp only [List.mem_cons, List.not_mem_nil, or_false, List.cons.injEq] at hmem
        exact hmem.imp And.left And.left
      rcases hfirst with rfl | rfl <;> exact absurd htext (by decide)
  have hfunction : IsSimple _ := .function hhead (.name rfl (by decide) (by decide))
    ⟨by decide, .inl ⟨_, rfl, hround⟩⟩ hcurly
  have hinner :=
    IsStatement.ifElse (t := word "if" 5) (e := word "else" 15) rfl (hcondition "b" 7)
    (.simple hfunction) (by decide) rfl (.empty (t := sign ";" 19) rfl)
  have houter :=
    IsStatement.ifElse (t := word "if" 0) (e := word "else" 20) rfl (hcondition "a" 2)
    hinner (by decide) rfl (.empty (t := sign ";" 24) rfl)
  obtain ⟨ts, hts, ht⟩ : ∃ ts, IsStatement [] ts ∧
      tokenize ("if(a)if(b)F()" ++ Text.braced "" ++ "else;else;else") =
        .ok ⟨ts ++ [word "else" 25], "", ⟨29, 1, 30, false⟩⟩ := ⟨_, houter, by decide +kernel⟩
  exact ⟨_, ts, [word "else" 25], ht, rfl, hts, nofun, rfl,
    statement_cut ht (List.nil_append _).symm hts nofun⟩

end SharpScript
