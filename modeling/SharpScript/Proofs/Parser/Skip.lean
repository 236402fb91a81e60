import SharpScript.Proofs.Parser.Comparison

/-! # Two runs of what is passed over

The rules for brackets, types, expressions and statements do the same in
both runs of a comparison.

## Main Definitions

* `Contract.group`, `Contract.chunks`, `Contract.statement`: the contracts of groups, of
  several chunks, and of statements.

## Main Results

* `Comparison.sim_group`, `Comparison.sim_typeReference`, `Comparison.sim_expression`,
  `Comparison.sim_initializer`, `Comparison.sim_restOfMember`: brackets and what is skipped;
* `Comparison.sim_statement`: **statements**, behind which `else`, `catch` and
  `finally` must not follow.
-/

namespace SharpScript

namespace Contract

/-- A group is read: it is balanced, and its last token closes. -/
def group : Contract := ⟨some [], true, true, true, false⟩

/-- Nothing is told, and the words `ws` are looked for behind. -/
def before (ws : List String) : Contract := ⟨some ws, false, false, false, false⟩

/-- Something is read of which the last token ends a declaration, and a `;` behind it is passed
over. -/
def closing : Contract := ⟨some [], true, false, true, true⟩

/-- A `;` is passed over if one comes next. -/
def semicolon : Contract := ⟨some [], false, true, true, true⟩

/-- Some chunks are read, or none. -/
def chunks : Contract := ⟨some [], false, true, false, false⟩

/-- Something is read of which the last token ends a declaration. -/
def closed : Contract := ⟨some [], true, false, true, false⟩

/-- A statement is read.  One that ends here may go on with `else`, `catch` or `finally`. -/
def statement : Contract := ⟨some ["else", "catch", "finally"], true, true, true, false⟩

/-- The rest of a statement is read, if there is any. -/
def remainder : Contract := ⟨some ["else", "catch", "finally"], false, true, true, false⟩

end Contract

/-- A loop ends with a round that says so. -/
theorem Parser.repeatWhile_last {step : Parser Bool} {ts rest : List Token}
    (h : repeatWhile step ts = .ok ((), rest)) : ∃ mid, step mid = .ok (false, rest) := by
  have hdescend : ∀ n ts, descend (fun again (_ : Unit) => do
      match ← (do return if ← step then .inl () else .inr () : Parser (Unit ⊕ Unit)) with
      | .inl _ => again ()
      | .inr _ =>
        return ()) n () ts = .ok ((), rest) → ∃ mid, step mid = .ok (false, rest) := by
    intro n
    induction n with
    | zero => exact fun ts h => nomatch h
    | succ n ih =>
      intro ts h
      obtain ⟨r, mid, hround, hrest⟩ := bind_eq_ok.mp h
      obtain ⟨b, mid', hstep, hpure⟩ := bind_eq_ok.mp hround
      cases b with
      | true =>
        cases hpure
        exact ih _ hrest
      | false =>
        cases hpure
        cases hrest
        exact ⟨ts, hstep⟩
  refine hdescend (ts.length + 1) ts ?_
  rw [← h]
  unfold repeatWhile loop fix
  congr 1
  funext again s
  congr 1
  funext r
  cases r <;> rfl

namespace Comparison

variable {C : Comparison} {ts us : List Token}

/-! ## Brackets -/

/-- Which bracket a token opens depends on its content alone. -/
theorem Bracket.opened?_of_content {t u : Token} (h : t.content = u.content) :
    Bracket.opened? t = Bracket.opened? u := by
  obtain ⟨hkind, htext⟩ := Prod.mk.inj h
  simp only [Bracket.opened?, Token.isOperator, hkind, htext]

theorem Bracket.closed?_of_content {t u : Token} (h : t.content = u.content) :
    Bracket.closed? t = Bracket.closed? u := by
  obtain ⟨hkind, htext⟩ := Prod.mk.inj h
  simp only [Bracket.closed?, Token.isOperator, hkind, htext]

/-- Two ways of passing over tokens end at corresponding places, or both fail there. -/
structure Passes (C : Comparison) (ts us : List Token) (r r' : Except Failure (List Token)) :
    Prop where
  ok : ∀ {rest}, r = .ok rest → ∃ n, n ≤ ts.length ∧ rest = ts.drop n ∧ r' = .ok (us.drop n)
  error : ∀ {e}, r = .error e → C.strict →
    ∃ n, n ≤ ts.length ∧ e.left = ts.drop n ∧ r' = .error ⟨e.problem, us.drop n⟩

/-- The tokens that are passed over in both runs may have more before them. -/
theorem Passes.cons {t u : Token} {r r' : Except Failure (List Token)}
    (h : Passes C ts us r r') :
    Passes C (t :: ts) (u :: us) r r' where
  ok hr := by
    obtain ⟨n, hn, hrest, hr'⟩ := h.ok hr
    exact ⟨n + 1, by simpa using hn, hrest, hr'⟩
  error hr hs := by
    obtain ⟨n, hn, hleft, hr'⟩ := h.error hr hs
    exact ⟨n + 1, by simpa using hn, hleft, hr'⟩

/-- Nothing is passed over. -/
theorem passes_here : Passes C ts us (.ok ts) (.ok us) where
  ok hr := by
    cases hr
    exact ⟨0, Nat.zero_le _, rfl, rfl⟩
  error hr := nomatch hr

theorem passes_fail (p : Problem) : Passes C ts us (.error ⟨p, ts⟩) (.error ⟨p, us⟩) where
  ok hr := nomatch hr
  error hr _ := by
    cases hr
    exact ⟨0, Nat.zero_le _, rfl, rfl⟩

/-- A failure at the end of the first list. -/
theorem passes_end (ht : C.tokens [] us) {p : Problem} {r : Except Failure (List Token)}
    (h : us = [] → r = .error ⟨p, []⟩) : Passes C [] us (.error ⟨p, []⟩) r where
  ok hr := nomatch hr
  error hr hs := by
    cases hr
    obtain rfl : us = [] := List.length_eq_zero_iff.mp (C.whole ht hs).symm
    exact ⟨0, Nat.zero_le _, rfl, h rfl⟩

/-- Brackets close at corresponding places. -/
theorem passes_close (bs : List Bracket) (ht : C.tokens ts us) :
    Passes C ts us (Bracket.close bs ts) (Bracket.close bs us) := by
  induction ts generalizing bs us with
  | nil =>
    cases bs with
    | nil =>
      rw [Bracket.close, Bracket.close]
      exact passes_here
    | cons b bs =>
      rw [Bracket.close]
      refine passes_end ht ?_
      rintro rfl
      rw [Bracket.close]
  | cons t ts ih =>
    cases bs with
    | nil =>
      rw [Bracket.close, Bracket.close]
      exact passes_here
    | cons b bs =>
      obtain ⟨u, us, rfl, hcontent, hrest⟩ := tokens_cons ht
      rw [Bracket.close, Bracket.close, ← Bracket.opened?_of_content hcontent,
        ← Bracket.closed?_of_content hcontent]
      cases Bracket.opened? t with
      | some inner => exact (ih _ hrest).cons
      | none =>
        cases Bracket.closed? t with
        | none => exact (ih _ hrest).cons
        | some c =>
          dsimp only
          split
          · exact (ih _ hrest).cons
          · exact passes_fail _

/-- Whether a token reads as a word depends on its content alone. -/
theorem reads_of_content {t u : Token} (h : t.content = u.content) (w : String) :
    t.reads w = u.reads w := by
  obtain ⟨hkind, htext⟩ := Prod.mk.inj h
  simp only [Token.reads, hkind, htext]

/-- Lists of type arguments close at corresponding places. -/
theorem passes_closeAngles (depth : Nat) (ht : C.tokens ts us) :
    Passes C ts us (closeAngles depth ts) (closeAngles depth us) := by
  induction ts generalizing depth us with
  | nil =>
    cases depth with
    | zero =>
      rw [closeAngles, closeAngles]
      exact passes_here
    | succ depth =>
      rw [closeAngles]
      refine passes_end ht ?_
      rintro rfl
      rw [closeAngles]
  | cons t ts ih =>
    cases depth with
    | zero =>
      rw [closeAngles, closeAngles]
      exact passes_here
    | succ depth =>
      obtain ⟨u, us, rfl, hcontent, hrest⟩ := tokens_cons ht
      rw [closeAngles, closeAngles, reads_of_content hcontent, reads_of_content hcontent]
      split
      · exact (ih _ hrest).cons
      · split
        · exact (ih _ hrest).cons
        · exact (ih _ hrest).cons

/-- A rule that only passes over tokens. -/
theorem Passes.at {c : Contract} {f : List Token → Except Failure (List Token)}
    (h : Passes C ts us (f ts) (f us))
    (hspans : ∀ n, n ≤ ts.length → f ts = .ok (ts.drop n) → c.Spans (ts.take n)) :
    C.At c (fun _ _ => True) (fun ts => (f ts).map ((), ·))
      (fun ts => (f ts).map ((), ·)) ts us where
  ok {a rest} hp := by
    cases hf : f ts with
    | error e => rw [hf] at hp; cases hp
    | ok r =>
      rw [hf] at hp
      cases hp
      obtain ⟨n, hn, rfl, hr⟩ := h.ok hf
      exact ⟨n, (), hn, rfl, hspans n hn hf, trivial,
        fun _ => ⟨us.drop n, by rw [hr]; rfl, .inl rfl⟩⟩
  error {e} hp hs := by
    cases hf : f ts with
    | ok r => rw [hf] at hp; cases hp
    | error e' =>
      rw [hf] at hp
      cases hp
      obtain ⟨n, hn, hleft, hr⟩ := h.error hf hs
      exact ⟨n, hn, hleft, by rw [hr]; rfl⟩

/-- The tokens behind the group at the head of a list. -/
def groupEnd : List Token → Except Failure (List Token)
  | [] => .error ⟨.expected .bracket, []⟩
  | t :: ts =>
    match Bracket.opened? t with
    | some b => Bracket.close [b] ts
    | none => .error ⟨.expected .bracket, t :: ts⟩

/-- A group as a search for its end. -/
theorem group_eq : Parser.group = fun ts => (groupEnd ts).map ((), ·) := by
  funext ts
  cases ts with
  | nil => rfl
  | cons t ts =>
    simp only [Parser.group, groupEnd]
    cases Bracket.opened? t <;> rfl

/-- Both runs find the end of a group at the same place. -/
theorem passes_groupEnd (ht : C.tokens ts us) :
    Passes C ts us (groupEnd ts) (groupEnd us) := by
  cases ts with
  | nil => exact passes_end ht fun h => by subst h; rfl
  | cons t ts =>
    obtain ⟨u, us, rfl, hcontent, hrest⟩ := tokens_cons ht
    simp only [groupEnd, ← Bracket.opened?_of_content hcontent]
    cases Bracket.opened? t with
    | some b => exact (passes_close [b] hrest).cons
    | none => exact passes_fail _

/-- What is passed over as a group pairs its brackets and ends with one. -/
theorem spans_groupEnd {n : Nat} (hn : n ≤ ts.length) (h : groupEnd ts = .ok (ts.drop n)) :
    Contract.group.Spans (ts.take n) := by
  cases ts with
  | nil => cases h
  | cons t ts =>
    simp only [groupEnd] at h
    cases hopen : Bracket.opened? t with
    | none => rw [hopen] at h; cases h
    | some b =>
      rw [hopen] at h
      obtain ⟨w, hw, hbalanced, u, hu, hcloses⟩ := balanced_group hopen h
      have htake : (t :: ts).take n = t :: w := by
        have hcons : t :: ts = (t :: w) ++ (t :: ts).drop n := by
          rw [List.cons_append, ← hw]
        have hlen := congrArg List.length hcons
        rw [List.length_append, List.length_drop] at hlen
        rw [hcons, List.take_append_of_le_length (by omega), List.take_of_length_le (by omega)]
      rw [htake]
      refine ⟨fun _ => List.cons_ne_nil _ _, fun _ => hbalanced, fun _ v hv => ?_⟩
      obtain rfl : u = v := by simpa [hu] using hv
      exact hcloses.ends

/-- **Groups**: they end with a bracket, so nothing that comes behind can make them longer. -/
theorem sim_group : C.Sim .group (fun _ _ => True) Parser.group Parser.group := by
  intro ts us ht
  rw [group_eq]
  exact (passes_groupEnd ht).at fun n hn h => spans_groupEnd hn h

/-- A chunk is a group or a single token that is no bracket. -/
theorem sim_chunk : C.Sim .plain (fun _ _ => True) Parser.chunk Parser.chunk := by
  intro ts us ht
  cases ts with
  | nil =>
    refine ⟨fun hp => (nomatch hp), fun hp hs => ?_⟩
    obtain rfl : us = [] := List.length_eq_zero_iff.mp (C.whole ht hs).symm
    cases hp
    exact ⟨0, Nat.zero_le _, rfl, rfl⟩
  | cons t ts =>
    obtain ⟨u, us, rfl, hcontent, -⟩ := tokens_cons ht
    have hopen := Bracket.opened?_of_content hcontent
    have hclosed := Bracket.closed?_of_content hcontent
    cases ho : Bracket.opened? t with
    | some b =>
      have hgroup :
          C.At .plain (fun _ _ => True) Parser.group Parser.group (t :: ts) (u :: us) :=
        (sim_group _ _ ht).weaken fun _ => by decide
      have ht' : Parser.chunk (t :: ts) = Parser.group (t :: ts) := by simp [Parser.chunk, ho]
      have hu' : Parser.chunk (u :: us) = Parser.group (u :: us) := by
        simp [Parser.chunk, ← hopen, ho]
      exact ⟨fun hp => by rw [hu']; exact hgroup.ok (ht' ▸ hp),
        fun hp hs => by rw [hu']; exact hgroup.error (ht' ▸ hp) hs⟩
    | none =>
      cases hc : Bracket.closed? t with
      | some b =>
        refine ⟨fun hp => ?_, fun hp hs => ⟨0, Nat.zero_le _, ?_⟩⟩
        · simp [Parser.chunk, ho, hc] at hp
        · simp only [Parser.chunk, ho, hc] at hp
          cases hp
          exact ⟨rfl, by simp [Parser.chunk, ← hopen, ← hclosed, ho, hc]⟩
      | none =>
        refine ⟨fun hp => ?_, fun hp hs => ?_⟩
        · simp only [Parser.chunk, ho, hc] at hp
          cases hp
          refine ⟨1, (), by simp, rfl,
            ⟨fun _ => by simp, fun _ => balanced_single ?_, fun h => nomatch h⟩, trivial,
            fun _ => ⟨us, by simp [Parser.chunk, ← hopen, ← hclosed, ho, hc], .inl rfl⟩⟩
          simp [Token.sign?, ho, hc]
        · simp [Parser.chunk, ho, hc] at hp

theorem spans_firm (t : Token) : Contract.firm.Spans [t] :=
  ⟨fun _ => List.cons_ne_nil _ _, nofun, nofun⟩

/-- A token that passes a test is passed over. -/
theorem at_pass {α : Type} {V : α → α → Prop} {c d e : Contract} {ws : Option (List String)}
    {f : List Token → Bool} {k k' : Unit → Parser α} (ht : C.tokens ts us) (hf : Test ws f)
    (h : f ts = true) (hspans : ∀ t rest, f (t :: rest) = true → c.Spans [t])
    (hk : C.Sim d V (k ()) (k' ())) (hfit : Contract.Fits c d e) :
    C.At e V (Parser.advance >>= k) (Parser.advance >>= k') ts us := by
  obtain ⟨t, rest, rfl⟩ := hf.exists_cons h
  exact (at_advance ht (hspans t rest h)).bind ht (fun _ _ _ => hk) fun _ => hfit

/-- A rule that reads nothing. -/
theorem sim_pure {α : Type} {V : α → α → Prop} {a b : α} (h : V a b) :
    C.Sim .still V (pure a) (pure b) :=
  fun _ _ _ => at_pure h

/-- A part that is read if a test holds, and what comes behind it. -/
theorem sim_optional {α : Type} {V : α → α → Prop} {c d e : Contract}
    {ws : Option (List String)} {f : List Token → Bool} {p p' : Parser Unit}
    {U : Unit → Unit → Prop} {k k' : Unit → Parser α} (hf : Test ws f) (hp : C.Sim c U p p')
    (hk : C.Sim d V (k ()) (k' ())) (hfit : Contract.Fits c d e)
    (hsplit : Contract.Splits ws e d e) :
    C.Sim e V (Parser.ahead f >>= fun b => if b = true then p >>= k else k ())
      (Parser.ahead f >>= fun b => if b = true then p' >>= k' else k' ()) := by
  intro ts us ht
  refine AtBy.ite (c := fun _ => e) (d := fun _ => d) ht hf ?_ (fun _ => hk ts us ht)
    fun _ => hsplit
  exact fun _ => (hp ts us ht).bind ht (fun _ _ _ => hk) fun _ => hfit

/-- A part that is read behind a word if the word comes next, and what comes behind it. -/
theorem sim_acceptOptional {α : Type} {V : α → α → Prop} {c d e e' : Contract} {w : String}
    {p p' : Parser Unit} {U : Unit → Unit → Prop} {k k' : Unit → Parser α} (hw : w ≠ "")
    (hp : C.Sim c U p p') (hk : C.Sim d V (k ()) (k' ())) (hfit : Contract.Fits c d e)
    (hword : Contract.Fits (.word w) e e') (hsplit : Contract.Splits (some [w]) e' d e') :
    C.Sim e' V (Parser.accept w >>= fun b => if b = true then p >>= k else k ())
      (Parser.accept w >>= fun b => if b = true then p' >>= k' else k' ()) := by
  intro ts us ht
  refine AtBy.ifAccept (c := fun _ => e) (d := fun _ => d) ht hw ?_ ?_ (fun _ => hword)
    fun _ => hsplit
  · exact hp.bind (fun _ _ _ => hk) fun _ => hfit
  · exact fun _ => hk ts us ht

/-- Type arguments end with an angle bracket, which is no bracket: so they need not pair. -/
theorem sim_typeArguments :
    C.Sim .firm (fun _ _ => True) Parser.typeArguments Parser.typeArguments := by
  refine (sim_expect (by decide)).bind (d := fun _ => .before [])
    (fun _ _ _ ts us ht => ?_) fun _ => by decide
  exact (passes_closeAngles 1 ht).at fun n _ _ => ⟨nofun, nofun, nofun⟩

/-- Chunks up to the first place where a test holds. -/
theorem sim_skipTo {stop : List Token → Bool} (hstop : Test none stop) :
    C.Sim .chunks (fun _ _ => True) (Parser.skipTo stop) (Parser.skipTo stop) := by
  refine SimBy.repeatWhile (d := fun b => if b then .plain else .chunks) (fun ts us ht => ?_)
    (by decide) (by decide)
  refine AtBy.ite (c := fun b => if b then .plain else .chunks) (d := fun _ => .plain) ht hstop
    ?_ ?_ (by decide)
  · exact fun _ => at_pure_by rfl (by decide)
  · exact fun _ => (sim_chunk ts us ht).map ht (fun _ _ _ => rfl) fun _ => .refl _

/-- Chunks are passed over up to a place where the test holds. -/
theorem skipTo_stops {stop : List Token → Bool} {rest : List Token}
    (h : Parser.skipTo stop ts = .ok ((), rest)) : stop rest = true := by
  obtain ⟨mid, hlast⟩ := Parser.repeatWhile_last h
  obtain ⟨b, _, hb, hlast⟩ := Parser.bind_eq_ok.mp hlast
  cases hb
  split at hlast
  · cases hlast
    assumption
  · -- A round that passes over a chunk asks for another one.
    obtain ⟨_, _, _, hpure⟩ := Parser.bind_eq_ok.mp hlast
    cases hpure

/-- At least one chunk, up to the first place where a test holds. -/
theorem at_skipTo {stop : List Token → Bool} (hstop : Test none stop) (ht : C.tokens ts us)
    (h : stop ts = false) :
    C.At .plain (fun _ _ => True) (Parser.skipTo stop) (Parser.skipTo stop) ts us := by
  refine (sim_skipTo hstop ts us ht).progress fun _ rest hrun hrest => ?_
  rw [← hrest, skipTo_stops hrun] at h
  cases h

/-! ## Types -/

theorem test_isWord : Test none (Ahead.isWord 0) := test_of_tame tame_isWord rfl

/-- A further part of a name, or none. -/
theorem sim_typePart : C.SimBy (fun b => if b then .firm else .open_) Eq
    Parser.typePart Parser.typePart := by
  intro ts us ht
  refine AtBy.ite (c := fun _ => .firm) (d := fun b => if b then .firm else .open_) ht
    (test_readsAny (by decide)) ?_ ?_ (by decide)
  · intro h
    refine at_pass (d := .firm) ht (test_readsAny (by decide)) h (fun t _ _ => spans_firm t) ?_
      (by decide)
    intro ts us ht
    refine AtBy.ite (c := fun _ => .firm) (d := fun _ => .firm) ht test_isWord
      ?_ ?_ (by decide)
    · exact fun h => at_pass ht test_isWord h (fun t _ _ => spans_firm t)
        (sim_pure rfl) (by decide)
    · exact fun _ => at_fail_bind
  · intro _
    refine AtBy.ite (c := fun _ => .firm) (d := fun b => if b then .firm else .open_) ht
      (test_reads (by decide)) ?_ ?_ (by decide)
    · exact fun _ => (sim_typeArguments ts us ht).map ht (fun _ _ _ => rfl) fun _ => .refl _
    · exact fun _ => at_pure_by rfl (by decide)

theorem sim_typeSuffix : C.SimBy (fun b => if b then .firm else .open_) Eq
    Parser.typeSuffix Parser.typeSuffix := by
  intro ts us ht
  refine AtBy.ite (c := fun _ => .firm) (d := fun b => if b then .firm else .open_) ht
    (test_readsAny (by decide)) ?_ ?_ (by decide)
  · exact fun h => at_pass ht (test_readsAny (by decide)) h (fun t _ _ => spans_firm t)
      (sim_pure rfl) (by decide)
  · intro _
    refine AtBy.ite (c := fun _ => .firm) (d := fun b => if b then .firm else .open_) ht
      (test_of_tame (tame_reads_text (by decide) _) rfl) ?_ ?_ (by decide)
    · exact fun _ => (sim_group ts us ht).map ht (fun _ _ _ => rfl) fun _ => by decide
    · exact fun _ => at_pure_by rfl (by decide)

/-- **Types** may go on with what comes behind them, so they are open at their end. -/
theorem sim_typeReference :
    C.Sim .keen (fun _ _ => True) Parser.typeReference Parser.typeReference := by
  have hsuffixes : C.Sim .open_ (fun _ _ => True) (Parser.repeatWhile Parser.typeSuffix)
      (Parser.repeatWhile Parser.typeSuffix) :=
    sim_typeSuffix.repeatWhile (by decide) (by decide)
  have hparts : C.Sim .open_ (fun _ _ => True) (Parser.repeatWhile Parser.typePart)
      (Parser.repeatWhile Parser.typePart) :=
    sim_typePart.repeatWhile (by decide) (by decide)
  intro ts us ht
  refine AtBy.ite (c := fun _ => .keen) (d := fun _ => .keen) ht (test_reads (by decide)) ?_ ?_
    fun _ => by decide
  · exact fun _ => (sim_group ts us ht).bind ht (fun _ _ _ => hsuffixes) fun _ => by decide
  · intro _
    refine AtBy.ite (c := fun _ => .keen) (d := fun _ => .keen) ht test_isWord ?_ ?_
      fun _ => by decide
    · exact fun h => at_pass (d := .open_) ht test_isWord h (fun t _ _ => spans_firm t)
        (hparts.bind (fun _ _ _ => hsuffixes) fun _ => by decide) (by decide)
    · exact fun _ => at_fail_bind

/-! ## Expressions and declarations -/

theorem test_isOperator (ws : List String) : Test none (Ahead.isOperator ws) :=
  test_of_tame (tame_isOperator ws) rfl

/-- An expression ends before a stop sign.  The sign must be there in both runs. -/
theorem sim_expression (stops : List String) :
    C.Sim .plain (fun _ _ => True) (Parser.expression stops) (Parser.expression stops) := by
  intro ts us ht
  cases ts with
  | nil => exact at_nil ht rfl rfl
  | cons t ts =>
    exact AtBy.ite_cons ht (List.cons_ne_nil _ _) (tame_isOperator stops) (fun _ => at_fail)
      fun h => at_skipTo (test_isOperator stops) ht h

/-- The value of a variable ends before a `;` or a comma. -/
theorem sim_initializer :
    C.Sim .plain (fun _ _ => True) Parser.initializer Parser.initializer := by
  intro ts us ht
  cases ts with
  | nil => exact at_nil ht rfl rfl
  | cons t ts =>
    exact AtBy.ite_cons ht (List.cons_ne_nil _ _) Parser.tame_endsInitializer
      (fun _ => at_fail) fun h => at_skipTo (test_of_tame Parser.tame_endsInitializer rfl) ht h

/-- The rest of a head, which ends at one of the signs that it is read up to. -/
theorem sim_restOfHead {stops : List String} (hstops : "" ∉ stops) :
    C.Sim (.before []) (fun _ _ => True) (Parser.restOfHead stops)
      (Parser.restOfHead stops) := by
  refine SimBy.repeatWhile (d := fun b => if b then .firm else .before [])
    (fun ts us ht => ?_) (by decide) (by decide)
  refine AtBy.ite (c := fun b => if b then .firm else .before [])
    (d := fun _ => .firm) ht (test_readsAny hstops) ?_ ?_ ?_
  · exact fun _ => at_pure_by rfl (by decide)
  · intro _
    refine AtBy.unless_end ht fun hts => ?_
    refine AtBy.ite_cons ht hts (tame_reads _) ?_ ?_
    · exact fun _ => (sim_group ts us ht).map ht (fun _ _ _ => rfl) fun _ => by decide
    · intro _
      obtain ⟨t, rest, rfl⟩ := List.exists_cons_of_ne_nil hts
      exact (at_advance ht (spans_firm t)).map ht (fun _ _ _ => rfl) fun _ => .refl _
  · intro b
    refine ⟨.inl rfl, .refl _, ?_⟩
    cases b <;> decide

/-- Constraints begin with `where`, so none begin where the next word is another one. -/
theorem sim_constraints :
    C.Sim (.before ["where"]) (fun _ _ => True) Parser.constraints Parser.constraints := by
  intro ts us ht
  refine AtBy.ite (c := fun _ => .before []) (d := fun _ => .before ["where"]) ht
    (test_reads (by decide)) ?_ ?_ fun _ => by decide
  · exact fun _ => sim_restOfHead (by decide) ts us ht
  · exact fun _ => at_pure_by trivial (by decide)

/-- A `;` is passed over if one comes next.  Where the first list ends, that may happen in the
second run only. -/
theorem sim_semicolon :
    C.Sim .semicolon (fun _ _ => True) (Parser.accept ";") (Parser.accept ";") := by
  intro ts us ht
  cases ts with
  | nil =>
    refine ⟨fun hp => ?_, nofun⟩
    cases hp
    refine ⟨0, Ahead.reads ";" us, le_refl _, rfl, Contract.spans_nil rfl,
      trivial, fun _ => ?_⟩
    cases hread : Ahead.reads ";" us with
    | false => exact ⟨us, by rw [accept_eq, hread]; rfl, .inl rfl⟩
    | true =>
      obtain ⟨u, us, rfl, hu⟩ := exists_reads (by decide) hread
      exact ⟨us, by rw [accept_eq, hread]; rfl, .inr ⟨rfl, rfl, u, rfl, hu⟩⟩
  | cons t ts =>
    refine AtBy.ite_cons ht (List.cons_ne_nil _ _) (tame_reads _) (fun h => ?_) fun _ => ?_
    · refine (at_advance (c := .semicolon) ht ?_).map ht
        (fun _ _ _ => trivial) fun _ => .refl _
      exact (spans_word h).mono (by decide)
    · exact at_pure_by trivial (by decide)

/-- A sign that ends something is one of those that end a list of tokens. -/
theorem ends_of_isOperator {ws : List String} {t : Token} {rest : List Token}
    (hws : ∀ w ∈ ws, w ∈ closers) (h : Ahead.isOperator ws (t :: rest) = true) : t.Ends := by
  have hop : t.kind = .operator ∧ t.text ∈ ws := by simpa [Ahead.isOperator] using h
  exact Token.Closes.ends ⟨hop.1, hws _ hop.2⟩

/-- A token that ends a declaration is passed over. -/
theorem spans_closing {t : Token} (h : t.Ends) : Contract.closing.Spans [t] := by
  refine ⟨fun _ => List.cons_ne_nil _ _, nofun, fun _ u hu => ?_⟩
  obtain rfl : t = u := by simpa using hu
  exact h

/-- A member with no counterpart. -/
theorem sim_restOfMember :
    C.Sim .closing (fun _ _ => True) Parser.restOfMember Parser.restOfMember := by
  refine SimBy.loop (d := .firm) (e := .closing) (fun assigned ts us ht => ?_) (by decide)
    (by decide) false
  have hprogress : ∀ r : Bool ⊕ Unit, (perRound .firm .closing r).progress = true := by
    rintro (_ | _) <;> rfl
  refine AtBy.branch ht (test_isOperator [";"]) ?_ ?_ fun r => .inl (hprogress r)
  · intro h
    obtain ⟨t, rest, rfl⟩ := (test_isOperator _).exists_cons h
    exact (at_advance ht (spans_closing (ends_of_isOperator (by decide) h))).map ht
      (fun _ _ _ => .done trivial) fun _ => .refl _
  · intro _
    refine AtBy.branch ht (test_isOperator _) ?_ ?_ fun r => .inl (hprogress r)
    · intro _
      cases assigned with
      | true =>
        exact (sim_group ts us ht).map ht (fun _ _ _ => .again true)
          fun _ => (by decide : Contract.group.Le .firm)
      | false =>
        refine (sim_group ts us ht).bind_cases (d := fun _ _ => .semicolon) ht fun _ _ _ => ?_
        refine .inl ⟨sim_semicolon.map (fun _ _ _ => .done trivial) fun _ => .refl _, ?_⟩
        rintro x mid rest hx
        obtain ⟨_, _, -, hpure⟩ := Parser.bind_eq_ok.mp hx
        cases hpure
        exact (by decide : Contract.Fits .group .semicolon .closing)
    · intro _
      refine AtBy.ahead ht (tame_isOperator _) ?_ (.inr fun r => .inl (hprogress r))
      exact (sim_chunk ts us ht).map ht (fun _ _ _ => .again _)
        fun _ => (by decide : Contract.plain.Le .firm)

/-! ## Statements -/

theorem reads_of_isOperator {w : String} {t : Token} {rest : List Token}
    (h : Ahead.isOperator [w] (t :: rest) = true) : t.reads w = true := by
  have hop : t.kind = .operator ∧ t.text = w := by simpa [Ahead.isOperator] using h
  simp [Token.reads, hop.1, hop.2, Kind.isLiteral]

/-- One round of a simple statement: the last one ends with a `;` or a brace. -/
theorem sim_statementChunk (mayDeclare : Bool) (seen : Parser.Seen) :
    C.SimBy (perRound .plain .group) (Step fun _ _ => True)
      (Parser.statementChunk mayDeclare seen) (Parser.statementChunk mayDeclare seen) := by
  intro ts us ht
  have hprogress : ∀ r : Parser.Seen ⊕ Unit, (perRound .plain .group r).progress = true := by
    rintro (_ | _) <;> rfl
  refine AtBy.branch ht (test_isOperator [";"]) ?_ ?_ fun r => .inl (hprogress r)
  · intro h
    obtain ⟨t, rest, rfl⟩ := (test_isOperator _).exists_cons h
    exact (at_advance ht (spans_word (reads_of_isOperator h))).map ht
      (fun _ _ _ => .done trivial) fun _ => (by decide : (Contract.word ";").Le .group)
  · intro _
    refine AtBy.branch ht (test_isOperator _) ?_ ?_ fun r => .inl (hprogress r)
    · intro _
      refine (sim_group ts us ht).bind_cases (d := fun _ => perRound .still .still) ht
        fun _ _ _ => .inr ?_
      split
      · exact ⟨_, _, rfl, rfl, .done trivial, .refl _⟩
      · exact ⟨_, _, rfl, rfl, .again _, (by decide : Contract.group.Le .plain)⟩
    · intro _
      refine AtBy.ahead ht (tame_isOperator _) ?_ (.inr fun r => .inl (hprogress r))
      refine AtBy.ahead ht (Parser.tame_identifier_text (· == "where")) ?_
        (.inr fun r => .inl (hprogress r))
      refine AtBy.ahead ht (tame_isOperator _) ?_ (.inr fun r => .inl (hprogress r))
      exact (sim_chunk ts us ht).map ht (fun _ _ _ => .again _) fun _ => .refl _

/-- A statement without a word of its own ends where nothing behind it matters. -/
theorem sim_simpleStatement :
    C.Sim .group (fun _ _ => True) Parser.simpleStatement Parser.simpleStatement := by
  intro ts us ht
  refine AtBy.ahead ht Parser.tame_mayBeFunction ?_ (.inr fun _ => .inl rfl)
  exact SimBy.loop (sim_statementChunk _) (by decide) (by decide) _ ts us ht

/-- A clause that is there, or that the next word is not. -/
theorem sim_catchClause : C.SimBy (fun b => if b then .group else .absent "catch") Eq
    Parser.catchClause Parser.catchClause := by
  have hlast : C.Sim .group Eq (Parser.group >>= fun _ => pure true)
      (Parser.group >>= fun _ => pure true) :=
    sim_group.map (fun _ _ _ => rfl) fun _ => .refl _
  intro ts us ht
  refine AtBy.ifAccept (c := fun _ => .group)
    (d := fun b => if b then .group else .absent "catch") ht (by decide) ?_
    (fun _ => at_pure_by rfl (by decide)) (by decide) (by decide)
  refine sim_optional (d := .group) (test_reads (by decide)) sim_group ?_
    (by decide) (by decide)
  exact sim_acceptOptional (e := .group) (by decide) sim_group hlast (by decide)
    (by decide) (by decide)

/-- A token that is no bracket is passed over. -/
theorem spans_single {t : Token} (h : t.sign? = none) : Contract.plain.Spans [t] :=
  ⟨fun _ => List.cons_ne_nil _ _, fun _ => balanced_single h, nofun⟩

/-- A word that is no bracket, as a contract for plain tokens allows it. -/
theorem spans_plain (ws : List String) {t : Token}
    (hws : ∀ w ∈ ws, (Contract.word w).Le .plain) (h : ws.any t.reads = true) :
    Contract.plain.Spans [t] := by
  obtain ⟨w, hw, hread⟩ := List.any_eq_true.mp h
  exact (spans_word hread).mono (hws w hw)

theorem test_startsNested : Test none Parser.startsNested :=
  test_of_tame Parser.tame_startsNested rfl

theorem test_startsMarkedBlock : Test none Parser.startsMarkedBlock :=
  test_of_tame Parser.tame_startsMarkedBlock rfl

theorem test_startsSwitch :
    Test none fun ts => Ahead.reads "switch" ts && Ahead.text 1 ts == "(" :=
  test_of_tame (tame_reads_text (by decide) (· == "(")) rfl

/-- The statements with a word of their own, given those that stand in them.  An `if` may go on
with `else`, and a `try` with its clauses. -/
theorem sim_statementForm {r r' : Parser Unit} (hr : C.Sim .statement (fun _ _ => True) r r') :
    C.Sim .statement (fun _ _ => True) (Parser.statementForm r) (Parser.statementForm r') := by
  intro ts us ht
  refine At.ifAccept (c := .statement) (d := .statement) ht (by decide) ?_ ?_
    (by decide) (by decide)
  · -- if
    refine sim_group.bind (d := fun _ => .statement) (fun _ _ _ => ?_) fun _ => by decide
    refine hr.bind (d := fun _ => .remainder) (fun _ _ _ ts us ht => ?_) fun _ => by decide
    exact At.ifAccept (d := .remainder) ht (by decide) hr
      (fun _ => at_pure_by trivial (by decide)) (by decide) (by decide)
  intro _
  refine AtBy.branch ht test_startsNested ?_ ?_ fun _ => .inl rfl
  · intro h
    refine at_pass (c := .plain) (d := .statement) ht test_startsNested h ?_
      (sim_group.bind (fun _ _ _ => hr) fun _ => by decide) (by decide)
    intro t rest h
    refine spans_plain ["while", "for", "foreach", "lock", "fixed", "using"] (by decide) ?_
    simp only [Parser.startsNested, Ahead.readsAny, Ahead.reads_cons, List.any_cons,
      List.any_nil] at h ⊢
    grind
  intro _
  refine At.ifAccept (c := .group) (d := .statement) ht (by decide) ?_ ?_
    (by decide) (by decide)
  · -- do
    refine hr.bind (d := fun _ => .group) (fun _ _ _ => ?_) fun _ => by decide
    refine (sim_expect (by decide)).bind (d := fun _ => .group) (fun _ _ _ => ?_)
      fun _ => by decide
    exact sim_group.bind (fun _ _ _ => sim_expect (by decide)) fun _ => by decide
  intro _
  refine At.ifAccept (c := .statement) (d := .statement) ht (by decide) ?_ ?_
    (by decide) (by decide)
  · -- try
    refine sim_group.bind (d := fun _ => .remainder) (fun _ _ _ => ?_) fun _ => by decide
    refine (sim_catchClause.repeatWhile (c := .remainder) (by decide) (by decide)).bind
      (d := fun _ => .remainder) (fun _ _ _ ts us ht => ?_) fun _ => by decide
    exact At.ifAccept (d := .remainder) ht (by decide) sim_group
      (fun _ => at_pure_by trivial (by decide)) (by decide) (by decide)
  intro _
  refine AtBy.branch ht test_startsSwitch ?_ ?_ fun _ => .inl rfl
  · intro h
    refine at_pass (c := .plain) (d := .group) ht test_startsSwitch h ?_
      (sim_group.bind (fun _ _ _ => sim_group) fun _ => by decide) (by decide)
    intro t rest h
    refine spans_plain ["switch"] (by decide) ?_
    simpa [Ahead.reads_cons] using (Bool.and_eq_true_iff.mp h).1
  intro _
  refine AtBy.branch ht test_startsMarkedBlock ?_ ?_ fun _ => .inl rfl
  · intro h
    refine at_pass (c := .plain) (d := .group) ht test_startsMarkedBlock h ?_
      sim_group (by decide)
    exact fun t rest h => spans_plain _ (by decide) (Bool.and_eq_true_iff.mp h).1
  · exact fun _ => (sim_simpleStatement ts us ht).weaken fun _ => by decide

theorem test_startsLabel : Test none Parser.startsLabel :=
  test_of_tame Parser.tame_startsLabel rfl

theorem test_startsAwait : Test none fun ts =>
    Ahead.reads "await" ts && ["foreach", "using"].contains (Ahead.text 1 ts) :=
  test_of_tame (tame_reads_text (by decide) fun w => ["foreach", "using"].contains w) rfl

/-- One statement, given those that stand in it. -/
theorem sim_statementStep {r r' : Parser Unit} (hr : C.Sim .statement (fun _ _ => True) r r') :
    C.Sim .statement (fun _ _ => True) (Parser.statementStep r) (Parser.statementStep r') := by
  intro ts us ht
  refine AtBy.branch ht (test_reads (by decide)) ?_ ?_ fun _ => .inl rfl
  · exact fun _ => (sim_group ts us ht).weaken fun _ => by decide
  intro _
  refine AtBy.branch ht (test_reads (by decide)) ?_ ?_ fun _ => .inl rfl
  · intro h
    obtain ⟨t, rest, rfl, hread⟩ := exists_reads (by decide) h
    exact (at_advance ht (spans_word hread)).weaken fun _ => by decide
  intro _
  refine AtBy.branch ht test_startsLabel ?_ ?_ fun _ => .inl rfl
  · intro h
    -- A label is an identifier and a colon, neither of which is a bracket.
    match ts, h with
    | t :: u :: rest, h =>
      obtain ⟨hname, hcolon⟩ : t.kind.isIdentifier = true ∧ u.isOperator ":" = true := by
        simpa [Parser.startsLabel] using h
      obtain ⟨-, hu⟩ : u.kind = .operator ∧ u.text = ":" := by
        simpa [Token.isOperator] using hcolon
      have ht' : Contract.plain.Spans [t] :=
        spans_single (Token.sign?_of_isIdentifier hname)
      have hu' : Contract.plain.Spans [u] :=
        spans_single (Token.sign?_eq_none (by rw [hu]; decide))
      exact at_step (d := .statement) ht ht' (fun us ht =>
        at_step (d := .statement) ht hu' (fun us ht => hr _ _ ht) (by decide)) (by decide)
  intro _
  refine AtBy.branch ht test_startsAwait ?_ ?_ fun _ => .inl rfl
  · intro h
    refine at_pass (c := .plain) ht test_startsAwait h ?_ (sim_statementForm hr) (by decide)
    intro t rest h
    refine spans_plain ["await"] (by decide) ?_
    simpa [Ahead.reads_cons] using (Bool.and_eq_true_iff.mp h).1
  · exact fun _ => sim_statementForm hr ts us ht

/-- **Statements end alike in both runs.** -/
theorem sim_statement :
    C.Sim .statement (fun _ _ => True) Parser.statement Parser.statement :=
  SimBy.fix (fun _ _ hpq _ => sim_statementStep (hpq ())) ()

/-- The statements of a block. -/
theorem sim_block : C.Sim .closed (List.Forall₂ C.code) Parser.block Parser.block := by
  refine (sim_expect (by decide)).bind (d := fun _ => .closed) (fun _ _ _ => ?_)
    fun _ => by decide
  refine SimBy.bind (c := fun _ => .remainder) (d := fun _ => .closed)
    (V := List.Forall₂ C.code) ?_ (fun _ _ h => ?_) fun _ => by decide
  · refine SimBy.gather (d := .statement) (e := .still) (fun ts us ht => ?_) (by decide)
      (by decide) .nil fun h h' => List.rel_append h h'
    refine AtBy.ite (c := perItem .statement .still) (d := perItem .statement .group) ht
      (test_reads (by decide)) (fun _ => at_pure_by .none (.refl _)) (fun _ => ?_) ?_
    · refine AtBy.unless_end ht fun _ => ?_
      exact (sim_statement.verbatim_code ⟨⟨rfl, rfl⟩, rfl⟩ ts us ht).map ht
        (fun _ _ h => .some (.cons h .nil)) fun _ => .refl _
    · rintro (_ | _)
      · exact (by decide : Contract.Splits (some [Text.closeBrace]) .still .group .still)
      · exact ⟨.inl rfl, .refl _, .refl _⟩
  · exact (sim_expect (by decide)).map (fun _ _ _ => h) fun _ => by decide

end Comparison

end SharpScript
