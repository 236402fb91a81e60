import SharpScript.Proofs.Concatenation
import SharpScript.Proofs.Parser.Yields
import SharpScript.Proofs.Printing.Printer

/-! # Rules that read no further

The rules for types, expressions and statements read tokens that stand among others just
as they read them alone.

## Main Definitions

* `Parser.EndsType`, `Parser.EndsVariable`, `Parser.EndsStatement`: what may come behind.

## Main Results

* `Parser.repeatWhile_swap`: what is repeated over some tokens does not
  depend on what comes behind;
* `Parser.typeReference_append`, `Parser.expression_swap`, `Parser.variableRest_swap`,
  `Parser.statement_append`: **what is read alone is read among others, and no further**.

## Design Notes

How far a rule reads is decided by tests on the tokens ahead, and a test near the end of a text
looks at tokens behind it.  For each rule it is said what may come behind, and that the test
then answers as it does where the text stands alone.
-/

namespace SharpScript

open Lexer

/-! ## Passing over brackets -/

/-- What is passed over to close brackets is passed over whatever comes behind. -/
theorem Bracket.close_local {bs : List Bracket} {ts rest : List Token}
    (h : Bracket.close bs ts = .ok rest) :
    ∃ w, ts = w ++ rest ∧ ∀ r, Bracket.close bs (w ++ r) = .ok r := by
  fun_induction Bracket.close bs ts with
  | case1 ts =>
    cases h
    exact ⟨[], rfl, fun r => by rw [List.nil_append, Bracket.close]⟩
  | case2 => cases h
  | case3 b bs t ts inner hopen ih =>
    obtain ⟨w, rfl, hw⟩ := ih h
    refine ⟨t :: w, rfl, fun r => ?_⟩
    rw [List.cons_append, Bracket.close, hopen]
    exact hw r
  | case4 b bs t ts hopen hclose ih =>
    obtain ⟨w, rfl, hw⟩ := ih h
    refine ⟨t :: w, rfl, fun r => ?_⟩
    rw [List.cons_append, Bracket.close, hopen, hclose]
    exact hw r
  | case5 bs t ts hopen c hclose ih =>
    obtain ⟨w, rfl, hw⟩ := ih h
    refine ⟨t :: w, rfl, fun r => ?_⟩
    rw [List.cons_append, Bracket.close, hopen, hclose]
    simpa using hw r
  | case6 => cases h

theorem closeAngles_local {depth : Nat} {ts rest : List Token}
    (h : closeAngles depth ts = .ok rest) :
    ∃ w, ts = w ++ rest ∧ ∀ r, closeAngles depth (w ++ r) = .ok r := by
  fun_induction closeAngles depth ts with
  | case1 ts =>
    cases h
    exact ⟨[], rfl, fun r => by rw [List.nil_append, closeAngles]⟩
  | case2 => cases h
  | case3 depth t ts hopen ih =>
    obtain ⟨w, rfl, hw⟩ := ih h
    refine ⟨t :: w, rfl, fun r => ?_⟩
    rw [List.cons_append, closeAngles, if_pos hopen]
    exact hw r
  | case4 depth t ts hopen hclose ih =>
    obtain ⟨w, rfl, hw⟩ := ih h
    refine ⟨t :: w, rfl, fun r => ?_⟩
    rw [List.cons_append, closeAngles, if_neg hopen, if_pos hclose]
    exact hw r
  | case5 depth t ts hopen hclose ih =>
    obtain ⟨w, rfl, hw⟩ := ih h
    refine ⟨t :: w, rfl, fun r => ?_⟩
    rw [List.cons_append, closeAngles, if_neg hopen, if_neg hclose]
    exact hw r

namespace Parser

variable {ts rest : List Token}

theorem group_local (h : group ts = .ok ((), rest)) :
    ∃ w, w ≠ [] ∧ ts = w ++ rest ∧ ∀ r, group (w ++ r) = .ok ((), r) := by
  cases ts with
  | nil => cases h
  | cons t ts =>
    rw [group] at h
    cases hopen : Bracket.opened? t with
    | none => rw [hopen] at h; cases h
    | some b =>
      rw [hopen] at h
      cases hclose : Bracket.close [b] ts with
      | error e => simp only [hclose] at h; cases h
      | ok mid =>
        simp only [hclose] at h
        cases h
        obtain ⟨w, rfl, hw⟩ := Bracket.close_local hclose
        refine ⟨t :: w, List.cons_ne_nil _ _, rfl, fun r => ?_⟩
        rw [List.cons_append, group, hopen]
        simp only [hw r]
        rfl

theorem chunk_local (h : chunk ts = .ok ((), rest)) :
    ∃ w, w ≠ [] ∧ ts = w ++ rest ∧ ∀ r, chunk (w ++ r) = .ok ((), r) := by
  cases ts with
  | nil => cases h
  | cons t ts =>
    rw [chunk] at h
    split at h
    · rename_i hopen
      obtain ⟨w, hw, heq, hlocal⟩ := group_local h
      obtain ⟨u, w, rfl⟩ := List.exists_cons_of_ne_nil hw
      obtain ⟨rfl, rfl⟩ := List.cons.inj heq
      refine ⟨t :: w, hw, rfl, fun r => ?_⟩
      rw [List.cons_append, chunk, if_pos hopen]
      exact hlocal r
    · rename_i hopen
      split at h
      · cases h
      · rename_i hclose
        cases h
        refine ⟨[t], List.cons_ne_nil _ _, rfl, fun r => ?_⟩
        rw [List.singleton_append, chunk, if_neg hopen, if_neg hclose]

theorem typeArguments_local (h : typeArguments ts = .ok ((), rest)) :
    ∃ w, w ≠ [] ∧ ts = w ++ rest ∧ ∀ r, typeArguments (w ++ r) = .ok ((), r) := by
  obtain ⟨hopen, hclose⟩ := expect_bind_eq_ok.mp h
  cases ts with
  | nil => cases hopen
  | cons t ts =>
    rw [List.tail_cons] at hclose
    cases hangles : closeAngles 1 ts with
    | error e => rw [hangles] at hclose; cases hclose
    | ok mid =>
      rw [hangles] at hclose
      cases hclose
      obtain ⟨w, rfl, hw⟩ := closeAngles_local hangles
      refine ⟨t :: w, List.cons_ne_nil _ _, rfl, fun r => expect_bind_eq_ok.mpr ⟨hopen, ?_⟩⟩
      rw [List.cons_append, List.tail_cons, hw r]
      rfl

/-! ## Repetition in another place -/

/-- A rule is repeated over some tokens before `c`, and just so before `r`. -/
theorem repeatWhile_swap {step : Parser Bool} {c r : List Token}
    (hstep : ∀ ts mid, step ts = .ok (true, mid) → mid.length < ts.length)
    (hread : ∀ ts rest, repeatWhile step ts = .ok ((), rest) → rest <:+ ts)
    (htrue : ∀ v v', step (v ++ c) = .ok (true, v' ++ c) → step (v ++ r) = .ok (true, v' ++ r))
    {u v : List Token}
    (hfalse : ∀ v, step (v ++ c) = .ok (false, u ++ c) → step (v ++ r) = .ok (false, u ++ r))
    (h : repeatWhile step (v ++ c) = .ok ((), u ++ c)) :
    repeatWhile step (v ++ r) = .ok ((), u ++ r) := by
  induction hn : v.length using Nat.strongRecOn generalizing v with
  | _ n ih =>
    rcases (repeatWhile_eq_ok hstep).mp h with hlast | ⟨mid, hfirst, hrest⟩
    · exact (repeatWhile_eq_ok hstep).mpr (.inl (hfalse v hlast))
    · -- What is left behind the first round still ends with `c`.
      obtain ⟨x, hx⟩ := hread _ _ hrest
      obtain rfl : mid = (x ++ u) ++ c := by rw [← hx, List.append_assoc]
      have hlt : (x ++ u).length < v.length := by
        have := hstep _ _ hfirst
        simp only [List.length_append] at this ⊢
        omega
      refine (repeatWhile_eq_ok hstep).mpr (.inr ⟨(x ++ u) ++ r, htrue _ _ hfirst, ?_⟩)
      exact ih _ (hn ▸ hlt) hrest rfl

/-! ## Types -/

/-- What may come behind a type: nothing that goes on with it. -/
def EndsType (rest : List Token) : Prop :=
  ∀ w ∈ [".", "::", "<", "?", "*", "["], Ahead.reads w rest = false

theorem readsAny_append {ws : List String} (hts : ts ≠ []) (r : List Token) :
    Ahead.readsAny ws (ts ++ r) = Ahead.readsAny ws ts := by
  obtain ⟨t, ts, rfl⟩ := List.exists_cons_of_ne_nil hts
  rfl

theorem reads_append {w : String} (hts : ts ≠ []) (r : List Token) :
    Ahead.reads w (ts ++ r) = Ahead.reads w ts := by
  obtain ⟨t, ts, rfl⟩ := List.exists_cons_of_ne_nil hts
  rfl

theorem EndsType.readsAny {r : List Token} (h : EndsType r) {ws : List String}
    (hws : ∀ w ∈ ws, w ∈ [".", "::", "<", "?", "*", "["]) : Ahead.readsAny ws r = false :=
  List.any_eq_false.mpr fun w hw => by simp [h w (hws w hw)]

/-- A part of a name is read as it is read alone. -/
theorem typePart_append {b : Bool} {mid : List Token} (h : typePart ts = .ok (b, mid))
    {r : List Token} (hr : EndsType r) : typePart (ts ++ r) = .ok (b, mid ++ r) := by
  unfold typePart at h ⊢
  by_cases hts : ts = []
  · subst hts
    cases h
    rw [ahead_bind, List.nil_append, hr.readsAny (by simp), if_neg Bool.false_ne_true, isAt,
      ahead_bind, hr "<" (by simp), if_neg Bool.false_ne_true]
    rfl
  rw [ahead_bind, readsAny_append hts] at *
  split at h
  · rename_i hpoint
    rw [if_pos hpoint]
    obtain ⟨t, ts, rfl⟩ := List.exists_cons_of_ne_nil hts
    obtain ⟨_, mid', hadvance, h⟩ := bind_eq_ok.mp h
    cases hadvance
    refine bind_eq_ok.mpr ⟨(), ts ++ r, rfl, ?_⟩
    rw [List.tail_cons, ahead_bind] at h
    rw [ahead_bind]
    cases ts with
    | nil => cases h
    | cons u ts =>
      rw [show Ahead.isWord 0 (u :: ts ++ r) = Ahead.isWord 0 (u :: ts) from rfl]
      split at h
      · rename_i hword
        rw [if_pos hword]
        cases h
        rfl
      · cases h
  · rename_i hpoint
    rw [if_neg hpoint]
    rw [isAt, ahead_bind] at h ⊢
    rw [reads_append hts]
    split at h
    · rename_i hangle
      rw [if_pos hangle]
      obtain ⟨_, mid', hargs, hpure⟩ := bind_eq_ok.mp h
      cases hpure
      obtain ⟨w, -, rfl, hlocal⟩ := typeArguments_local hargs
      refine bind_eq_ok.mpr ⟨(), mid ++ r, ?_, rfl⟩
      rw [List.append_assoc]
      exact hlocal _
    · rename_i hangle
      rw [if_neg hangle]
      cases h
      rfl

/-- A suffix of a type is read as it is read alone. -/
theorem typeSuffix_append {mid : List Token} (h : typeSuffix ts = .ok (true, mid))
    (r : List Token) : typeSuffix (ts ++ r) = .ok (true, mid ++ r) := by
  unfold typeSuffix at h ⊢
  cases ts with
  | nil => cases h
  | cons t ts =>
    rw [ahead_bind] at h ⊢
    rw [readsAny_append (List.cons_ne_nil t ts)]
    split at h
    · rename_i hmark
      rw [if_pos hmark]
      cases h
      rfl
    · rename_i hmark
      rw [if_neg hmark]
      rw [ahead_bind] at h ⊢
      split at h
      · rename_i hbracket
        -- The sign behind the bracket is one of the type.
        cases ts with
        | nil => simp [Ahead.text] at hbracket
        | cons u ts =>
          rw [if_pos (show (Ahead.reads "[" (t :: u :: ts ++ r) &&
            ["]", ","].contains (Ahead.text 1 (t :: u :: ts ++ r))) = true from hbracket)]
          obtain ⟨_, mid', hgroup, hpure⟩ := bind_eq_ok.mp h
          cases hpure
          obtain ⟨w, -, heq, hlocal⟩ := group_local hgroup
          refine bind_eq_ok.mpr ⟨(), mid ++ r, ?_, rfl⟩
          rw [heq, List.append_assoc]
          exact hlocal _
      · cases h

theorem typeSuffix_eq_false {mid : List Token} (h : typeSuffix ts = .ok (false, mid)) :
    mid = ts := by
  unfold typeSuffix at h
  rw [ahead_bind] at h
  split at h
  · cases h
  rw [ahead_bind] at h
  split at h
  · obtain ⟨_, _, _, hpure⟩ := bind_eq_ok.mp h
    cases hpure
  · cases h
    rfl

theorem typeSuffix_of_ends {r : List Token} (hr : EndsType r) :
    typeSuffix r = .ok (false, r) := by
  unfold typeSuffix
  rw [ahead_bind, hr.readsAny (by simp), if_neg Bool.false_ne_true, ahead_bind,
    hr "[" (by simp), Bool.false_and, if_neg Bool.false_ne_true]
  rfl

theorem suffix_of_reads {α : Type} {c : α → Contract} {V : α → α → Prop} {p : Parser α}
    (hp : Comparison.shifted.SimBy c V p p) {a : α} (h : p ts = .ok (a, rest)) :
    rest <:+ ts := by
  obtain ⟨n, -, rfl, -⟩ := hp.reads h
  exact List.drop_suffix n ts

/-- **A type is read to its end, and no further.** -/
theorem typeReference_append {w r : List Token} (h : typeReference w = .ok ((), []))
    (hr : EndsType r) : typeReference (w ++ r) = .ok ((), r) := by
  have hparts : ∀ {v v' : List Token}, repeatWhile typePart v = .ok ((), v') →
      repeatWhile typePart (v ++ r) = .ok ((), v' ++ r) := by
    intro v v' hv
    have hswap := repeatWhile_swap (c := []) (r := r) (v := v) (u := v')
      (fun ts mid h => Comparison.sim_typePart.length_lt h rfl)
      (fun ts rest =>
        suffix_of_reads
        (Comparison.sim_typePart.repeatWhile (c := .open_) (by decide) (by decide)))
    simp only [List.append_nil] at hswap
    exact hswap (fun _ _ h => typePart_append h hr) (fun _ h => typePart_append h hr) hv
  have hsuffixes : ∀ {v : List Token}, repeatWhile typeSuffix v = .ok ((), []) →
      repeatWhile typeSuffix (v ++ r) = .ok ((), r) := by
    intro v hv
    have hswap := repeatWhile_swap (c := []) (r := r) (v := v) (u := [])
      (fun ts mid h => Comparison.sim_typeSuffix.length_lt h rfl)
      (fun ts rest =>
        suffix_of_reads
        (Comparison.sim_typeSuffix.repeatWhile (c := .open_) (by decide) (by decide)))
    simp only [List.append_nil, List.nil_append] at hswap
    refine hswap (fun _ _ h => typeSuffix_append h r) (fun v h => ?_) hv
    obtain rfl := typeSuffix_eq_false h
    exact typeSuffix_of_ends hr
  cases w with
  | nil => cases h
  | cons t w =>
    unfold typeReference at h ⊢
    rw [isAt, ahead_bind] at h ⊢
    rw [reads_append (List.cons_ne_nil t w)]
    split at h
    · rename_i hopen
      rw [if_pos hopen]
      obtain ⟨_, mid, hgroup, hrest⟩ := bind_eq_ok.mp h
      obtain ⟨v, -, heq, hlocal⟩ := group_local hgroup
      refine bind_eq_ok.mpr ⟨(), mid ++ r, ?_, hsuffixes hrest⟩
      rw [heq, List.append_assoc]
      exact hlocal _
    · rename_i hopen
      rw [if_neg hopen]
      rw [ahead_bind] at h ⊢
      rw [show Ahead.isWord 0 (t :: w ++ r) = Ahead.isWord 0 (t :: w) from rfl]
      split at h
      · rename_i hword
        rw [if_pos hword]
        obtain ⟨_, mid, hadvance, h⟩ := bind_eq_ok.mp h
        cases hadvance
        obtain ⟨_, mid, hmid, hrest⟩ := bind_eq_ok.mp h
        exact bind_eq_ok.mpr ⟨(), w ++ r, rfl,
          bind_eq_ok.mpr ⟨(), mid ++ r, hparts hmid, hsuffixes hrest⟩⟩
      · cases h

/-! ## Expressions -/

theorem skipTo_round {stop : List Token → Bool} {b : Bool} {mid : List Token} :
    (ahead stop >>= fun b => if b = true then pure false else chunk >>= fun _ => pure true)
      ts = .ok (b, mid) ↔ (stop ts = true ∧ b = false ∧ mid = ts) ∨
        (stop ts = false ∧ b = true ∧ chunk ts = .ok ((), mid)) := by
  rw [ahead_bind]
  cases hstop : stop ts with
  | true =>
    rw [if_pos rfl]
    constructor
    · intro h
      cases h
      exact .inl ⟨rfl, rfl, rfl⟩
    · rintro (⟨-, rfl, rfl⟩ | ⟨h, -⟩)
      · rfl
      · cases h
  | false =>
    rw [if_neg Bool.false_ne_true, bind_eq_ok]
    constructor
    · rintro ⟨_, mid', hchunk, hpure⟩
      cases hpure
      exact .inr ⟨rfl, rfl, hchunk⟩
    · rintro (⟨h, -⟩ | ⟨-, rfl, hchunk⟩)
      · cases h
      · exact ⟨(), mid, hchunk, rfl⟩

/-- What is passed over up to the sign `c` is passed over up to `r`, if the test answers before
`r` as it does before `c`. -/
theorem skipTo_swap {stop : List Token → Bool} {c r w : List Token}
    (hstop : Comparison.Test none stop) (hsame : ∀ v, v ≠ [] → stop (v ++ r) = stop (v ++ c))
    (hr : stop r = true) (h : skipTo stop (w ++ c) = .ok ((), c)) :
    skipTo stop (w ++ r) = .ok ((), r) := by
  have hchunk : ∀ {ts mid : List Token}, chunk ts = .ok ((), mid) →
      mid.length < ts.length := by
    intro ts mid h
    obtain ⟨w, hw, rfl, -⟩ := chunk_local h
    have := List.length_pos_of_ne_nil hw
    rw [List.length_append]
    omega
  refine repeatWhile_swap (u := []) (fun ts mid h => ?_)
    (fun ts rest => suffix_of_reads (Comparison.sim_skipTo hstop)) (fun v v' h => ?_)
    (fun v h => ?_) h
  · rcases skipTo_round.mp h with ⟨-, h, -⟩ | ⟨-, -, h⟩
    · cases h
    · exact hchunk h
  · rcases skipTo_round.mp h with ⟨-, h, -⟩ | ⟨hno, -, h⟩
    · cases h
    have hv : v ≠ [] := by
      rintro rfl
      have := hchunk h
      rw [List.length_append, List.nil_append] at this
      omega
    obtain ⟨u, -, heq, hlocal⟩ := chunk_local h
    obtain rfl : v = u ++ v' := by
      rw [← List.append_assoc] at heq
      exact List.append_cancel_right heq
    refine skipTo_round.mpr (.inr ⟨(hsame _ hv).trans hno, rfl, ?_⟩)
    rw [List.append_assoc]
    exact hlocal _
  · rcases skipTo_round.mp h with ⟨-, -, heq⟩ | ⟨-, h, -⟩
    · obtain rfl : v = [] := List.append_cancel_right heq.symm
      exact skipTo_round.mpr (.inl ⟨hr, rfl, rfl⟩)
    · cases h

/-- What must not be empty is passed over up to `r` as it is up to the sign `c`. -/
theorem skipSome_swap {stop : List Token → Bool} {c r w : List Token} {problem : Problem}
    (hstop : Comparison.Test none stop) (hsame : ∀ v, v ≠ [] → stop (v ++ r) = stop (v ++ c))
    (hr : stop r = true) (hc : stop c = true)
    (h : (ahead stop >>= fun b => if b = true then fail problem else skipTo stop) (w ++ c) =
      .ok ((), c)) :
    w ≠ [] ∧ (ahead stop >>= fun b => if b = true then fail problem else skipTo stop)
      (w ++ r) = .ok ((), r) := by
  have hw : w ≠ [] := by
    rintro rfl
    rw [ahead_bind, List.nil_append, hc] at h
    cases h
  refine ⟨hw, ?_⟩
  rw [ahead_bind] at h ⊢
  rw [hsame w hw]
  split at h
  · cases h
  · rename_i hno
    rw [if_neg hno]
    exact skipTo_swap hstop hsame hr h

/-- An expression is read up to its stop sign, whichever that is. -/
theorem expression_swap {stops : List String} {c : Token} {r w : List Token}
    (hc : Ahead.isOperator stops [c] = true) (h : expression stops (w ++ [c]) = .ok ((), [c]))
    (hr : Ahead.isOperator stops r = true) :
    w ≠ [] ∧ expression stops (w ++ r) = .ok ((), r) := by
  refine skipSome_swap (Comparison.test_of_tame (tame_isOperator stops) rfl)
    (fun v hv => ?_) hr hc h
  obtain ⟨t, v, rfl⟩ := List.exists_cons_of_ne_nil hv
  rfl

/-- What may come behind a variable of a field: a `;`, or a comma and another variable. -/
def EndsVariable (r : List Token) : Prop :=
  endsInitializer r = true ∧ ∃ t us, r = t :: us ∧ t.kind = .operator ∧ t.text ∈ [",", ";"]

/-- The test on an initial value answers the same before any two ends of a variable. -/
theorem EndsVariable.endsInitializer_append {r w : List Token} (hr : EndsVariable r)
    (hw : w ≠ []) :
    endsInitializer (w ++ r) = endsInitializer (w ++ [signToken ";"]) := by
  obtain ⟨-, t, us, rfl, hkind, htext⟩ := hr
  obtain ⟨x, v, rfl⟩ := List.exists_cons_of_ne_nil hw
  -- The test looks at the next token and at two behind it.
  have hnext : startsVariable (v ++ t :: us) = startsVariable (v ++ [signToken ";"]) := by
    match v with
    | [] =>
      have hno : Ahead.isIdentifier 0 (t :: us) = false := by
        show t.kind.isIdentifier = false
        rw [hkind]
        rfl
      rw [List.nil_append, startsVariable, hno]
      rfl
    | [y] =>
      have hword : ["=", ",", ";", "["].contains t.text = true := by
        rcases List.mem_pair.mp htext with h | h <;> rw [h] <;> rfl
      simp only [startsVariable, Ahead.text, List.cons_append, List.nil_append,
        List.getElem?_cons_succ, List.getElem?_cons_zero, Option.map_some,
        Option.getD_some, hword]
      rfl
    | y :: z :: v => rfl
  show (Ahead.isOperator [";"] (x :: (v ++ t :: us)) ||
    (Ahead.isOperator [","] (x :: (v ++ t :: us)) && startsVariable (v ++ t :: us))) = _
  rw [hnext]
  rfl

theorem initializer_swap {c r w : List Token} (hc : EndsVariable c)
    (h : initializer (w ++ c) = .ok ((), c)) (hr : EndsVariable r) :
    w ≠ [] ∧ initializer (w ++ r) = .ok ((), r) := by
  refine skipSome_swap (Comparison.test_of_tame tame_endsInitializer rfl)
    (fun v hv => ?_) hr.1 hc.1 h
  rw [hr.endsInitializer_append hv, hc.endsInitializer_append hv]

theorem EndsVariable.reads_eq_false {r : List Token} (hr : EndsVariable r) {w : String}
    (hw : w ∉ [",", ";"]) : Ahead.reads w r = false := by
  obtain ⟨-, t, us, rfl, -, htext⟩ := hr
  have hne : t.text ≠ w := fun h => hw (h ▸ htext)
  simp [Ahead.reads, Token.reads, hne]

/-- What is read of a variable before one end of it is read before any other. -/
theorem variableRest_swap {c r w : List Token} (hc : EndsVariable c)
    (h : variableRest (w ++ c) = .ok ((), c)) (hr : EndsVariable r) :
    variableRest (w ++ r) = .ok ((), r) := by
  have hvalue :
      ∀ {v : List Token}, (accept "=" >>= fun b => if b = true then initializer else pure ())
      (v ++ c) = .ok ((), c) →
      (accept "=" >>= fun b => if b = true then initializer else pure ()) (v ++ r) =
      .ok ((), r) := by
    intro v hv
    cases v with
    | nil =>
      rw [accept_bind, List.nil_append, hr.reads_eq_false (by decide)]
      rfl
    | cons t v =>
      rw [accept_bind] at hv ⊢
      rw [reads_append (List.cons_ne_nil t v)] at hv ⊢
      split at hv
      · rename_i hsign
        rw [if_pos hsign]
        exact (initializer_swap hc hv hr).2
      · have hlength := congrArg List.length (congrArg Prod.snd (Except.ok.inj hv))
        simp only [List.length_append, List.length_cons] at hlength
        omega
  cases w with
  | nil =>
    unfold variableRest
    rw [isAt, ahead_bind, List.nil_append, hr.reads_eq_false (by decide)]
    refine hvalue (v := []) ?_
    rw [accept_bind, List.nil_append, hc.reads_eq_false (by decide)]
    rfl
  | cons t w =>
    unfold variableRest at h ⊢
    rw [isAt, ahead_bind] at h ⊢
    rw [reads_append (List.cons_ne_nil t w)] at h ⊢
    split at h
    · rename_i hopen
      rw [if_pos hopen]
      obtain ⟨_, mid, hgroup, hrest⟩ := bind_eq_ok.mp h
      change (accept "=" >>= fun b => if b = true then initializer else pure ()) mid =
        _ at hrest
      obtain ⟨u, -, heq, hlocal⟩ := group_local hgroup
      obtain ⟨x, rfl⟩ : ∃ x, mid = x ++ c := by
        rw [accept_bind] at hrest
        split at hrest
        · rename_i hsign
          obtain ⟨x, hx⟩ := suffix_of_reads Comparison.sim_initializer hrest
          obtain ⟨y, mid, rfl, -⟩ := Comparison.exists_reads (by decide) hsign
          exact ⟨y :: x, by rw [List.cons_append, hx, List.tail_cons]⟩
        · cases hrest
          exact ⟨[], rfl⟩
      obtain hw : t :: w = u ++ x := by
        rw [← List.append_assoc] at heq
        exact List.append_cancel_right heq
      refine bind_eq_ok.mpr ⟨(), x ++ r, ?_, hvalue hrest⟩
      rw [hw, List.append_assoc]
      exact hlocal _
    · rename_i hopen
      rw [if_neg hopen]
      exact hvalue h

/-! ## Statements -/

/-- What may come behind a statement. -/
def EndsStatement (rest : List Token) : Prop :=
  ∀ w ∈ ["else", "catch", "finally"], Ahead.reads w rest = false

theorem statement_append {w r : List Token} (hshape : ∀ t ∈ w, WellShaped t)
    (h : statement w = .ok ((), [])) (hr : EndsStatement r) :
    statement (w ++ r) = .ok ((), r) := by
  have hclosed : Closed w :=
    closed_of_reads Comparison.sim_statement rfl hshape h fun t ht => nomatch ht
  obtain ⟨n, _, hn, hnil, -, -, hrun⟩ :=
    (Comparison.sim_statement (C := .extension r) w (w ++ r) ⟨rfl, hclosed⟩).ok h
  have hdrop : (w ++ r).drop n = r := by
    rw [List.drop_append_of_le_length hn, ← hnil, List.nil_append]
  rw [hdrop] at hrun
  obtain ⟨zs, hzs, hlands⟩ := hrun (.inr (.inr ⟨_, rfl, hr⟩))
  obtain rfl := hlands.eq_of_tight rfl
  exact hzs

end Parser

end SharpScript
