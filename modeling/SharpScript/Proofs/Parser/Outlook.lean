import SharpScript.Proofs.Parser.Progress
import SharpScript.Proofs.Printing.Locality

/-! # How far statements look ahead

Where a statement ends is decided by its own tokens and by the next token behind it, which may
be an `else`, a `catch` or a `finally`.  So the tokens of a statement can be moved to another
place, before any tokens of which the first one reads the same.

## Main Definitions

* `SameNext`: lists of tokens of which the first one reads the same;
* `Parser.Portable`: **what a rule reads can be moved** before other tokens of which the
  first one reads the same.

## Main Results

* `Parser.Portable.bind`, `Parser.Portable.peek`, `Parser.Portable.test`: one rule behind
  another, and tests on one token and on more;
* `Parser.portable_fix`, `Parser.portable_loop`: rules that call themselves, and repetition;
* `Parser.portable_statement`: **statements can be moved**.

## Design Notes

A test on several tokens may look at tokens behind a statement only where the statement ends
before the test does.  Statements end with a sign that closes, and such a sign decides all of
these tests.  So it is said of each rule what it has read, and a test is made before rules that
read up to a sign that closes.
-/

namespace SharpScript

open Lexer

/-! ## The next token -/

/-- Both lists begin with a token of the same kind and text, or both are empty. -/
def SameNext (ts us : List Token) : Prop := Alike (ts.take 1) (us.take 1)

/-- The same tokens before them do not matter. -/
theorem SameNext.append {ts us : List Token} (h : SameNext ts us) (w : List Token) :
    SameNext (w ++ ts) (w ++ us) := by
  cases w with
  | nil => exact h
  | cons t w => exact .refl [t]

theorem sameNext_cons {t u : Token} (h : t.content = u.content) (ts us : List Token) :
    SameNext (t :: ts) (u :: us) :=
  Alike.cons_iff.mpr ⟨h, .refl []⟩

/-- Lists of the same contents begin with the same content, whatever comes behind them. -/
theorem Alike.sameNext {ts us : List Token} (h : Alike ts us) (hts : ts ≠ [])
    (v w : List Token) :
    SameNext (ts ++ v) (us ++ w) := by
  obtain ⟨t, ts, rfl⟩ := List.exists_cons_of_ne_nil hts
  obtain ⟨u, us, rfl⟩ := List.exists_cons_of_ne_nil (h.ne_nil hts)
  exact sameNext_cons (Alike.cons_iff.mp h).1 (ts ++ v) (us ++ w)

theorem closed_nil : Closed [] := fun _ h => nomatch h

/-- There is a last token, and it closes. -/
structure Ended (w : List Token) : Prop where
  ne_nil : w ≠ []
  closed : Closed w

/-- A token that closes something is an end. -/
theorem ended_singleton {t : Token} (h : t.Closes) : Ended [t] where
  ne_nil := List.cons_ne_nil _ _
  closed u hu := by
    obtain rfl : t = u := Option.some.inj hu
    exact h

/-- What ends with such a token does so with more before it. -/
theorem Ended.behind {w : List Token} (h : Ended w) (v : List Token) : Ended (v ++ w) := by
  refine ⟨List.append_ne_nil_of_right_ne_nil v h.ne_nil, fun t ht => h.closed t ?_⟩
  rwa [List.getLast?_append_of_ne_nil v h.ne_nil] at ht

/-- Behind such an end there may be more that ends so, or nothing. -/
theorem Ended.append {v w : List Token} (h : Ended v) (hw : Closed w) : Ended (v ++ w) := by
  by_cases hnil : w = []
  · rwa [hnil, List.append_nil]
  · exact Ended.behind ⟨hnil, hw⟩ v

/-- A tame test before tokens up to one that closes does not look further. -/
theorem Tame.append {γ : Type} {f : List Token → γ} (hf : Tame f) {w : List Token}
    (h : Ended w) (r r' : List Token) : f (w ++ r) = f (w ++ r') := by
  have hself (r : List Token) : f w = f (w ++ r) :=
    hf.longer w (w ++ r) h.ne_nil h.closed (by rw [List.take_left]; exact .refl w)
  rw [← hself r, ← hself r']

namespace Parser

variable {α β γ σ ι : Type} {F : α → List Token → Prop} {G : β → List Token → Prop} {n : Nat}
  {p q : Parser α} {t : Token} {ts : List Token}

/-- What `p` reads at the front of `ts` is as `F` says, and `q` reads it before all tokens that
begin as those do that `p` leaves, if there are fewer than `n` tokens in all. -/
def Portable (F : α → List Token → Prop) (n : Nat) (p q : Parser α) (ts : List Token) : Prop :=
  (∀ t ∈ ts, WellShaped t) → ∀ a rest, p ts = .ok (a, rest) → ∃ w, ts = w ++ rest ∧ F a w ∧
    ∀ r, w.length + r.length < n → SameNext rest r → q (w ++ r) = .ok (a, r)

/-! ## Sequences and tests -/

theorem Portable.mono {F' : α → List Token → Prop} {m : Nat} (h : Portable F n p q ts)
    (hm : m ≤ n) (hF : ∀ a w, F a w → F' a w) : Portable F' m p q ts := by
  intro hshape a rest hp
  obtain ⟨w, hw, hFw, hq⟩ := h hshape a rest hp
  exact ⟨w, hw, hF a w hFw, fun r hn => hq r (by omega)⟩

/-- A rule that reads nothing. -/
theorem portable_pure {a : α} (h : F a []) : Portable F n (pure a) (pure a) ts := by
  intro _ b rest hp
  cases hp
  exact ⟨[], rfl, h, fun r _ _ => rfl⟩

/-- A rule that fails says nothing about other tokens. -/
theorem portable_fail {problem : Problem} : Portable F n (fail problem) q ts :=
  fun _ _ _ hp => nomatch hp

/-- The tokens come from a source text. -/
theorem portable_of_wellShaped (h : (∀ t ∈ ts, WellShaped t) → Portable F n p q ts) :
    Portable F n p q ts :=
  fun hshape => h hshape hshape

/-- Behind what the first rule reads, there are fewer tokens left. -/
theorem Portable.bind {f g : α → Parser β} (hp : Portable F n p q ts)
    (hf : ∀ a mid w, ts = w ++ mid → F a w →
      Portable (fun b v => G b (w ++ v)) (n - w.length) (f a) (g a) mid) :
    Portable G n (p >>= f) (q >>= g) ts := by
  intro hshape b rest hrun
  obtain ⟨a, mid, ha, hb⟩ := bind_eq_ok.mp hrun
  obtain ⟨w, rfl, hF, hq⟩ := hp hshape a mid ha
  obtain ⟨v, rfl, hG, hg⟩ :=
    hf a mid w rfl hF (fun t ht => hshape t (List.mem_append_right w ht)) b
    rest hb
  refine ⟨w ++ v, (List.append_assoc ..).symm, hG, fun r hn hr => ?_⟩
  rw [List.length_append] at hn
  rw [List.append_assoc]
  exact bind_eq_ok.mpr ⟨a, v ++ r,
    hq (v ++ r) (by rw [List.length_append]; omega) (hr.append v), hg r (by omega) hr⟩

/-- A rule behind another one, where it makes no difference what the first one reads. -/
theorem Portable.bind_behind {f g : α → Parser β} (hp : Portable F n p q ts)
    (hG : ∀ b v w, G b w → G b (v ++ w))
    (hf : ∀ a mid w, F a w → Portable G (n - w.length) (f a) (g a) mid) :
    Portable G n (p >>= f) (q >>= g) ts :=
  hp.bind fun a mid w _ hF => (hf a mid w hF).mono (Nat.le_refl _) fun b v => hG b w v

/-- A rule behind another one, which reads up to a sign that closes. -/
theorem Portable.bind_ended {f g : α → Parser β} (hp : Portable F n p q ts)
    (hf : ∀ a mid w, F a w → Portable (fun _ => Ended) (n - w.length) (f a) (g a) mid) :
    Portable (fun _ => Ended) n (p >>= f) (q >>= g) ts :=
  hp.bind_behind (fun _ v _ h => h.behind v) hf

/-- A rule that reads up to a sign that closes, and perhaps another one that does. -/
theorem Portable.bind_closed {f g : α → Parser β} (hp : Portable (fun _ => Ended) n p q ts)
    (hf : ∀ a mid w, Ended w → Portable (fun _ => Closed) (n - w.length) (f a) (g a) mid) :
    Portable (fun _ => Ended) n (p >>= f) (q >>= g) ts :=
  hp.bind fun a mid w _ hF => (hf a mid w hF).mono (Nat.le_refl _) fun _ _ h => hF.append h

/-- A test on the next token. -/
theorem Portable.peek {f : List Token → γ} {k l : γ → Parser α} (hf : Sees 1 f)
    (h : Portable F n (k (f ts)) (l (f ts)) ts) :
    Portable F n (ahead f >>= k) (ahead f >>= l) ts := by
  intro hshape a rest hrun
  obtain ⟨w, rfl, hF, hl⟩ := h hshape a rest hrun
  refine ⟨w, rfl, hF, fun r hn hr => ?_⟩
  rw [ahead_bind, ← hf (w ++ rest) (w ++ r) (hr.append w)]
  exact hl r hn hr

/-- A test before tokens up to one that closes. -/
theorem Portable.test {f : List Token → γ} {k l : γ → Parser α} (hf : Tame f)
    (hF : ∀ a w, F a w → Ended w) (h : Portable F n (k (f ts)) (l (f ts)) ts) :
    Portable F n (ahead f >>= k) (ahead f >>= l) ts := by
  intro hshape a rest hrun
  obtain ⟨w, rfl, hFw, hl⟩ := h hshape a rest hrun
  refine ⟨w, rfl, hFw, fun r hn hr => ?_⟩
  rw [ahead_bind, hf.append (hF a w hFw) r rest]
  exact hl r hn hr

/-- A choice that both runs make alike. -/
theorem portable_ite {b : Bool} {k k' l l' : Parser α} (hk : b = true → Portable F n k k' ts)
    (hl : b = false → Portable F n l l' ts) :
    Portable F n (if b = true then k else l) (if b = true then k' else l') ts := by
  cases b with
  | true => exact hk rfl
  | false => exact hl rfl

/-- A test on the next token before two rules. -/
theorem Portable.ite {f : List Token → Bool} {k k' l l' : Parser α} (hf : Sees 1 f)
    (hk : f ts = true → Portable F n k k' ts) (hl : f ts = false → Portable F n l l' ts) :
    Portable F n (ahead f >>= fun b => if b = true then k else l)
      (ahead f >>= fun b => if b = true then k' else l') ts :=
  .peek hf (portable_ite hk hl)

/-- A test before two rules that read up to a sign that closes. -/
theorem Portable.ite_ended {f : List Token → Bool} {k k' l l' : Parser α} (hf : Tame f)
    (hk : f ts = true → Portable (fun _ => Ended) n k k' ts)
    (hl : f ts = false → Portable (fun _ => Ended) n l l' ts) :
    Portable (fun _ => Ended) n (ahead f >>= fun b => if b = true then k else l)
      (ahead f >>= fun b => if b = true then k' else l') ts :=
  .test hf (fun _ _ h => h) (portable_ite hk hl)

/-! ## Single tokens -/

/-- The next token, whatever it is. -/
theorem portable_advance {F : Unit → List Token → Prop} (h : F () [t]) :
    Portable F n advance advance (t :: ts) := by
  intro _ a rest hrun
  cases hrun
  exact ⟨[t], rfl, h, fun r _ _ => rfl⟩

/-- A token is passed over, and then there is one less. -/
theorem Portable.pass {k l : Unit → Parser α}
    (h : Portable (fun a w => F a (t :: w)) (n - 1) (k ()) (l ()) ts) :
    Portable F n (advance >>= k) (advance >>= l) (t :: ts) := by
  refine (portable_advance (F := fun _ w => w = [t]) rfl).bind fun _ mid w hw hF => ?_
  subst hF
  obtain rfl : ts = mid := (List.cons.inj hw).2
  exact h

/-- A word that is read, or another rule in its place. -/
theorem Portable.ifAccept {w : String} {k k' l l' : Parser α} (hw : w ≠ "")
    (hk : ∀ t ts', ts = t :: ts' → t.reads w = true →
      Portable (fun a v => F a (t :: v)) (n - 1) k k' ts')
    (hl : Ahead.reads w ts = false → Portable F n l l' ts) :
    Portable F n (accept w >>= fun b => if b = true then k else l)
      (accept w >>= fun b => if b = true then k' else l') ts := by
  rw [Comparison.accept_bind, Comparison.accept_bind]
  refine .ite (sees_reads w) (fun h => ?_) hl
  obtain ⟨t, ts', rfl, hread⟩ := Comparison.exists_reads hw h
  exact .pass (hk t ts' rfl hread)

/-- A word that must come next. -/
theorem portable_expect {F : Unit → List Token → Prop} {w : String} (hw : w ≠ "")
    (h : ∀ t ∈ ts.head?, t.reads w = true → F () [t]) :
    Portable F n (expect w) (expect w) ts := by
  refine .ite (sees_reads w) (fun hread => ?_) fun _ => portable_fail
  obtain ⟨t, ts', rfl, ht⟩ := Comparison.exists_reads hw hread
  exact portable_advance (h t rfl ht)

/-- The words that close something end a list of tokens. -/
theorem ended_of_reads_closer {w : String} (hw : w ∈ closers) (ht : WellShaped t)
    (h : t.reads w = true) : Ended [t] :=
  ended_singleton (ht.closes ⟨w, hw, h⟩)

/-- A word that must come next and closes something. -/
theorem portable_expect_closer {w : String} (hw : w ∈ closers) :
    Portable (fun _ => Ended) n (expect w) (expect w) ts := by
  refine portable_of_wellShaped fun hshape => portable_expect ?_ fun t ht hread => ?_
  · rintro rfl
    exact absurd hw (by decide)
  · exact ended_of_reads_closer hw (hshape t (List.mem_of_head? ht)) hread

/-! ## Repetition -/

/-- A rule that calls itself has read a token by then, and needs one call less. -/
theorem portable_fix {step : (ι → Parser α) → ι → Parser α}
    (h : ∀ n p q, (∀ i ts, Portable F n (p i) (q i) ts) →
      ∀ i ts, Portable F (n + 1) (step p i) (step q i) ts)
    (i : ι) : Portable F n (fix step i) (fix step i) ts := by
  -- The two runs are unfolded as often as there are tokens, so each has
  -- its own number of calls.
  have hdescend : ∀ m k i ts, Portable F k (descend step m i) (descend step k i) ts := by
    intro m
    induction m with
    | zero => exact fun k i ts => portable_fail
    | succ m ih =>
      intro k i ts
      cases k with
      | zero =>
        intro hshape a rest hrun
        obtain ⟨w, hw, hF, -⟩ := h 0 _ _ (ih 0) i ts hshape a rest hrun
        exact ⟨w, hw, hF, fun r hn => absurd hn (Nat.not_lt_zero _)⟩
      | succ k => exact h k _ _ (ih k) i ts
  intro hshape a rest hrun
  obtain ⟨w, rfl, hF, -⟩ := hdescend _ 0 i ts hshape a rest hrun
  refine ⟨w, rfl, hF, fun r _ hr => ?_⟩
  obtain ⟨w', hw', -, hmoved⟩ :=
    hdescend _ ((w ++ r).length + 1) i (w ++ rest) hshape a rest hrun
  obtain rfl : w = w' := List.append_cancel_right hw'
  exact hmoved r (by rw [List.length_append]; omega) hr

/-- Rounds of which each but the last reads something as `H` says. -/
theorem portable_loop {step : σ → Parser (σ ⊕ β)} {H : List Token → Prop}
    (hstep : ∀ n s ts, Portable (Sum.elim (fun _ w => w ≠ [] ∧ H w) G) n (step s) (step s) ts)
    (hG : ∀ b v w, H v → G b w → G b (v ++ w)) (s : σ) :
    Portable G n (loop step s) (loop step s) ts := by
  refine portable_fix (fun n again again' ih s ts => ?_) s
  refine (hstep (n + 1) s ts).bind fun r mid w _ hr => ?_
  cases r with
  | inl s' =>
    have hlength := List.length_pos_of_ne_nil hr.1
    exact (ih s' mid).mono (by omega) fun b v hv => hG b w v hr.2 hv
  | inr b =>
    refine portable_pure ?_
    rw [List.append_nil]
    exact hr

/-- Rounds that are closed one by one are closed together. -/
theorem portable_repeatWhile {step : Parser Bool}
    (hstep : ∀ n ts,
      Portable (fun b w => if b = true then Ended w else w = []) n step step ts) :
    Portable (fun _ => Closed) n (repeatWhile step) (repeatWhile step) ts := by
  refine portable_loop (H := Ended) (fun n _ ts => (hstep n ts).bind fun b mid w _ hw => ?_)
    (fun _ v w hv hw => (hv.append hw).closed) ()
  refine portable_pure ?_
  rw [List.append_nil]
  cases b with
  | true => exact ⟨Ended.ne_nil hw, hw⟩
  | false =>
    obtain rfl : w = [] := hw
    exact closed_nil

/-! ## Brackets -/

/-- What a rule reads that ends with a sign that closes. -/
theorem ended_of_reads {c : Contract} {V : α → α → Prop} {a : α} {w rest : List Token}
    (hp : Comparison.shifted.Sim c V p p) (hprogress : c.progress = true)
    (hfinished : c.finished = true) (hshape : ∀ t ∈ w ++ rest, WellShaped t)
    (h : p (w ++ rest) = .ok (a, rest)) : Ended w := by
  obtain ⟨n, hn, hrest, hspans⟩ := hp.reads h
  have hlength : n = w.length := by
    have := congrArg List.length hrest
    rw [List.length_drop, List.length_append] at this
    rw [List.length_append] at hn
    omega
  rw [hlength, List.take_left] at hspans
  refine ⟨hspans.progress hprogress, fun t ht => ?_⟩
  exact (hshape t (List.mem_append_left rest (List.mem_of_getLast? ht))).closes
    (hspans.finished hfinished t ht)

/-- A group ends with its bracket. -/
theorem portable_group : Portable (fun _ => Ended) n group group ts := by
  intro hshape _ rest hrun
  obtain ⟨w, -, rfl, hlocal⟩ := group_local hrun
  exact ⟨w, rfl, ended_of_reads Comparison.sim_group rfl rfl hshape hrun,
    fun r _ _ => hlocal r⟩

/-- A token or a group. -/
theorem portable_chunk : Portable (fun _ w => w ≠ []) n chunk chunk ts := by
  intro _ _ rest hrun
  obtain ⟨w, hw, rfl, hlocal⟩ := chunk_local hrun
  exact ⟨w, rfl, hw, fun r _ _ => hlocal r⟩

/-! ## Statements -/

theorem closes_of_isOperator {w : String} (hw : w ∈ closers)
    (h : Ahead.isOperator [w] (t :: ts) = true) : t.Closes := by
  obtain ⟨hkind, htext⟩ : t.kind = .operator ∧ t.text = w := by
    simpa [Ahead.isOperator] using h
  exact ⟨hkind, htext ▸ hw⟩

theorem sees_identifier_text (g : String → Bool) :
    Sees 1 fun ts => Ahead.isIdentifier 0 ts && g (Ahead.text 0 ts) :=
  sees_of_content fun ts us h => by
    simp only [Ahead.isIdentifier_eq, Ahead.text_eq, h 0 Nat.one_pos]

/-- One round of a simple statement: the last one ends with a `;` or a brace. -/
theorem portable_statementChunk (mayDeclare : Bool) (seen : Seen) :
    Portable (Sum.elim (fun _ w => w ≠ [] ∧ True) fun _ => Ended) n
      (statementChunk mayDeclare seen) (statementChunk mayDeclare seen) ts := by
  refine .ite (sees_isOperator _) (fun h => ?_) fun _ => .ite (sees_isOperator _) (fun _ => ?_)
    fun _ => ?_
  · obtain ⟨t, ts, rfl⟩ := List.exists_cons_of_ne_nil (ne_nil_of_test rfl h)
    exact .pass (portable_pure (ended_singleton (closes_of_isOperator (by decide) h)))
  · refine portable_group.bind fun _ mid w _ hw => portable_ite (fun _ => ?_) fun _ => ?_
    · exact portable_pure (hw.append closed_nil)
    · exact portable_pure ⟨(hw.append closed_nil).ne_nil, trivial⟩
  · refine .peek (sees_isOperator _) (.peek (sees_identifier_text (· == "where"))
      (.peek (sees_isOperator _) ?_))
    refine portable_chunk.bind fun _ mid w _ hw => portable_pure ?_
    rw [List.append_nil]
    exact ⟨hw, trivial⟩

/-- A simple statement ends with the sign that closes it. -/
theorem portable_simpleStatement :
    Portable (fun _ => Ended) n simpleStatement simpleStatement ts :=
  .test tame_mayBeFunction (fun _ _ h => h)
    (portable_loop (fun _ seen _ => portable_statementChunk _ seen)
      (fun _ v _ _ h => h.behind v) _)

section Optional

variable {r : Parser Unit} {k : Unit → Parser β}

/-- A part that is read if a test holds, and what comes behind it. -/
theorem portable_optional {f : List Token → Bool} (hf : Sees 1 f)
    (hr : ∀ m us, Portable (fun _ => Ended) m r r us) (hG : ∀ b v w, G b w → G b (v ++ w))
    (hk : ∀ m us, Portable G m (k ()) (k ()) us) :
    Portable G n (ahead f >>= fun b => if b = true then r >>= k else k ())
      (ahead f >>= fun b => if b = true then r >>= k else k ()) ts :=
  .ite hf (fun _ => (hr n ts).bind_behind hG fun _ mid _ _ => hk _ mid) fun _ => hk n ts

/-- A part that is read behind a word if the word comes next, and what comes behind it. -/
theorem portable_acceptOptional {w : String} (hw : w ≠ "")
    (hr : ∀ m us, Portable (fun _ => Ended) m r r us) (hG : ∀ b v w, G b w → G b (v ++ w))
    (hk : ∀ m us, Portable G m (k ()) (k ()) us) :
    Portable G n (accept w >>= fun b => if b = true then r >>= k else k ())
      (accept w >>= fun b => if b = true then r >>= k else k ()) ts := by
  refine .ifAccept hw (fun t ts _ _ => ?_) fun _ => hk n ts
  exact ((hr _ ts).bind_behind hG fun _ mid _ _ => hk _ mid).mono (Nat.le_refl _)
    fun b v => hG b [t] v

end Optional

/-- A clause ends with its block, or there is none. -/
theorem portable_catchClause :
    Portable (fun b w => if b = true then Ended w else w = []) n catchClause
      catchClause ts := by
  have hG : ∀ b v w, b = true ∧ Ended w → b = true ∧ Ended (v ++ w) :=
    fun _ v _ h => ⟨h.1, h.2.behind v⟩
  have hblock :
      ∀ m us, Portable (fun b w => b = true ∧ Ended w) m (group >>= fun _ => pure true)
        (group >>= fun _ => pure true) us :=
    fun m us => portable_group.bind fun _ mid w _ hw =>
      portable_pure ⟨rfl, hw.append closed_nil⟩
  refine .ifAccept (by decide)
    (fun t ts _ _ => Portable.mono (F := fun b w => b = true ∧ Ended w) ?_ (Nat.le_refl _)
      fun b w h => ?_) fun _ => portable_pure rfl
  · -- The clause may have a head and a condition, and it ends with its block.
    exact portable_optional (sees_reads _) (fun _ _ => portable_group) hG fun _ _ =>
      portable_acceptOptional (by decide) (fun _ _ => portable_group) hG hblock
  · rw [if_pos h.1]
    exact h.2.behind [t]

/-- One statement can be moved if the statements in it can, which have fewer tokens. -/
theorem portable_statementForm {r r' : Parser Unit}
    (hr : ∀ ts, Portable (fun _ => Ended) n r r' ts) :
    Portable (fun _ => Ended) (n + 1) (statementForm r) (statementForm r') ts := by
  have inner {m : Nat} (hm : m ≤ n) (ts : List Token) : Portable (fun _ => Ended) m r r' ts :=
    (hr ts).mono hm fun _ _ h => h
  have behind {k k' : Parser Unit} {t : Token} {ts : List Token}
      (h : Portable (fun _ => Ended) n k k' ts) :
      Portable (fun _ w => Ended (t :: w)) (n + 1 - 1) k k' ts :=
    h.mono (Nat.le_refl n) fun _ _ hw => hw.behind [t]
  refine .ifAccept (by decide) (fun t ts _ _ => behind ?_) fun _ =>
    .ite_ended tame_startsNested (fun h => ?_) fun _ => .ifAccept (by decide)
    (fun t ts _ _ => behind ?_) fun _ =>
      .ifAccept (by decide) (fun t ts _ _ => behind ?_) fun _ =>
        .ite_ended (tame_reads_text (by decide) (· == "(")) (fun h => ?_) fun _ =>
          .ite_ended tame_startsMarkedBlock (fun h => ?_) fun _ => portable_simpleStatement
  · -- `if`, perhaps with `else`.
    refine portable_group.bind_ended fun _ mid w _ => ?_
    refine (inner (by omega) mid).bind_closed fun _ mid v _ => ?_
    refine .ifAccept (by decide) (fun t ts _ _ => ?_) fun _ => portable_pure closed_nil
    exact (inner (by omega) ts).mono (Nat.le_refl _) fun _ _ h => (h.behind [t]).closed
  · -- A head in brackets, and a statement under it.
    obtain ⟨t, ts, rfl⟩ := List.exists_cons_of_ne_nil (ne_nil_of_test rfl h)
    refine .pass (behind (portable_group.bind_ended fun _ mid w _ => ?_))
    exact inner (by omega) mid
  · -- `do`, which has its head at the end.
    refine (inner (Nat.le_refl n) ts).bind_ended fun _ mid w _ => ?_
    refine (portable_expect (F := fun _ _ => True) (by decide) fun _ _ _ => trivial).bind_ended
      fun _ mid v _ => ?_
    exact portable_group.bind_ended fun _ mid u _ => portable_expect_closer (by decide)
  · -- `try`, with its clauses.
    refine portable_group.bind_closed fun _ mid w _ => ?_
    refine (portable_repeatWhile fun _ _ => portable_catchClause).bind fun _ mid v _ hv => ?_
    refine .ifAccept (by decide) (fun t ts _ _ => ?_) fun _ => portable_pure ?_
    · exact portable_group.mono (Nat.le_refl _) fun _ u hu => ((hu.behind [t]).behind v).closed
    · rwa [List.append_nil]
  · obtain ⟨hswitch, -⟩ := Bool.and_eq_true_iff.mp h
    obtain ⟨t, ts, rfl, -⟩ := Comparison.exists_reads (by decide) hswitch
    exact .pass (behind (portable_group.bind_ended fun _ mid w _ => portable_group))
  · obtain ⟨t, ts, rfl⟩ := List.exists_cons_of_ne_nil (ne_nil_of_test rfl h)
    exact .pass (behind portable_group)

/-- One statement, given those that stand in it. -/
theorem portable_statementStep {r r' : Parser Unit}
    (hr : ∀ ts, Portable (fun _ => Ended) n r r' ts) :
    Portable (fun _ => Ended) (n + 1) (statementStep r) (statementStep r') ts := by
  refine .ite (sees_reads _) (fun _ => portable_group) fun _ =>
    .ite (sees_reads _) (fun h => ?_) fun _ => .ite_ended tame_startsLabel
    (fun h => ?_) fun _ =>
      .ite_ended (tame_reads_text (by decide) fun w => ["foreach", "using"].contains w)
        (fun h => ?_) fun _ => portable_statementForm hr
  · obtain ⟨t, ts, rfl, hread⟩ := Comparison.exists_reads (by decide) h
    refine portable_of_wellShaped fun hshape => portable_advance ?_
    exact ended_of_reads_closer (w := ";") (by decide) (hshape t List.mem_cons_self) hread
  · -- A label is two tokens, and a statement stands behind it.
    obtain _ | ⟨t, _ | ⟨u, ts⟩⟩ := ts
    · cases h
    · cases h
    · exact .pass (.pass ((hr ts).mono (by omega) fun _ _ h => h.behind [t, u]))
  · obtain ⟨hawait, -⟩ := Bool.and_eq_true_iff.mp h
    obtain ⟨t, ts, rfl, -⟩ := Comparison.exists_reads (by decide) hawait
    exact .pass ((portable_statementForm hr).mono (by omega) fun _ _ h => h.behind [t])

/-- **Statements can be moved.** -/
theorem portable_statement : Portable (fun _ => Ended) n statement statement ts :=
  portable_fix (fun _ _ _ h _ _ => portable_statementStep (h ())) ()

end Parser

end SharpScript
