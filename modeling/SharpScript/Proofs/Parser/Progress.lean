import SharpScript.Proofs.Parser.Skip

/-! # Progress

A rule that is run on a list of tokens comes to an end: it gives a value and leaves
tokens at the end of the list, or it fails at one of the tokens or behind the last
one.  It does not stall.

## Main Definitions

* `Parser.SettlesBy`: **the run of a rule ends**, and has read a token if what
  it gives is of some sort;
* `Parser.Settles`, `Parser.Consumes`: the same for rules that may read nothing, and for rules
  that read something whatever they give.

## Main Results

* `Parser.SettlesBy.bind_by`: one rule behind another;
* `Parser.settlesBy_fix`: a rule that calls itself with fewer tokens left;
* `Parser.settlesBy_loop`, `Parser.settles_gather`: repetition of a rule that
  reads something each time.
-/

namespace SharpScript.Parser

variable {α β σ ι : Type} {R : α → Prop} {T : β → Prop} {p : Parser α} {t : Token}
  {ts : List Token}

/-- The rule `p` leaves tokens at the end of `ts`, fewer of them if what it gives is as `R`
says, or it fails at such tokens and has not stalled. -/
structure SettlesBy (R : α → Prop) (p : Parser α) (ts : List Token) : Prop where
  ok {a : α} {rest : List Token} : p ts = .ok (a, rest) →
    rest <:+ ts ∧ (R a → rest.length < ts.length)
  error {e : Failure} : p ts = .error e → e.left <:+ ts ∧ e.problem ≠ .stalled

/-- A rule that may read nothing. -/
abbrev Settles (p : Parser α) (ts : List Token) : Prop := SettlesBy (fun _ => False) p ts

/-- A rule that reads something whatever it gives. -/
abbrev Consumes (p : Parser α) (ts : List Token) : Prop := SettlesBy (fun _ => True) p ts

/-- A rule that reads something for more values does so for fewer. -/
theorem SettlesBy.mono {S : α → Prop} (h : SettlesBy R p ts) (hS : ∀ a, S a → R a) :
    SettlesBy S p ts where
  ok hp := ⟨(h.ok hp).1, fun hs => (h.ok hp).2 (hS _ hs)⟩
  error := h.error

/-- A rule that does what another one does on some of the last tokens. -/
theorem SettlesBy.behind {q : Parser α} {mid : List Token} (h : SettlesBy R q mid)
    (hmid : mid <:+ ts) (hp : p ts = q mid) : SettlesBy R p ts where
  ok hrun := by
    obtain ⟨hrest, hlt⟩ := h.ok (hp ▸ hrun)
    exact ⟨hrest.trans hmid, fun ha => Nat.lt_of_lt_of_le (hlt ha) hmid.length_le⟩
  error hrun := by
    obtain ⟨hleft, hproblem⟩ := h.error (hp ▸ hrun)
    exact ⟨hleft.trans hmid, hproblem⟩

theorem SettlesBy.congr {q : Parser α} (h : SettlesBy R q ts) (hp : p ts = q ts) :
    SettlesBy R p ts :=
  h.behind (List.suffix_refl ts) hp

theorem SettlesBy.settles (h : SettlesBy R p ts) : Settles p ts := h.mono fun _ => False.elim

theorem Consumes.settlesBy (h : Consumes p ts) : SettlesBy R p ts := h.mono fun _ _ => trivial

/-! ## Sequences and tests -/

theorem settlesBy_pure {a : α} (h : ¬R a) : SettlesBy R (pure a) ts where
  ok hp := by
    cases hp
    exact ⟨List.suffix_refl _, fun ha => absurd ha h⟩
  error hp := nomatch hp

theorem settles_pure (a : α) : Settles (pure a) ts := settlesBy_pure id

/-- A rule may fail, but not for want of fuel. -/
theorem settlesBy_fail {q : Problem} (h : q ≠ .stalled) : SettlesBy R (fail q) ts where
  ok hp := nomatch hp
  error hp := by
    cases hp
    exact ⟨List.suffix_refl _, h⟩

/-- A look at the tokens ahead reads none. -/
theorem settles_ahead (f : List Token → α) : Settles (ahead f) ts where
  ok hp := by
    cases hp
    exact ⟨List.suffix_refl _, False.elim⟩
  error hp := nomatch hp

/-- The second rule runs on what the first one leaves.  One of them must read something. -/
theorem SettlesBy.bind_by {S : α → β → Prop} {f : α → Parser β} (hp : SettlesBy R p ts)
    (hf : ∀ a mid, p ts = .ok (a, mid) → SettlesBy (S a) (f a) mid)
    (hT : ∀ a b, T b → R a ∨ S a b) : SettlesBy T (p >>= f) ts where
  ok {b rest} hrun := by
    obtain ⟨a, mid, ha, hb⟩ := bind_eq_ok.mp hrun
    obtain ⟨hmid, hR⟩ := hp.ok ha
    obtain ⟨hrest, hS⟩ := (hf a mid ha).ok hb
    refine ⟨hrest.trans hmid, fun hb => ?_⟩
    rcases hT a b hb with h | h
    · exact Nat.lt_of_le_of_lt hrest.length_le (hR h)
    · exact Nat.lt_of_lt_of_le (hS h) hmid.length_le
  error hrun := by
    rcases bind_eq_error.mp hrun with he | ⟨a, mid, ha, he⟩
    · exact hp.error he
    · obtain ⟨hleft, hproblem⟩ := (hf a mid ha).error he
      exact ⟨hleft.trans (hp.ok ha).1, hproblem⟩

/-- Behind a rule that reads something, there are fewer tokens left. -/
theorem Consumes.bind {f : α → Parser β} (hp : Consumes p ts)
    (hf : ∀ a mid, mid.length < ts.length → Settles (f a) mid) : SettlesBy T (p >>= f) ts :=
  hp.bind_by (fun a mid ha => hf a mid ((hp.ok ha).2 trivial)) fun _ _ _ => .inl trivial

/-- A rule behind a rule that need not read anything. -/
theorem Settles.bind {f : α → Parser β} (hp : Settles p ts)
    (hf : ∀ a mid, mid.length ≤ ts.length → SettlesBy T (f a) mid) :
    SettlesBy T (p >>= f) ts :=
  hp.bind_by (fun a mid ha => hf a mid (hp.ok ha).1.length_le) fun _ _ => .inr

/-- What is made of a value does not change what is read. -/
theorem Consumes.map {f : α → β} (hp : Consumes p ts) :
    SettlesBy T (p >>= fun a => pure (f a)) ts :=
  hp.bind fun a _ _ => settles_pure (f a)

theorem Settles.map {f : α → β} (hp : Settles p ts) : Settles (p >>= fun a => pure (f a)) ts :=
  hp.bind fun a _ _ => settles_pure (f a)

/-- A rule that may have no answer, and another one in its place, which must read something. -/
theorem SettlesBy.bind_option {p : Parser (Option α)} {f : Option α → Parser β}
    (hp : SettlesBy (fun o => o.isSome = true) p ts)
    (hsome : ∀ a mid, mid.length < ts.length → Settles (f (some a)) mid)
    (hnone : ∀ mid, mid.length ≤ ts.length → Consumes (f none) mid) :
    Consumes (p >>= f) ts := by
  refine hp.bind_by (S := fun o _ => o = none) (fun o mid ho => ?_) fun o _ _ => ?_
  · obtain ⟨hmid, hlt⟩ := hp.ok ho
    cases o with
    | some a => exact (hsome a mid (hlt rfl)).mono nofun
    | none => exact (hnone mid hmid.length_le).settlesBy
  · cases o with
    | some a => exact .inl rfl
    | none => exact .inr rfl

/-- Both ways of a test on the tokens ahead. -/
theorem SettlesBy.ite {f : List Token → Bool} {k l : Parser α}
    (hk : f ts = true → SettlesBy R k ts) (hl : f ts = false → SettlesBy R l ts) :
    SettlesBy R (ahead f >>= fun b => if b = true then k else l) ts := by
  refine (settles_ahead f).bind_by (S := fun _ => R) (fun b mid hb => ?_) fun _ _ => .inr
  cases hb
  split
  · exact hk ‹_›
  · exact hl (Bool.eq_false_iff.mpr ‹_›)

/-- A part that is read if a test holds, and what comes behind it. -/
theorem SettlesBy.optional {f : List Token → Bool} {q : Parser Unit} {k : Unit → Parser α}
    (hq : Settles q ts) (hk : ∀ mid, mid.length ≤ ts.length → SettlesBy R (k ()) mid) :
    SettlesBy R (ahead f >>= fun b => if b = true then q >>= k else k ()) ts :=
  .ite (fun _ => hq.bind fun _ => hk) fun _ => hk ts (Nat.le_refl _)

/-- A test that only tokens pass. -/
theorem ne_nil_of_test {f : List Token → Bool} (hnil : f [] = false) (h : f ts = true) :
    ts ≠ [] := by
  rintro rfl
  rw [hnil] at h
  cases h

/-! ## Single tokens -/

/-- What a rule does behind its first token. -/
theorem consumes_cons {q : Parser α} (h : Settles q ts) (hp : p (t :: ts) = q ts) :
    Consumes p (t :: ts) where
  ok hrun := by
    obtain ⟨hrest, -⟩ := h.ok (hp ▸ hrun)
    exact ⟨hrest.trans (List.suffix_cons t ts), fun _ => Nat.lt_succ_of_le hrest.length_le⟩
  error := (h.behind (List.suffix_cons t ts) hp).error

/-- A token is read where there is one. -/
theorem consumes_advance (h : ts ≠ []) : Consumes advance ts := by
  cases ts with
  | nil => exact absurd rfl h
  | cons t ts => exact consumes_cons (settles_pure ()) rfl

theorem settles_advance : Settles advance ts := by
  cases ts with
  | nil => exact (settles_pure ()).congr rfl
  | cons t ts => exact (consumes_advance (List.cons_ne_nil t ts)).settles

theorem ne_nil_of_reads {w : String} (hw : w ≠ "") (h : Ahead.reads w ts = true) : ts ≠ [] :=
  ne_nil_of_test (by simpa [Ahead.reads] using hw) h

/-- A word that may come next. -/
theorem settles_accept (w : String) : Settles (accept w) ts :=
  .ite (fun _ => settles_advance.map) fun _ => settles_pure false

/-- A word that is read, or another rule in its place. -/
theorem SettlesBy.ifAccept {w : String} {k l : Parser α} (hw : w ≠ "")
    (hk : ∀ mid, mid.length < ts.length → Settles k mid) (hl : SettlesBy R l ts) :
    SettlesBy R (accept w >>= fun b => if b = true then k else l) ts := by
  rw [Comparison.accept_bind]
  exact .ite (fun h => (consumes_advance (ne_nil_of_reads hw h)).bind fun _ mid hmid => by
    exact hk mid hmid) fun _ => hl

/-- A part that is read behind a word if the word comes next, and what comes behind it. -/
theorem SettlesBy.acceptOptional {w : String} {q : Parser Unit} {k : Unit → Parser α}
    (hq : ∀ us, Settles q us) (hk : ∀ mid, mid.length ≤ ts.length → SettlesBy R (k ()) mid) :
    SettlesBy R (accept w >>= fun b => if b = true then q >>= k else k ()) ts := by
  rw [Comparison.accept_bind]
  refine .ite (fun _ => settles_advance.bind fun _ mid hmid => ?_) fun _ =>
    hk ts (Nat.le_refl _)
  exact (hq mid).bind fun _ us hus => hk us (by omega)

theorem settles_expect (w : String) : Settles (expect w) ts :=
  .ite (fun _ => settles_advance) fun _ => settlesBy_fail nofun

/-- A word that must come next is read. -/
theorem consumes_expect {w : String} (hw : w ≠ "") : Consumes (expect w) ts :=
  .ite (fun h => consumes_advance (ne_nil_of_reads hw h)) fun _ => settlesBy_fail nofun

/-- A name is read, or the rule fails. -/
theorem consumes_identifier : Consumes identifier ts := by
  cases ts with
  | nil => exact (settlesBy_fail (q := .expected .identifier) nofun).congr rfl
  | cons t ts =>
    by_cases h : t.kind.isIdentifier = true
    · exact consumes_cons (settles_pure t) (if_pos h)
    · exact (settlesBy_fail (q := .expected .identifier) nofun).congr (if_neg h)

/-- A token that must pass a test, and what comes behind it. -/
theorem SettlesBy.pass {f : List Token → Bool} {q : Problem} {k : Unit → Parser α}
    (hnil : f [] = false) (hq : q ≠ .stalled)
    (hk : ∀ mid, mid.length < ts.length → Settles (k ()) mid) :
    SettlesBy R (ahead f >>= fun b => if b = true then advance >>= k else fail q >>= k) ts :=
  .ite (fun h => (consumes_advance (ne_nil_of_test hnil h)).bind fun _ => hk)
    fun _ => Consumes.bind (settlesBy_fail hq) fun _ => hk

/-- A rule for the tokens that are left, of which there must be some. -/
theorem SettlesBy.unlessEnd {q : Problem} {k : Parser α} (hq : q ≠ .stalled)
    (hk : ts ≠ [] → SettlesBy R k ts) :
    SettlesBy R (atEnd >>= fun b => if b = true then fail q else k) ts := by
  refine .ite (fun _ => settlesBy_fail hq) fun h => hk ?_
  rintro rfl
  cases h

/-! ## Repetition -/

/-- A rule comes to an end if it does so whenever the calls of itself do, where each of them
has fewer tokens left. -/
theorem settlesBy_fix {step : (ι → Parser α) → ι → Parser α}
    (h : ∀ again i us, us.length ≤ ts.length →
      (∀ j vs, vs.length < us.length → SettlesBy R (again j) vs) →
      SettlesBy R (step again i) us)
    (i : ι) : SettlesBy R (fix step i) ts := by
  -- The number of nested calls is larger than the number of tokens.
  have hdescend : ∀ n us i, us.length ≤ ts.length → us.length < n →
      SettlesBy R (descend step n i) us := by
    intro n
    induction n with
    | zero => intro us i _ hn; omega
    | succ n ih =>
      intro us i hus hn
      refine h (descend step n) i us hus fun j vs hvs => ?_
      exact ih vs j (by omega) (by omega)
  exact (hdescend (ts.length + 1) ts i (Nat.le_refl _) (Nat.lt_succ_self _)).congr rfl

/-- A loop of which each round but the last reads something, and the last
one too if `P` holds. -/
theorem settlesBy_loop {P : Prop} {step : σ → Parser (σ ⊕ β)}
    (h : ∀ s us, SettlesBy (fun r => r.isLeft = true ∨ P) (step s) us) (s : σ) :
    SettlesBy (fun _ => P) (loop step s) ts := by
  refine settlesBy_fix (fun again s us _ ih => ?_) s
  refine (h s us).bind_by (S := fun _ _ => False) (fun r mid hr => ?_)
    fun _ _ hP => .inl (.inr hP)
  cases r with
  | inl s' =>
    have hlt : mid.length < us.length := ((h s us).ok hr).2 (.inl rfl)
    exact (ih s' mid hlt).settles
  | inr b => exact settles_pure b

/-- **Rounds** that read something each time come to an end before their fuel does. -/
theorem settles_repeatWhile {step : Parser Bool} (h : ∀ us, SettlesBy (· = true) step us) :
    Settles (repeatWhile step) ts := by
  refine settlesBy_loop (fun _ us => ?_) ()
  refine (h us).bind_by (S := fun b r => b = false ∧ r.isLeft = true) (fun b mid _ => ?_)
    fun b r hr => ?_
  · cases b with
    | true => exact settlesBy_pure fun hb => Bool.noConfusion hb.1
    | false => exact settlesBy_pure fun hb => Bool.noConfusion hb.2
  · cases b with
    | true => exact .inl rfl
    | false => exact .inr ⟨rfl, hr.resolve_right id⟩

/-- A rule that is repeated as long as it gives something, and each time reads something. -/
theorem settles_gather [EmptyCollection α] [Append α] {item : Parser (Option α)}
    (h : ∀ us, us.length ≤ ts.length → SettlesBy (fun o => o.isSome = true) item us) :
    Settles (gather item) ts := by
  refine settlesBy_fix (fun again _ us hus ih => ?_) ()
  refine (h us hus).bind_by (S := fun _ _ => False) (fun o mid ho => ?_) nofun
  cases o with
  | some a =>
    have hlt : mid.length < us.length := ((h us hus).ok ho).2 rfl
    exact Settles.map (ih () mid hlt)
  | none => exact settles_pure ∅

/-- A list of values with a sign between them reads something, as its first value does. -/
theorem consumes_collect {item : Parser α} {more : Parser Bool}
    (hitem : ∀ us, Consumes item us) (hmore : ∀ us, Settles more us) :
    Consumes (collect item more) ts := by
  refine (hitem ts).bind fun first mid _ => ?_
  refine Settles.map (settles_gather fun us _ => ?_)
  refine (hmore us).bind fun b mid _ => ?_
  cases b with
  | true => exact (hitem mid).map
  | false => exact settlesBy_pure Bool.false_ne_true

theorem settles_commaBefore (close : String) : Settles (commaBefore close) ts :=
  .ifAccept (by decide) (fun _ _ => (settles_ahead _).map) (settles_pure false)

/-! ## Source text -/

/-- A rule reads as much if the tokens that it reads are kept. -/
theorem SettlesBy.consumed (h : SettlesBy R p ts) :
    SettlesBy (fun r => R r.1) (consumed p) ts where
  ok hrun := h.ok (of_consumed hrun).1
  error hrun := by
    unfold Parser.consumed at hrun
    split at hrun
    · cases hrun
    · cases hrun
      exact h.error ‹_›

/-- There is source text of what a rule reads that reads something. -/
theorem Consumes.spelled (h : Consumes p ts) : Consumes (spelled p) ts := by
  refine SettlesBy.bind_by (S := fun _ _ => False) h.consumed (fun r mid hr => ?_)
    fun _ _ _ => .inl trivial
  obtain ⟨hp, hread⟩ := of_consumed hr
  obtain ⟨⟨w, rfl⟩, hlt⟩ := h.ok hp
  have hne : r.2 ≠ [] := by
    rintro hnil
    rw [hread w rfl] at hnil
    exact absurd (hlt trivial) (by simp [hnil])
  dsimp only
  rw [Comparison.keep_eq_pure hne]
  exact settles_pure _

/-- A piece of the text is not empty if the rule that cuts it out reads something. -/
theorem Consumes.verbatim {p : Parser Unit} (h : Consumes p ts) : Consumes (verbatim p) ts :=
  h.spelled.map

end SharpScript.Parser
