import SharpScript.Proofs.Lexer.Lines
import SharpScript.Proofs.Parser.Runs

/-! # Rules that read given tokens

A rule is given tokens that it is known to read, whatever comes behind them, and
what it gives is known too.

## Main Definitions

* `Parser.Yields`: **the rule reads just the given tokens**, behind which
  tokens of some sort come.

## Main Results

* `Parser.Yields.bind`, `Parser.Yields.pos`, `Parser.Yields.neg`: one rule behind another, and
  tests of which the answer is known;
* `Parser.yields_gather`, `Parser.yields_collect`: blocks of tokens one after the other;
* `Parser.yields_descend`, `Parser.yields_fix`: rules that call themselves.

## Design Notes

A rule that calls itself is unfolded as often as there are tokens.  What is said of a rule
therefore holds while there are fewer tokens than a given number, and a rule that has read a
token may be unfolded once less.
-/

namespace SharpScript.Parser

variable {α β γ ι : Type} {n : Nat} {G H : List Token → Prop} {V : α → Prop} {W : β → Prop}
  {p : Parser α} {t : Token} {ts us : List Token}

/-- The rule `p` reads the tokens `ts` where tokens as `G` says come behind, fewer than `n` in
all, and gives something as `V` says. -/
def Yields (n : Nat) (p : Parser α) (G : List Token → Prop) (V : α → Prop) (ts : List Token) :
    Prop :=
  ∀ rest, ts.length + rest.length < n → G rest → ∃ a, p (ts ++ rest) = .ok (a, rest) ∧ V a

/-! ## Sequences and tests -/

theorem Yields.mono {V' : α → Prop} (h : Yields n p G V ts) (hG : ∀ rest, H rest → G rest)
    (hV : ∀ a, V a → V' a) : Yields n p H V' ts := by
  intro rest hn hrest
  obtain ⟨a, hp, ha⟩ := h rest hn (hG rest hrest)
  exact ⟨a, hp, hV a ha⟩

theorem yields_pure {a : α} (h : V a) : Yields n (pure a) G V [] :=
  fun _ _ _ => ⟨a, rfl, h⟩

/-- Behind `p`, the tokens of the next rule come. -/
theorem Yields.bind {f : α → Parser β} (hp : Yields n p H V ts)
    (hG : ∀ rest, G rest → H (us ++ rest)) (hf : ∀ a, V a → Yields n (f a) G W us) :
    Yields n (p >>= f) G W (ts ++ us) := by
  intro rest hn hrest
  rw [List.length_append] at hn
  obtain ⟨a, hpa, ha⟩ := hp (us ++ rest) (by rw [List.length_append]; omega) (hG rest hrest)
  obtain ⟨b, hfb, hb⟩ := hf a ha rest (by omega) hrest
  exact ⟨b, bind_eq_ok.mpr ⟨a, us ++ rest, by rw [List.append_assoc]; exact hpa, hfb⟩, hb⟩

theorem Yields.map {f : α → β} (hp : Yields n p G V ts) (hW : ∀ a, V a → W (f a)) :
    Yields n (p >>= fun a => pure (f a)) G W ts := by
  intro rest hn hrest
  obtain ⟨a, hpa, ha⟩ := hp rest hn hrest
  exact ⟨f a, bind_eq_ok.mpr ⟨a, rest, hpa, rfl⟩, hW a ha⟩

/-- A test that gives `c`. -/
theorem Yields.ahead {f : List Token → γ} {k : γ → Parser α} (c : γ)
    (hf : ∀ rest, G rest → f (ts ++ rest) = c) (hk : Yields n (k c) G V ts) :
    Yields n (ahead f >>= k) G V ts := by
  intro rest hn hrest
  rw [ahead_bind, hf rest hrest]
  exact hk rest hn hrest

/-- A rule that reads nothing and gives `c`. -/
theorem Yields.nothing {q : Parser γ} {k : γ → Parser α} (c : γ)
    (hq : ∀ rest, G rest → q (ts ++ rest) = .ok (c, ts ++ rest)) (hk : Yields n (k c) G V ts) :
    Yields n (q >>= k) G V ts := by
  intro rest hn hrest
  obtain ⟨a, ha, hV⟩ := hk rest hn hrest
  exact ⟨a, bind_eq_ok.mpr ⟨c, ts ++ rest, hq rest hrest, ha⟩, hV⟩

theorem Yields.here {k : Pos → Parser α} (hk : ∀ pos, Yields n (k pos) G V ts) :
    Yields n (Parser.here >>= k) G V ts :=
  fun rest hn hrest => hk _ rest hn hrest

/-- A test that holds. -/
theorem Yields.pos {f : List Token → Bool} {k l : Parser α}
    (hf : ∀ rest, G rest → f (ts ++ rest) = true) (hk : Yields n k G V ts) :
    Yields n (Parser.ahead f >>= fun b => if b = true then k else l) G V ts :=
  .ahead true hf (by rwa [if_pos rfl])

/-- A test that does not hold. -/
theorem Yields.neg {f : List Token → Bool} {k l : Parser α}
    (hf : ∀ rest, G rest → f (ts ++ rest) = false) (hl : Yields n l G V ts) :
    Yields n (Parser.ahead f >>= fun b => if b = true then k else l) G V ts :=
  .ahead false hf (by rwa [if_neg Bool.false_ne_true])

/-! ## Single tokens -/

/-- A word that comes next is read, and then there is a token less. -/
theorem Yields.accept {w : String} {k l : Parser α} (ht : t.reads w = true)
    (hk : Yields n k G V ts) :
    Yields (n + 1) (accept w >>= fun b => if b = true then k else l) G V (t :: ts) := by
  intro rest hn hrest
  rw [accept_bind, if_pos (show Ahead.reads w (t :: ts ++ rest) = true from ht)]
  exact hk rest (by rw [List.length_cons] at hn; omega) hrest

theorem Yields.skip {w : String} {k l : Parser α}
    (hw : ∀ rest, G rest → Ahead.reads w (ts ++ rest) = false) (hl : Yields n l G V ts) :
    Yields n (Parser.accept w >>= fun b => if b = true then k else l) G V ts := by
  intro rest hn hrest
  rw [accept_bind, if_neg (by simp [hw rest hrest])]
  exact hl rest hn hrest

theorem Yields.less (h : Yields (n + 1) p G V ts) : Yields n p G V ts :=
  fun rest hn hrest => h rest (by omega) hrest

/-- A word that must come next is read, and then there is a token less. -/
theorem Yields.expect_succ {w : String} {f : Unit → Parser α} (ht : t.reads w = true)
    (hf : Yields n (f ()) G V ts) : Yields (n + 1) (expect w >>= f) G V (t :: ts) := by
  intro rest hn hrest
  obtain ⟨a, ha, hV⟩ := hf rest (by rw [List.length_cons] at hn; omega) hrest
  exact ⟨a, expect_bind_eq_ok.mpr ⟨ht, ha⟩, hV⟩

theorem Yields.expect {w : String} {f : Unit → Parser α} (ht : t.reads w = true)
    (hf : Yields n (f ()) G V ts) : Yields n (expect w >>= f) G V (t :: ts) :=
  (Yields.expect_succ ht hf).less

theorem Yields.identifier {f : Token → Parser α} (ht : t.kind.isIdentifier = true)
    (hf : Yields n (f t) G V ts) : Yields n (identifier >>= f) G V (t :: ts) := by
  intro rest hn hrest
  obtain ⟨a, ha, hV⟩ := hf rest (by rw [List.length_cons] at hn; omega) hrest
  refine ⟨a, bind_eq_ok.mpr ⟨t, ts ++ rest, ?_, ha⟩, hV⟩
  show Parser.identifier (t :: (ts ++ rest)) = _
  rw [Parser.identifier, if_pos ht]

/-- Any token is passed over, and then there is a token less. -/
theorem Yields.advance_succ {f : Unit → Parser α} (hf : Yields n (f ()) G V ts) :
    Yields (n + 1) (advance >>= f) G V (t :: ts) := by
  intro rest hn hrest
  obtain ⟨a, ha, hV⟩ := hf rest (by rw [List.length_cons] at hn; omega) hrest
  exact ⟨a, bind_eq_ok.mpr ⟨(), ts ++ rest, rfl, ha⟩, hV⟩

theorem Yields.advance {f : Unit → Parser α} (hf : Yields n (f ()) G V ts) :
    Yields n (advance >>= f) G V (t :: ts) :=
  (Yields.advance_succ hf).less

/-! ## Texts -/

theorem Yields.consumed (hp : Yields n p G V ts) :
    Yields n (consumed p) G (fun r => V r.1 ∧ r.2 = ts) ts := by
  intro rest hn hrest
  obtain ⟨a, ha, hV⟩ := hp rest hn hrest
  refine ⟨(a, ts), ?_, hV, rfl⟩
  simp [Parser.consumed, ha]

theorem Yields.spelled (hp : Yields n p G V ts) (hts : ts ≠ []) :
    Yields n (spelled p) G (fun r => V r.1 ∧ r.2 = Token.spelling ts) ts := by
  intro rest hn hrest
  obtain ⟨⟨a, us⟩, ha, hV, hus⟩ := hp.consumed rest hn hrest
  obtain rfl : us = ts := hus
  refine ⟨(a, Token.spelling us), bind_eq_ok.mpr ⟨(a, us), rest, ha, ?_⟩, hV, rfl⟩
  dsimp only
  rw [Comparison.keep_eq_pure hts]
  rfl

theorem Yields.verbatim {p : Parser Unit} {V : Unit → Prop} (hp : Yields n p G V ts)
    (hts : ts ≠ []) : Yields n (verbatim p) G (· = Token.spelling ts) ts :=
  (hp.spelled hts).map fun _ h => h.2

/-! ## Repetition -/

/-- Each item is a block of tokens.  What an item asks of the tokens behind it, the first
tokens of the next block and the tokens behind the last one satisfy. -/
theorem yields_gather [EmptyCollection α] [Append α] {item : Parser (Option α)}
    {B : β → List Token → Prop} {R : β → α → Prop} {xs : List β}
    (hitem : ∀ x ∈ xs, ∀ ts, B x ts →
      ts ≠ [] ∧ Yields n item H (fun o => ∃ a, o = some a ∧ R x a) ts)
    (hnext : ∀ x ∈ xs.tail, ∀ ts rest, B x ts → H rest → H (ts ++ rest))
    (hend : ∀ rest, G rest → H rest ∧ item rest = .ok (none, rest)) (h : Blocks B xs ts) :
    Yields n (gather item) G (fun c => ∃ as, List.Forall₂ R xs as ∧
      c = as.foldr (· ++ ·) ∅) ts := by
  -- The rounds are counted down while the blocks are read, and there are no
  -- more blocks than tokens.
  suffices hround : ∀ m rest, ts.length + rest.length < m → ts.length + rest.length < n →
      G rest → ∃ c, descend (gatherRound item) m () (ts ++ rest) = .ok (c, rest) ∧
        ∃ as, List.Forall₂ R xs as ∧ c = as.foldr (· ++ ·) ∅ by
    intro rest hn hrest
    rw [gather_eq]
    exact hround _ rest (by rw [List.length_append]; omega) hn hrest
  induction h with
  | nil =>
    intro m rest hm _ hrest
    obtain ⟨m, rfl⟩ := Nat.exists_eq_succ_of_ne_zero (Nat.ne_zero_of_lt hm)
    exact ⟨∅, bind_eq_ok.mpr ⟨none, rest, (hend rest hrest).2, rfl⟩, [], .nil, rfl⟩
  | @cons x xs us ts head tail ih =>
    intro m rest hm hn hrest
    obtain ⟨hus, hyields⟩ := hitem x List.mem_cons_self us head
    have hlen := List.length_pos_of_ne_nil hus
    rw [List.length_append] at hm hn
    obtain ⟨m, rfl⟩ := Nat.exists_eq_succ_of_ne_zero (Nat.ne_zero_of_lt hm)
    have hbehind : H (ts ++ rest) := tail.behind hnext (hend rest hrest).1
    obtain ⟨_, hfirst, a, rfl, ha⟩ :=
      hyields (ts ++ rest) (by rw [List.length_append]; omega) hbehind
    obtain ⟨c, hrun, as, has, rfl⟩ := ih (fun y hy => hitem y (List.mem_cons_of_mem _ hy))
      (fun y hy => hnext y (List.mem_of_mem_tail hy)) m rest (by omega) (by omega) hrest
    refine ⟨a ++ as.foldr (· ++ ·) ∅, bind_eq_ok.mpr ⟨some a, ts ++ rest, ?_, ?_⟩, a :: as,
      .cons ha has, rfl⟩
    · rw [List.append_assoc]
      exact hfirst
    · exact bind_eq_ok.mpr ⟨_, rest, hrun, rfl⟩

/-- Single things put together. -/
theorem foldr_singletons {R : β → α → Prop} {xs : List β} {as : List (List α)}
    (h : List.Forall₂ (fun x a => ∃ y, a = [y] ∧ R x y) xs as) :
    List.Forall₂ R xs (as.foldr (· ++ ·) ∅) := by
  induction h with
  | nil => exact .nil
  | cons head _ ih =>
    obtain ⟨y, rfl, hy⟩ := head
    exact .cons hy ih

/-- A first item, and the others behind separators. -/
theorem yields_collect {item : Parser α} {more : Parser Bool} {B : β → List Token → Prop}
    {S : Token → Prop} {R : β → α → Prop} {x : β} {xs : List β} (hts : B x ts)
    (hus : Blocks (fun y us => ∃ s vs, us = s :: vs ∧ S s ∧ B y vs) xs us)
    (hitem : ∀ y ∈ x :: xs, ∀ ts, B y ts → Yields n item H (R y) ts)
    (hmore : ∀ y ∈ xs, ∀ s vs rest, S s → B y vs →
      H (s :: (vs ++ rest)) ∧ more (s :: (vs ++ rest)) = .ok (true, vs ++ rest))
    (hend : ∀ rest, G rest → H rest ∧ more rest = .ok (false, rest)) :
    Yields n (collect item more) G (fun as => List.Forall₂ R (x :: xs) as) (ts ++ us) := by
  have hrest : Yields n (gather do if ← more then return some [← item] else return none) G
      (fun c => List.Forall₂ R xs c) us := by
    refine (yields_gather (H := H) (R := fun y a => ∃ b, a = [b] ∧ R y b) ?_ ?_ ?_ hus).mono
      (fun _ h => h) ?_
    · rintro y hy _ ⟨s, vs, rfl, hs, hvs⟩
      refine ⟨List.cons_ne_nil _ _, fun rest hn hrest => ?_⟩
      obtain ⟨a, ha, hR⟩ := hitem y (List.mem_cons_of_mem _ hy) vs hvs rest
        (by rw [List.length_cons] at hn; omega) hrest
      refine ⟨some [a], bind_eq_ok.mpr ⟨true, vs ++ rest, (hmore y hy s vs rest hs hvs).2, ?_⟩,
        [a], rfl, a, rfl, hR⟩
      exact bind_eq_ok.mpr ⟨a, rest, ha, rfl⟩
    · rintro y hy _ rest ⟨s, vs, rfl, hs, hvs⟩ -
      exact (hmore y (List.mem_of_mem_tail hy) s vs rest hs hvs).1
    · intro rest hG
      exact ⟨(hend rest hG).1, bind_eq_ok.mpr ⟨false, rest, (hend rest hG).2, rfl⟩⟩
    · rintro _ ⟨as, has, rfl⟩
      exact foldr_singletons has
  refine Yields.bind (hitem x List.mem_cons_self ts hts) (fun rest hG => ?_) fun a ha =>
    hrest.map fun c hc => .cons ha hc
  cases hus with
  | nil => exact (hend rest hG).1
  | cons head _ =>
    obtain ⟨s, vs, rfl, hs, hvs⟩ := head
    rw [List.append_assoc]
    exact (hmore _ List.mem_cons_self s vs _ hs hvs).1

/-- A rule that calls itself, unfolded some number of times, in terms of its first round. -/
theorem yields_descend {step : (ι → Parser α) → ι → Parser α} {i : ι}
    (h : ∀ m, Yields (m + 1) (step (descend step m) i) G V ts) (m : Nat) :
    Yields m (descend step m i) G V ts := by
  cases m with
  | zero => exact fun _ hn => absurd hn (Nat.not_lt_zero _)
  | succ m => exact h m

/-- A rule that calls itself is unfolded as often as there are tokens. -/
theorem yields_fix {step : (ι → Parser α) → ι → Parser α} {i : ι}
    (h : ∀ m, Yields m (descend step m i) G V ts) : Yields n (fix step i) G V ts :=
  fun rest _ hrest => h _ rest (by rw [List.length_append]; omega) hrest

end SharpScript.Parser
