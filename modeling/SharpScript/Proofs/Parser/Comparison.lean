import Mathlib.Data.List.Forall2
import SharpScript.Proofs.Parser.Nesting

/-! # Two runs of a parser

A parser is run twice, on two lists of tokens that correspond, and the second run is to do
what the first one does.  Which lists correspond is left open: they may be alike, or the
second one may go on where the first one ends.  What is said here of the combinators holds for
every such correspondence, and so does what is said of the rules of the grammar, which are put
together from the combinators.

## Main Definitions

* `Contract`: what a rule tells of the tokens that it reads, and what it must be told
  of the tokens behind them;
* `Comparison`: a correspondence between lists of tokens, and between
  the texts taken from them;
* `Comparison.At`, `Comparison.Sim`: **the second run does what the first one does**, at two
  given lists, and at all that correspond.

## Main Results

* `Comparison.AtBy.bind`, `Comparison.AtBy.ite`: one rule behind another, and
  a test before two rules;
* `Comparison.SimBy.fix`: rules that call themselves;
* `Comparison.SimBy.verbatim_text`, `Comparison.SimBy.verbatim_code`: texts.

## Design Notes

A rule that looks at the next token does not care which of the corresponding lists it looks at,
as long as there is a next token in the first one.  Where the first list has been read to its
end the second one may go on, and the rule must be told that what comes next is none of the
words that it looks for.  A rule that passes over a `;` if one comes next is `loose`: it may do
so in the second run only.
-/

namespace SharpScript

variable {α β γ ι : Type}

/-! ## Runs -/

namespace Parser

/-- A rule behind a rule succeeds where both do. -/
theorem bind_eq_ok {p : Parser α} {f : α → Parser β} {ts rest : List Token} {b : β} :
    (p >>= f) ts = .ok (b, rest) ↔ ∃ a mid, p ts = .ok (a, mid) ∧ f a mid = .ok (b, rest) := by
  show (p ts >>= fun r => f r.1 r.2) = _ ↔ _
  cases p ts with
  | error e => exact ⟨nofun, fun ⟨_, _, h, _⟩ => nomatch h⟩
  | ok r => exact ⟨fun h => ⟨r.1, r.2, rfl, h⟩, fun ⟨_, _, h, h'⟩ => by cases h; exact h'⟩

/-- It fails where one of them does. -/
theorem bind_eq_error {p : Parser α} {f : α → Parser β} {ts : List Token} {e : Failure} :
    (p >>= f) ts = .error e ↔
      p ts = .error e ∨ ∃ a mid, p ts = .ok (a, mid) ∧ f a mid = .error e := by
  show (p ts >>= fun r => f r.1 r.2) = _ ↔ _
  cases p ts with
  | error e' => exact ⟨fun h => .inl (by cases h; rfl),
      fun h => h.elim (fun h => by cases h; rfl) fun ⟨_, _, h, _⟩ => nomatch h⟩
  | ok r => exact ⟨fun h => .inr ⟨r.1, r.2, rfl, h⟩,
      fun h => h.elim nofun fun ⟨_, _, h, h'⟩ => by cases h; exact h'⟩

/-- The tokens that a rule has read are those before the tokens that it leaves. -/
theorem of_consumed {p : Parser α} {a : α} {ts us rest : List Token}
    (h : consumed p ts = .ok ((a, us), rest)) :
    p ts = .ok (a, rest) ∧ ∀ w, ts = w ++ rest → us = w := by
  unfold consumed at h
  cases hp : p ts with
  | error e =>
    rw [hp] at h
    cases h
  | ok r =>
    rw [hp] at h
    cases h
    refine ⟨rfl, ?_⟩
    rintro w rfl
    simp

end Parser

/-! ## Contracts -/

/-- A sign that a statement or a declaration may end with, by its text alone. -/
def Token.Ends (t : Token) : Prop := ∃ w ∈ closers, t.reads w = true

/-- A token that closes something also ends it. -/
theorem Token.Closes.ends {t : Token} (h : t.Closes) : t.Ends :=
  ⟨t.text, h.2, by simp [Token.reads, h.1, Kind.isLiteral]⟩

/-- What a rule tells and must be told.  Where no token is left behind it, the
words `follow` must not come next in a longer list; if there is no such list of
words, a token must be left. -/
structure Contract where
  follow : Option (List String)
  /-- The rule reads at least one token. -/
  progress : Bool
  /-- The brackets of what the rule reads are well nested. -/
  balanced : Bool
  /-- If the rule reads anything, the last token of it ends a statement or a declaration. -/
  finished : Bool
  /-- The rule may pass over a `;` that comes next in a longer list. -/
  loose : Bool
deriving DecidableEq

namespace Contract

/-- What a rule tells of the tokens `w` that it reads. -/
structure Spans (c : Contract) (w : List Token) : Prop where
  progress : c.progress = true → w ≠ []
  balanced : c.balanced = true → Balanced w
  finished : c.finished = true → ∀ t, w.getLast? = some t → t.Ends

/-- What a rule must be told of the tokens that are left, in the first
run and in the second. -/
def Met (c : Contract) (rest zs : List Token) : Prop :=
  rest ≠ [] ∨ ∃ ws, c.follow = some ws ∧ ∀ w ∈ ws, Ahead.reads w zs = false

/-- Where the second run ends, where `ys` corresponds to the end of the first one. -/
def Lands (c : Contract) (rest ys zs : List Token) : Prop :=
  zs = ys ∨ (c.loose = true ∧ rest = [] ∧ ∃ t, ys = t :: zs ∧ t.reads ";" = true)

/-- The answer of a test where no token is left is known for longer lists too. -/
def Covers (c : Contract) (f : List Token → γ) : Prop :=
  ∀ ws, c.follow = some ws → ∀ zs, (∀ w ∈ ws, Ahead.reads w zs = false) → f [] = f zs

/-- Fewer words, where `none` stands for all. -/
def followLe : Option (List String) → Option (List String) → Bool
  | _, none => true
  | none, some _ => false
  | some ws, some ws' => ws.all ws'.contains

/-- The contract `d` asks for no less than `c` and tells no more. -/
def Le (c d : Contract) : Prop :=
  followLe c.follow d.follow = true ∧ (d.progress = true → c.progress = true) ∧
    (d.balanced = true → c.balanced = true) ∧ (d.finished = true → c.finished = true) ∧
    (c.loose = true → d.loose = true)

/-- A rule with the contract `c`, and behind it one with the contract `d`,
keep the contract `e`. -/
def Fits (c d e : Contract) : Prop :=
  c.loose = false ∧ (d.progress = true ∨ followLe c.follow d.follow = true) ∧
    followLe d.follow e.follow = true ∧
    (e.progress = true → c.progress = true ∨ d.progress = true) ∧
    (e.balanced = true → c.balanced = true ∧ d.balanced = true) ∧
    (e.finished = true → d.finished = true ∧ (d.progress = true ∨ c.finished = true)) ∧
    (d.loose = true → e.loose = true)

/-- A test that looks for the words `ws` decides between rules with the contracts `c` and `d`,
and both keep the contract `e`. -/
def Splits (ws : Option (List String)) (c d e : Contract) : Prop :=
  (d.progress = true ∨ followLe ws d.follow = true) ∧ c.Le e ∧ d.Le e

instance (c d : Contract) : Decidable (c.Le d) := by
  unfold Le
  infer_instance

instance (c d e : Contract) : Decidable (Fits c d e) := by
  unfold Fits
  infer_instance

instance (ws : Option (List String)) (c d e : Contract) : Decidable (Splits ws c d e) := by
  unfold Splits
  infer_instance

/-- Nothing is read, and nothing is looked at. -/
def still : Contract := ⟨some [], false, true, true, false⟩

/-- The word or sign `w` is read. -/
def word (w : String) : Contract :=
  ⟨some [], true, !(["(", "[", Text.openBrace, ")", "]", Text.closeBrace].contains w),
    closers.contains w, false⟩

/-- Nothing is read, since the word or sign `w` does not come next. -/
def absent (w : String) : Contract := ⟨some [w], false, true, true, false⟩

/-- At least one token is read, no bracket stands in it alone, and
nothing is looked at behind. -/
def plain : Contract := ⟨some [], true, true, false, false⟩

/-- At least one token is read, and nothing is looked at behind. -/
def firm : Contract := ⟨some [], true, false, false, false⟩

/-- A token must be left behind what is read. -/
def open_ : Contract := ⟨none, false, false, false, false⟩

/-- At least one token is read, and one must be left. -/
def keen : Contract := ⟨none, true, false, false, false⟩

variable {c d e : Contract}

/-- What a weaker contract asks of the next word. -/
theorem followLe_words {f g : Option (List String)} (h : followLe f g = true)
    {ws : List String} (hg : g = some ws) : ∃ vs, f = some vs ∧ ∀ w ∈ vs, w ∈ ws := by
  subst hg
  cases f with
  | none => cases h
  | some vs => exact ⟨vs, rfl, by simpa [followLe] using h⟩

/-- What comes behind meets a contract if it meets a stronger one. -/
theorem Met.of_followLe (h : followLe c.follow d.follow = true) {rest zs : List Token}
    (hmet : d.Met rest zs) : c.Met rest zs := by
  rcases hmet with hrest | ⟨ws, hws, hwords⟩
  · exact .inl hrest
  · obtain ⟨vs, hvs, hsub⟩ := followLe_words h hws
    exact .inr ⟨vs, hvs, fun w hw => hwords w (hsub w hw)⟩

/-- A contract is as strong as itself. -/
theorem Le.refl (c : Contract) : c.Le c := by
  refine ⟨?_, id, id, id, id⟩
  cases c.follow <;> simp [followLe]

/-- Tokens that a contract allows are allowed by a weaker one. -/
theorem Spans.mono (h : c.Le d) {w : List Token} (hw : c.Spans w) : d.Spans w := by
  obtain ⟨-, hprogress, hbalanced, hfinished, -⟩ := h
  exact ⟨fun hd => hw.progress (hprogress hd), fun hd => hw.balanced (hbalanced hd),
    fun hd => hw.finished (hfinished hd)⟩

/-- A second run may land at more places under a looser contract. -/
theorem Lands.mono (h : c.loose = true → d.loose = true) {rest ys zs : List Token}
    (hl : c.Lands rest ys zs) : d.Lands rest ys zs := by
  rcases hl with hl | ⟨hloose, hl⟩
  · exact .inl hl
  · exact .inr ⟨h hloose, hl⟩

/-- A tight contract lets the second run land at one place only. -/
theorem Lands.eq_of_tight {rest ys zs : List Token} (h : c.Lands rest ys zs)
    (hc : c.loose = false) : zs = ys := by
  rcases h with h | ⟨hloose, -⟩
  · exact h
  · rw [hc] at hloose
    cases hloose

/-- Where nothing comes behind, there is one place to land. -/
theorem Lands.eq_of_length {rest ys zs : List Token} (h : c.Lands rest ys zs)
    (hlen : rest.length = ys.length) : zs = ys := by
  rcases h with h | ⟨-, rfl, t, rfl, -⟩
  · exact h
  · cases hlen

/-- What two rules read behind one another is allowed if their contracts fit. -/
theorem Spans.append (h : Fits c d e) {v w : List Token} (hv : c.Spans v) (hw : d.Spans w) :
    e.Spans (v ++ w) := by
  obtain ⟨-, -, -, hprogress, hbalanced, hfinished, -⟩ := h
  constructor
  · intro he
    rcases hprogress he with hc | hd
    · exact List.append_ne_nil_of_left_ne_nil (hv.progress hc) w
    · exact List.append_ne_nil_of_right_ne_nil v (hw.progress hd)
  · intro he
    obtain ⟨hc, hd⟩ := hbalanced he
    exact (hv.balanced hc).append (hw.balanced hd)
  · intro he t ht
    obtain ⟨hd, hlast⟩ := hfinished he
    by_cases hnil : w = []
    · rw [hnil, List.append_nil] at ht
      exact hv.finished (hlast.resolve_left fun h => hw.progress h hnil) t ht
    · rw [List.getLast?_append_of_ne_nil v hnil] at ht
      exact hw.finished hd t ht

/-- A rule that may read nothing allows it. -/
theorem spans_nil (hc : c.progress = false) : c.Spans [] :=
  ⟨fun h => absurd h (by simp [hc]), fun _ => balanced_nil, fun _ t ht => nomatch ht⟩

/-- Where a rule behind another one is told what it must be told, the first one is too. -/
theorem Met.before (h : Fits c d e) {ts us : List Token} {n : Nat} (hn : n ≤ ts.length)
    (hw : d.Spans (ts.take n)) (hmet : e.Met (ts.drop n) (us.drop n)) : c.Met ts us := by
  obtain ⟨-, hahead, hfollow, -⟩ := h
  by_cases hts : ts = []
  · subst hts
    obtain rfl : n = 0 := Nat.le_zero.mp hn
    refine (hmet.of_followLe hfollow).of_followLe (hahead.resolve_left fun hd => ?_)
    exact hw.progress hd rfl
  · exact .inl hts

end Contract

/-! ## Comparisons -/

/-- A correspondence between lists of tokens and between the texts taken from them.  If it is
`strict` the lists are alike, and failures are compared too; otherwise the second list may go
on where the first one ends, which must then end with a sign that closes. -/
structure Comparison where
  tokens : List Token → List Token → Prop
  strict : Prop
  /-- Texts in general. -/
  text : String → String → Prop
  /-- Texts in which brackets are well nested. -/
  code : String → String → Prop
  alike {ts us : List Token} : tokens ts us → Alike ts (us.take ts.length)
  whole {ts us : List Token} : tokens ts us → strict → ts.length = us.length
  closed {ts us : List Token} : tokens ts us → strict ∨ Closed ts
  drop {ts us : List Token} (n : Nat) : tokens ts us → n ≤ ts.length →
    tokens (ts.drop n) (us.drop n)
  text_spelling {ts us : List Token} (n : Nat) : tokens ts us → n ≤ ts.length →
    text (Token.spelling (ts.take n)) (Token.spelling (us.take n))
  code_spelling {ts us : List Token} (n : Nat) : tokens ts us → n ≤ ts.length →
    Balanced (ts.take n) → code (Token.spelling (ts.take n)) (Token.spelling (us.take n))
  text_trim {s s' : String} : text s s' → text (Text.trim s) (Text.trim s')
  code_trim {s s' : String} : code s s' → code (Text.trim s) (Text.trim s')
  code_return {s s' : String} (returns : Bool) : code s s' →
    code ((if returns then "return " else "") ++ s ++ ";")
      ((if returns then "return " else "") ++ s' ++ ";")
  text_void {s s' : String} : text s s' → (s = "void" ↔ s' = "void")

namespace Comparison

variable (C : Comparison)

/-- What `p` does with the tokens `ts`, `q` does with the tokens `us`.  The contract may
depend on what `p` gives. -/
structure AtBy (c : α → Contract) (V : α → α → Prop) (p q : Parser α) (ts us : List Token) :
    Prop where
  ok : ∀ {a rest}, p ts = .ok (a, rest) → ∃ n b, n ≤ ts.length ∧ rest = ts.drop n ∧
    (c a).Spans (ts.take n) ∧ V a b ∧ (C.strict ∨ (c a).Met (ts.drop n) (us.drop n) →
      ∃ zs, q us = .ok (b, zs) ∧ (c a).Lands (ts.drop n) (us.drop n) zs)
  error : ∀ {e}, p ts = .error e → C.strict →
    ∃ n, n ≤ ts.length ∧ e.left = ts.drop n ∧ q us = .error ⟨e.problem, us.drop n⟩

/-- What `p` does with some tokens, `q` does with corresponding ones. -/
def SimBy (c : α → Contract) (V : α → α → Prop) (p q : Parser α) : Prop :=
  ∀ ts us, C.tokens ts us → C.AtBy c V p q ts us

/-- What `p` does with the tokens `ts`, `q` does with the tokens `us`. -/
abbrev At (c : Contract) :
    (V : α → α → Prop) → (p q : Parser α) → (ts us : List Token) → Prop :=
  C.AtBy fun _ => c

/-- What `p` does with some tokens, `q` does with corresponding ones. -/
abbrev Sim (c : Contract) : (V : α → α → Prop) → (p q : Parser α) → Prop := C.SimBy fun _ => c

variable {C} {c d e : Contract} {V : α → α → Prop} {W : β → β → Prop} {ts us : List Token}

/-- Where a comparison is strict, the two runs read tokens that are alike. -/
theorem eq_of_strict (h : C.tokens ts us) (hs : C.strict) : Alike ts us := by
  have := C.alike h
  rwa [C.whole h hs, List.take_length] at this

/-- A tame test gives the same answer in both runs, unless the first one has no token left. -/
theorem test_eq {f : List Token → γ} (hf : Tame f) (h : C.tokens ts us)
    (hs : C.strict ∨ ts ≠ []) : f ts = f us := by
  rcases C.closed h with hstrict | hclosed
  · exact hf.alike ts us (eq_of_strict h hstrict)
  · rcases hs with hstrict | hts
    · exact hf.alike ts us (eq_of_strict h hstrict)
    · exact hf.longer ts us hts hclosed (C.alike h)

/-- A contract may be weakened, and the values related less. -/
theorem AtBy.mono {c d : α → Contract} {V' : α → α → Prop} {p q : Parser α}
    (h : C.AtBy c V p q ts us) (hle : ∀ a, (c a).Le (d a)) (hV : ∀ a b, V a b → V' a b) :
    C.AtBy d V' p q ts us where
  ok {a _} hp := by
    obtain ⟨n, b, hn, hrest, hspans, hv, hq⟩ := h.ok hp
    refine ⟨n, b, hn, hrest, hspans.mono (hle a), hV _ _ hv, fun hmet => ?_⟩
    obtain ⟨zs, hzs, hlands⟩ := hq (hmet.imp_right (·.of_followLe (hle a).1))
    exact ⟨zs, hzs, hlands.mono (hle a).2.2.2.2⟩
  error := h.error

theorem AtBy.weaken {c : α → Contract} {p q : Parser α} (h : C.AtBy c V p q ts us)
    (hle : ∀ a, (c a).Le d) : C.At d V p q ts us :=
  h.mono hle fun _ _ h => h

/-- A rule behind which a token must be left passes over no `;` in the second run only. -/
theorem AtBy.tight {c d : α → Contract} {p q : Parser α} (ht : C.tokens ts us)
    (h : C.AtBy c V p q ts us)
    (hd : ∀ a, (d a).follow = none ∧ { c a with follow := none, loose := false }.Le (d a)) :
    C.AtBy d V p q ts us where
  ok {a _} hp := by
    obtain ⟨n, b, hn, hrest, hspans, hv, hq⟩ := h.ok hp
    obtain ⟨hnone, hle⟩ := hd a
    refine ⟨n, b, hn, hrest, Contract.Spans.mono hle ⟨hspans.1, hspans.2, hspans.3⟩, hv, ?_⟩
    intro hmet
    have hleft : C.strict ∨ ts.drop n ≠ [] :=
      hmet.imp_right fun h => h.resolve_right
        fun ⟨ws, hws, _⟩ => by rw [hnone] at hws; cases hws
    obtain ⟨zs, hzs, hlands⟩ := hq (hleft.imp_right .inl)
    refine ⟨zs, hzs, .inl ?_⟩
    rcases hleft with hs | hne
    · exact hlands.eq_of_length (by rw [List.length_drop, List.length_drop, C.whole ht hs])
    · exact hlands.resolve_right fun h => hne h.2.1
  error := h.error

/-- A rule whose runs do not end where they begin reads something. -/
theorem AtBy.progress {p q : Parser α} (h : C.At c V p q ts us)
    (hp : ∀ a rest, p ts = .ok (a, rest) → rest ≠ ts) :
    C.At { c with progress := true } V p q ts us where
  ok {a _} hrun := by
    obtain ⟨n, b, hn, hrest, hspans, hv, hq⟩ := h.ok hrun
    refine ⟨n, b, hn, hrest, ⟨fun _ hnil => ?_, hspans.2, hspans.3⟩, hv, hq⟩
    have hall := List.take_append_drop n ts
    rw [hnil, List.nil_append, ← hrest] at hall
    exact hp a _ hrun hall
  error := h.error

/-! ## Sequences and tests -/

theorem at_pure_by {c : α → Contract} {a b : α} (h : V a b) (hc : Contract.still.Le (c a)) :
    C.AtBy c V (pure a) (pure b) ts us where
  ok hp := by
    cases hp
    exact ⟨0, b, Nat.zero_le _, rfl, (Contract.spans_nil rfl).mono hc, h,
      fun _ => ⟨us, rfl, .inl rfl⟩⟩
  error hp := nomatch hp

/-- Nothing is read, and the values are related. -/
theorem at_pure {a b : α} (h : V a b) : C.At .still V (pure a) (pure b) ts us :=
  at_pure_by h (.refl _)

/-- Both runs fail at the same place. -/
theorem at_fail {c : α → Contract} {p : Problem} :
    C.AtBy c V (Parser.fail p) (Parser.fail p) ts us where
  ok hp := nomatch hp
  error hp _ := by
    cases hp
    exact ⟨0, Nat.zero_le _, rfl, rfl⟩

theorem at_fail_bind {c : β → Contract} {p : Problem} {f g : α → Parser β} :
    C.AtBy c W (Parser.fail p >>= f) (Parser.fail p >>= g) ts us where
  ok hp := nomatch hp
  error hp _ := by
    cases hp
    exact ⟨0, Nat.zero_le _, rfl, rfl⟩

/-- Two rules behind one another, of which the second may be trivial.  The second one is
compared where the first one ends. -/
theorem AtBy.bind_at {c : α → Contract} {d : α → β → Contract} {e : β → Contract}
    {p q : Parser α} {f g : α → Parser β} (ht : C.tokens ts us) (hp : C.AtBy c V p q ts us)
    (hf : ∀ a b n, V a b → n ≤ ts.length → p ts = .ok (a, ts.drop n) →
      (C.AtBy (d a) W (f a) (g b) (ts.drop n) (us.drop n) ∧
        ∀ x mid rest, f a mid = .ok (x, rest) → Contract.Fits (c a) (d a x) (e x)) ∨
        ∃ x y, f a = pure x ∧ g b = pure y ∧ W x y ∧ (c a).Le (e x)) :
    C.AtBy e W (p >>= f) (q >>= g) ts us where
  ok {b rest} hpf := by
    obtain ⟨a, mid, hpa, hfa⟩ := Parser.bind_eq_ok.mp hpf
    obtain ⟨n, a', hn, rfl, hspans, hv, hq⟩ := hp.ok hpa
    rcases hf a a' n hv hn hpa with ⟨hsim, hfit⟩ | ⟨x, y, hx, hy, hw, hle⟩
    · have hfit' := hfit b _ _ hfa
      obtain ⟨m, b', hm, rfl, hspans', hw, hg⟩ := hsim.ok hfa
      rw [List.length_drop] at hm
      refine ⟨n + m, b', by omega, List.drop_drop, ?_, hw, fun hmet => ?_⟩
      · rw [List.take_add]
        exact hspans.append hfit' hspans'
      · rw [← List.drop_drop, ← List.drop_drop] at hmet ⊢
        obtain ⟨zs, hzs, hlands⟩ := hq (hmet.imp_right
          (·.before hfit' (by rw [List.length_drop]; exact hm) hspans'))
        obtain rfl : zs = us.drop n := hlands.eq_of_tight hfit'.1
        obtain ⟨ys, hys, hlands'⟩ := hg (hmet.imp_right (·.of_followLe hfit'.2.2.1))
        exact ⟨ys, Parser.bind_eq_ok.mpr ⟨a', _, hzs, hys⟩, hlands'.mono hfit'.2.2.2.2.2.2⟩
    · rw [hx] at hfa
      cases hfa
      refine ⟨n, y, hn, rfl, hspans.mono hle, hw, fun hmet => ?_⟩
      obtain ⟨zs, hzs, hlands⟩ := hq (hmet.imp_right (·.of_followLe hle.1))
      exact ⟨zs, Parser.bind_eq_ok.mpr ⟨a', zs, hzs, by rw [hy]; rfl⟩, hlands.mono hle.2.2.2.2⟩
  error {err} hpf hs := by
    rcases Parser.bind_eq_error.mp hpf with hpe | ⟨a, mid, hpa, hfe⟩
    · obtain ⟨n, hn, hleft, hqe⟩ := hp.error hpe hs
      exact ⟨n, hn, hleft, Parser.bind_eq_error.mpr (.inl hqe)⟩
    · obtain ⟨n, a', hn, rfl, -, hv, hq⟩ := hp.ok hpa
      rcases hf a a' n hv hn hpa with ⟨hsim, hfit⟩ | ⟨x, y, hx, -⟩
      · obtain ⟨m, hm, hleft, hge⟩ := hsim.error hfe hs
        obtain ⟨zs, hzs, hlands⟩ := hq (.inl hs)
        obtain rfl : zs = us.drop n := hlands.eq_of_length (by
          rw [List.length_drop, List.length_drop, C.whole ht hs])
        rw [List.length_drop] at hm
        rw [List.drop_drop] at hleft hge
        exact ⟨n + m, by omega, hleft, Parser.bind_eq_error.mpr (.inr ⟨a', _, hzs, hge⟩)⟩
      · rw [hx] at hfe
        cases hfe

/-- Behind a rule that ends in different ways, each way is compared alone, and those that do
not occur are left out. -/
theorem AtBy.bind_cases {c : α → Contract} {d : α → β → Contract} {e : β → Contract}
    {p q : Parser α} {f g : α → Parser β} (ht : C.tokens ts us) (hp : C.AtBy c V p q ts us)
    (hf : ∀ a b, V a b →
      (C.SimBy (d a) W (f a) (g b) ∧
        ∀ x mid rest, f a mid = .ok (x, rest) → Contract.Fits (c a) (d a x) (e x)) ∨
        ∃ x y, f a = pure x ∧ g b = pure y ∧ W x y ∧ (c a).Le (e x)) :
    C.AtBy e W (p >>= f) (q >>= g) ts us :=
  hp.bind_at ht fun a b n hv hn _ => (hf a b hv).imp_left fun h =>
    ⟨h.1 _ _ (C.drop n ht hn), h.2⟩

/-- Two rules behind one another. -/
theorem AtBy.bind {c d : α → Contract} {p q : Parser α} {f g : α → Parser β}
    (ht : C.tokens ts us) (hp : C.AtBy c V p q ts us)
    (hf : ∀ a b, V a b → C.Sim (d a) W (f a) (g b)) (hfit : ∀ a, Contract.Fits (c a) (d a) e) :
    C.At e W (p >>= f) (q >>= g) ts us :=
  hp.bind_cases ht fun a b hv => .inl ⟨hf a b hv, fun _ _ _ _ => hfit a⟩

/-- **A rule behind a rule**, if the contracts fit together. -/
theorem SimBy.bind {c d : α → Contract} {p q : Parser α} {f g : α → Parser β}
    (hp : C.SimBy c V p q) (hf : ∀ a b, V a b → C.Sim (d a) W (f a) (g b))
    (hfit : ∀ a, Contract.Fits (c a) (d a) e) : C.Sim e W (p >>= f) (q >>= g) :=
  fun ts us ht => (hp ts us ht).bind ht hf hfit

/-- A value that is computed from what a rule gives. -/
theorem AtBy.map {c : α → Contract} {e : β → Contract} {p q : Parser α} {f g : α → β}
    (ht : C.tokens ts us) (hp : C.AtBy c V p q ts us) (hf : ∀ a b, V a b → W (f a) (g b))
    (hle : ∀ a, (c a).Le (e (f a))) :
    C.AtBy e W (p >>= fun a => pure (f a)) (q >>= fun a => pure (g a)) ts us :=
  hp.bind_cases (d := fun _ _ => .still) ht fun a b hv =>
    .inr ⟨f a, g b, rfl, rfl, hf a b hv, hle a⟩

/-- Values may be changed, if they stay related. -/
theorem SimBy.map {c : α → Contract} {e : β → Contract} {p q : Parser α} {f g : α → β}
    (hp : C.SimBy c V p q) (hf : ∀ a b, V a b → W (f a) (g b))
    (hle : ∀ a, (c a).Le (e (f a))) :
    C.SimBy e W (p >>= fun a => pure (f a)) (q >>= fun a => pure (g a)) :=
  fun ts us ht => (hp ts us ht).map ht hf hle

/-- A look at the tokens ahead, and a rule that depends on what is seen. -/
theorem AtBy.ahead {c : α → Contract} {f : List Token → γ} {g h : γ → Parser α}
    (ht : C.tokens ts us) (hf : Tame f) (hg : C.AtBy c V (g (f ts)) (h (f ts)) ts us)
    (hside : ts ≠ [] ∨ ∀ a, (c a).progress = true ∨ (c a).Covers f) :
    C.AtBy c V (Parser.ahead f >>= g) (Parser.ahead f >>= h) ts us where
  ok {a rest} hp := by
    obtain ⟨n, b, hn, hrest, hspans, hv, hq⟩ := hg.ok hp
    refine ⟨n, b, hn, hrest, hspans, hv, fun hmet => ?_⟩
    have heq : f ts = f us := by
      by_cases hs : C.strict ∨ ts ≠ []
      · exact test_eq hf ht hs
      · obtain ⟨hstrict, hts⟩ := not_or.mp hs
        obtain rfl := not_not.mp hts
        obtain rfl : n = 0 := Nat.le_zero.mp hn
        rcases hside.resolve_left hts a with h | h
        · exact absurd rfl (hspans.progress h)
        · rcases hmet.resolve_left hstrict with h' | ⟨ws, hws, hwords⟩
          · exact absurd rfl h'
          · exact h ws hws us hwords
    obtain ⟨zs, hzs, hlands⟩ := hq hmet
    exact ⟨zs, by rw [heq] at hzs; exact hzs, hlands⟩
  error {e} hp hs := by
    obtain ⟨n, hn, hleft, hqe⟩ := hg.error hp hs
    exact ⟨n, hn, hleft, by rw [test_eq hf ht (.inl hs)] at hqe; exact hqe⟩

/-- A test that asks for a token, and looks for nothing but the words
`ws` if these are given. -/
structure Test (ws : Option (List String)) (f : List Token → Bool) : Prop where
  tame : Tame f
  nil : f [] = false
  words : ∀ vs, ws = some vs → ∀ zs, (∀ w ∈ vs, Ahead.reads w zs = false) → f zs = false

/-- A test that looks at tokens that are there, and is false where there are none. -/
theorem test_of_tame {f : List Token → Bool} (hf : Tame f) (hnil : f [] = false) :
    Test none f :=
  ⟨hf, hnil, nofun⟩

/-- Whether a word comes next. -/
theorem test_reads {w : String} (hw : w ≠ "") : Test (some [w]) (Ahead.reads w) := by
  refine ⟨tame_reads w, Ahead.reads_nil hw, fun vs hvs zs hzs => ?_⟩
  cases hvs
  exact hzs w List.mem_cons_self

theorem test_readsAny {ws : List String} (hws : "" ∉ ws) :
    Test (some ws) (Ahead.readsAny ws) := by
  refine ⟨tame_readsAny ws, ?_, fun vs hvs zs hzs => ?_⟩
  · refine List.any_eq_false.mpr fun w hw => ?_
    rw [Ahead.reads_nil fun h => hws (h ▸ hw)]
    exact Bool.false_ne_true
  · cases hvs
    exact List.any_eq_false.mpr fun w hw => by simp [hzs w hw]

/-- A test that holds has met a token. -/
theorem Test.exists_cons {ws : Option (List String)} {f : List Token → Bool} (hf : Test ws f)
    (h : f ts = true) : ∃ t rest, ts = t :: rest := by
  cases ts with
  | nil => rw [hf.nil] at h; cases h
  | cons t rest => exact ⟨t, rest, rfl⟩

/-- A test before two rules. -/
theorem AtBy.ite {c d e : α → Contract} {ws : Option (List String)} {f : List Token → Bool}
    {p q p' q' : Parser α} (ht : C.tokens ts us) (hf : Test ws f)
    (hp : f ts = true → C.AtBy c V p p' ts us) (hq : f ts = false → C.AtBy d V q q' ts us)
    (hsplit : ∀ a, Contract.Splits ws (c a) (d a) (e a)) :
    C.AtBy e V (Parser.ahead f >>= fun b => if b = true then p else q)
      (Parser.ahead f >>= fun b => if b = true then p' else q') ts us := by
  cases hb : f ts with
  | true =>
    obtain ⟨t, rest, rfl⟩ := hf.exists_cons hb
    refine (AtBy.ahead ht hf.tame ?_ (.inl (List.cons_ne_nil _ _))).mono
      (fun a => (hsplit a).2.1) fun _ _ h => h
    simpa only [hb, if_true] using hp hb
  | false =>
    refine (AtBy.ahead ht hf.tame ?_ (.inr fun a => ?_)).mono (fun a => (hsplit a).2.2)
      fun _ _ h => h
    · simpa only [hb, Bool.false_eq_true, if_false] using hq hb
    · refine (hsplit a).1.imp_right fun hle vs hvs zs hzs => ?_
      obtain ⟨vs', hws, hsub⟩ := Contract.followLe_words hle hvs
      rw [hf.nil, hf.words vs' hws zs fun w hw => hzs w (hsub w hw)]

/-- A test before two rules with the same contract. -/
theorem AtBy.branch {c : α → Contract} {ws : Option (List String)} {f : List Token → Bool}
    {p q p' q' : Parser α} (ht : C.tokens ts us) (hf : Test ws f)
    (hp : f ts = true → C.AtBy c V p p' ts us) (hq : f ts = false → C.AtBy c V q q' ts us)
    (hside : ∀ a, (c a).progress = true ∨ Contract.followLe ws (c a).follow = true) :
    C.AtBy c V (Parser.ahead f >>= fun b => if b = true then p else q)
      (Parser.ahead f >>= fun b => if b = true then p' else q') ts us :=
  AtBy.ite ht hf hp hq fun a => ⟨hside a, .refl _, .refl _⟩

/-- A test before two rules, where a token is left. -/
theorem AtBy.ite_cons {c : α → Contract} {f : List Token → Bool} {p q p' q' : Parser α}
    (ht : C.tokens ts us) (hts : ts ≠ []) (hf : Tame f)
    (hp : f ts = true → C.AtBy c V p p' ts us) (hq : f ts = false → C.AtBy c V q q' ts us) :
    C.AtBy c V (Parser.ahead f >>= fun b => if b = true then p else q)
      (Parser.ahead f >>= fun b => if b = true then p' else q') ts us := by
  refine AtBy.ahead ht hf ?_ (.inl hts)
  cases hb : f ts with
  | true => simpa only [hb, if_true] using hp hb
  | false => simpa only [hb, Bool.false_eq_true, if_false] using hq hb

/-- Both runs fail where no token is left. -/
theorem at_nil {c : α → Contract} {p q : Parser α} {r : Problem} (ht : C.tokens [] us)
    (hp : p [] = .error ⟨r, []⟩) (hq : q [] = .error ⟨r, []⟩) : C.AtBy c V p q [] us where
  ok h := by
    rw [hp] at h
    cases h
  error h hs := by
    rw [hp] at h
    cases h
    obtain rfl : us = [] := List.length_eq_zero_iff.mp (C.whole ht hs).symm
    exact ⟨0, Nat.zero_le _, rfl, hq⟩

/-! ## Reading tokens -/

/-- The first tokens of the two runs have the same content. -/
theorem tokens_cons {t : Token} (h : C.tokens (t :: ts) us) :
    ∃ u us', us = u :: us' ∧ t.content = u.content ∧ C.tokens ts us' := by
  have halike := C.alike h
  cases us with
  | nil => cases halike
  | cons u us => exact ⟨u, us, rfl, (Alike.cons_iff.mp halike).1, C.drop 1 h (by simp)⟩

/-- One word, as a contract for a single word allows it. -/
theorem spans_word {w : String} {t : Token} (h : t.reads w = true) :
    (Contract.word w).Spans [t] where
  progress _ := List.cons_ne_nil _ _
  balanced hb := by
    refine balanced_single (Token.sign?_eq_none ?_)
    rw [Token.text_of_reads h]
    simpa [Contract.word] using hb
  finished hf u hu := by
    obtain rfl : t = u := by simpa using hu
    exact ⟨w, by simpa [Contract.word] using hf, h⟩

/-- The next token is passed over. -/
theorem at_advance {t : Token} (ht : C.tokens (t :: ts) us) (hspans : c.Spans [t]) :
    C.At c (fun _ _ => True) Parser.advance Parser.advance (t :: ts) us where
  ok hp := by
    cases hp
    obtain ⟨u, us, rfl, -⟩ := tokens_cons ht
    exact ⟨1, (), by simp, rfl, hspans, trivial, fun _ => ⟨us, rfl, .inl rfl⟩⟩
  error hp := nomatch hp

/-- The next token is passed over, and a rule is compared behind it. -/
theorem at_step {t : Token} {k k' : Unit → Parser α} (ht : C.tokens (t :: ts) us)
    (hspans : c.Spans [t]) (hk : ∀ us', C.tokens ts us' → C.At d V (k ()) (k' ()) ts us')
    (hfit : Contract.Fits c d e) :
    C.At e V (Parser.advance >>= k) (Parser.advance >>= k') (t :: ts) us := by
  refine (at_advance ht hspans).bind_at (d := fun _ _ => d) ht
    fun _ _ n _ hn hp => .inl ⟨?_, ?_⟩
  · have hdrop : (t :: ts).drop n = ts := by
      have hrun : Parser.advance (t :: ts) = .ok ((), ts) := rfl
      simpa [hrun] using hp.symm
    have htokens := C.drop n ht hn
    rw [hdrop] at htokens ⊢
    exact hk _ htokens
  · exact fun _ _ _ _ => hfit

/-- A word that comes next is the text of a token. -/
theorem exists_reads {w : String} (hw : w ≠ "") (h : Ahead.reads w ts = true) :
    ∃ t rest, ts = t :: rest ∧ t.reads w = true := by
  cases ts with
  | nil => rw [Ahead.reads_nil hw] at h; cases h
  | cons t rest => exact ⟨t, rest, rfl, h⟩

/-- Reading a word or not, as a test before two ways to go on. -/
theorem accept_eq (w : String) (ts : List Token) : Parser.accept w ts =
    if Ahead.reads w ts = true then .ok (true, ts.tail) else .ok (false, ts) := by
  show (if Ahead.reads w ts = true then Parser.advance >>= fun _ =>
    pure true else pure false) ts = _
  split <;> rfl

theorem accept_bind (w : String) (f : Bool → Parser α) : (Parser.accept w >>= f) =
    (Parser.ahead (Ahead.reads w) >>= fun b =>
      if b = true then Parser.advance >>= fun _ => f true else f false) := by
  funext ts
  show ((Parser.accept w ts) >>= fun r => f r.1 r.2) = _
  rw [accept_eq]
  show _ = (if Ahead.reads w ts = true then Parser.advance >>= fun _ => f true else f false) ts
  split <;> rfl

/-- A word or sign that may come next decides between two rules. -/
theorem AtBy.ifAccept {c d e : α → Contract} {w : String} {f g : Bool → Parser α}
    (ht : C.tokens ts us) (hw : w ≠ "") (hp : C.SimBy c V (f true) (g true))
    (hq : Ahead.reads w ts = false → C.AtBy d V (f false) (g false) ts us)
    (hfit : ∀ a, Contract.Fits (.word w) (c a) (e a))
    (hsplit : ∀ a, Contract.Splits (some [w]) (e a) (d a) (e a)) :
    C.AtBy e V (Parser.accept w >>= f) (Parser.accept w >>= g) ts us := by
  rw [accept_bind, accept_bind]
  refine AtBy.ite (c := e) ht (test_reads hw) (fun h => ?_) hq hsplit
  obtain ⟨t, rest, rfl, hread⟩ := exists_reads hw h
  exact (at_advance ht (spans_word hread)).bind_cases (d := fun _ => c) ht
    fun _ _ _ => .inl ⟨hp, fun a _ _ _ => hfit a⟩

/-- A word that may be there, before two rules. -/
theorem At.ifAccept {w : String} {f g : Bool → Parser α} (ht : C.tokens ts us) (hw : w ≠ "")
    (hp : C.Sim c V (f true) (g true))
    (hq : Ahead.reads w ts = false → C.At d V (f false) (g false) ts us)
    (hfit : Contract.Fits (.word w) c e) (hsplit : Contract.Splits (some [w]) e d e) :
    C.At e V (Parser.accept w >>= f) (Parser.accept w >>= g) ts us :=
  AtBy.ifAccept ht hw hp hq (fun _ => hfit) fun _ => hsplit

/-- A word or sign is read if it comes next. -/
theorem sim_accept {w : String} (hw : w ≠ "") :
    C.SimBy (fun b => if b then .word w else .absent w) Eq (Parser.accept w)
      (Parser.accept w) := by
  intro ts us ht
  refine AtBy.ite (c := fun b => if b then .word w else .absent w)
    (d := fun b => if b then .word w else .absent w) ht (test_reads hw) ?_ ?_ ?_
  · intro h
    obtain ⟨t, rest, rfl, hread⟩ := exists_reads hw h
    exact (at_advance ht (spans_word hread)).map ht (fun _ _ _ => rfl) fun _ => .refl _
  · intro _
    refine at_pure_by rfl ?_
    simp [Contract.Le, Contract.still, Contract.absent, Contract.followLe]
  · intro b
    refine ⟨?_, .refl _, .refl _⟩
    cases b
    · exact .inr (by simp [Contract.absent, Contract.followLe])
    · exact .inl rfl

/-- A word or sign must come next. -/
theorem sim_expect {w : String} (hw : w ≠ "") :
    C.Sim (.word w) (fun _ _ => True) (Parser.expect w) (Parser.expect w) := by
  intro ts us ht
  refine AtBy.ite (c := fun _ => .word w) (d := fun _ => .word w) ht (test_reads hw)
    (fun h => ?_) (fun _ => at_fail) fun _ => ⟨.inl rfl, .refl _, .refl _⟩
  obtain ⟨t, rest, rfl, hread⟩ := exists_reads hw h
  exact at_advance ht (spans_word hread)

/-- An identifier is read, whether it is escaped or not. -/
theorem identifier_cons (t : Token) (ts : List Token) : Parser.identifier (t :: ts) =
    if t.kind.isIdentifier then .ok (t, ts) else .error ⟨.expected .identifier, t :: ts⟩ := rfl

/-- Both runs read an identifier, with the same content. -/
theorem sim_identifier : C.Sim .plain (fun t u => t.content = u.content)
    Parser.identifier Parser.identifier := by
  intro ts us ht
  constructor
  · intro a rest hp
    match ts, hp with
    | t :: ts, hp =>
      obtain ⟨u, us, rfl, hcontent, -⟩ := tokens_cons ht
      have hkind : t.kind = u.kind := (Prod.mk.inj hcontent).1
      rw [identifier_cons] at hp ⊢
      split at hp
      · rename_i hident
        obtain ⟨rfl, rfl⟩ : t = a ∧ ts = rest := by simpa using hp
        refine ⟨1, u, by simp, rfl, ?_, hcontent,
          fun _ => ⟨us, by simp [← hkind, hident], .inl rfl⟩⟩
        exact ⟨fun _ => by simp,
          fun _ => balanced_single (Token.sign?_of_isIdentifier hident), nofun⟩
      · cases hp
  · intro e hp hs
    refine ⟨0, Nat.zero_le _, ?_⟩
    match ts, us, C.whole ht hs, hp with
    | [], [], _, hp =>
      cases hp
      exact ⟨rfl, rfl⟩
    | t :: ts, u :: us, _, hp =>
      have hkind : t.kind = u.kind :=
        (Prod.mk.inj (Alike.cons_iff.mp (eq_of_strict ht hs)).1).1
      rw [identifier_cons] at hp ⊢
      split at hp
      · cases hp
      · rename_i hident
        cases hp
        exact ⟨rfl, by simp [← hkind, hident]⟩

/-- The position at hand, which the two runs do not share. -/
theorem at_here : C.At .still (fun _ _ => True) Parser.here Parser.here ts us where
  ok hp := by
    cases hp
    exact ⟨0, _, Nat.zero_le _, rfl, Contract.spans_nil rfl, trivial,
      fun _ => ⟨us, rfl, .inl rfl⟩⟩
  error hp := nomatch hp

/-- A rule that fails where no token is left. -/
theorem AtBy.unless_end {c : α → Contract} {p : Problem} {q q' : Parser α}
    (ht : C.tokens ts us) (hq : ts ≠ [] → C.AtBy c V q q' ts us) :
    C.AtBy c V (Parser.atEnd >>= fun b => if b = true then Parser.fail p else q)
      (Parser.atEnd >>= fun b => if b = true then Parser.fail p else q') ts us := by
  cases ts with
  | nil =>
    refine ⟨fun hp => (nomatch hp), fun hp hs => ?_⟩
    obtain rfl : us = [] := List.length_eq_zero_iff.mp (C.whole ht hs).symm
    cases hp
    exact ⟨0, Nat.zero_le _, rfl, rfl⟩
  | cons t ts =>
    exact AtBy.ahead ht tame_isEmpty (hq (List.cons_ne_nil _ _)) (.inl (List.cons_ne_nil _ _))

/-! ## Repetition -/

/-- The second run has as many tokens as the first one, or more. -/
theorem length_le (h : C.tokens ts us) : ts.length ≤ us.length := by
  have := (C.alike h).length_eq
  rw [List.length_take] at this
  omega

/-- A rule that calls itself. -/
theorem SimBy.fix {c : α → Contract} {step step' : (ι → Parser α) → ι → Parser α}
    (h : ∀ p q, (∀ i, C.SimBy c V (p i) (q i)) → ∀ i, C.SimBy c V (step p i) (step' q i))
    (i : ι) :
    C.SimBy c V (Parser.fix step i) (Parser.fix step' i) := by
  have hdescend : ∀ m n, m ≤ n → (C.strict → m = n) →
      ∀ i, C.SimBy c V (Parser.descend step m i) (Parser.descend step' n i) := by
    intro m
    induction m with
    | zero =>
      intro n _ hs i ts us _
      refine ⟨fun hp => (nomatch hp), fun hp hstrict => ?_⟩
      obtain rfl := hs hstrict
      exact (at_fail (c := c) (V := V)).error hp hstrict
    | succ m ih =>
      intro n hmn hs i
      cases n with
      | zero => omega
      | succ n => exact h _ _ (ih n (by omega) fun hstrict => by have := hs hstrict; omega) i
  intro ts us ht
  have hlen := length_le ht
  have := hdescend (ts.length + 1) (us.length + 1) (by omega)
    (fun hstrict => by rw [C.whole ht hstrict]) i ts us ht
  exact ⟨this.ok, this.error⟩

/-- The contract of a round of a loop: one if there is another round, and
one if there is none. -/
def perRound {σ : Type} (again done : Contract) : σ ⊕ β → Contract
  | .inl _ => again
  | .inr _ => done

/-- Corresponding outcomes of a round of a loop. -/
inductive Step {σ : Type} (V : β → β → Prop) : σ ⊕ β → σ ⊕ β → Prop
  | again (s : σ) : Step V (.inl s) (.inl s)
  | done {b b' : β} (h : V b b') : Step V (.inr b) (.inr b')

/-- **Rounds with a state.**  A round that goes on must fit before the whole again. -/
theorem SimBy.loop {σ : Type} {step step' : σ → Parser (σ ⊕ β)}
    (h : ∀ s, C.SimBy (perRound d e) (Step W) (step s) (step' s))
    (hagain : Contract.Fits d c c) (hdone : e.Le c) (s : σ) :
    C.Sim c W (Parser.loop step s) (Parser.loop step' s) := by
  refine SimBy.fix (fun p q hpq s ts us ht => ?_) s
  refine AtBy.bind_cases (d := fun _ _ => c) ht (h s ts us ht) fun a b hab => ?_
  cases hab with
  | again s => exact .inl ⟨hpq s, fun _ _ _ _ => hagain⟩
  | @done b b' hb => exact .inr ⟨b, b', rfl, rfl, hb, hdone⟩

/-- Rounds that are repeated as long as they say so. -/
theorem SimBy.repeatWhile {step step' : Parser Bool} {d : Bool → Contract}
    (h : C.SimBy d Eq step step') (hmore : Contract.Fits (d true) c c)
    (hstop : (d false).Le c) :
    C.Sim c (fun _ _ => True) (Parser.repeatWhile step) (Parser.repeatWhile step') := by
  refine SimBy.loop (d := d true) (e := d false) (fun _ => ?_) hmore hstop ()
  refine h.map ?_ ?_
  · rintro a _ rfl
    cases a
    · exact .done trivial
    · exact .again ()
  · intro a
    cases a <;> exact .refl _

/-- The contract of an item: one if there is an item, and one if there is none. -/
def perItem (some none : Contract) : Option α → Contract
  | .some _ => some
  | .none => none

/-- Rounds whose values are put together. -/
theorem SimBy.gather [EmptyCollection α] [Append α] {item item' : Parser (Option α)}
    (h : C.SimBy (perItem d e) (Option.Rel V) item item')
    (hmore : Contract.Fits d c c) (hstop : e.Le c) (hempty : V ∅ ∅)
    (happend : ∀ {a a' b b'}, V a a' → V b b' → V (a ++ b) (a' ++ b')) :
    C.Sim c V (Parser.gather item) (Parser.gather item') := by
  refine SimBy.fix (fun p q hpq _ ts us ht => ?_) ()
  refine AtBy.bind_cases (d := fun _ _ => c) ht (h ts us ht) fun a b hab => ?_
  cases hab with
  | none => exact .inr ⟨∅, ∅, rfl, rfl, hempty, hstop⟩
  | @some a b hv =>
    refine .inl ⟨?_, fun _ _ _ _ => hmore⟩
    exact (hpq ()).map (fun _ _ hw => happend hv hw) fun _ => .refl c

/-- What an item gives, once and as often as another one is asked for. -/
theorem SimBy.collect {item item' : Parser α} {more more' : Parser Bool} {m : Bool → Contract}
    {k r : Contract} (hitem : C.Sim c V item item') (hmore : C.SimBy m Eq more more')
    (hk : Contract.Fits (m true) c k) (hagain : Contract.Fits k r r) (hstop : (m false).Le r)
    (he : Contract.Fits c r e) :
    C.Sim e (List.Forall₂ V) (Parser.collect item more) (Parser.collect item' more') := by
  refine hitem.bind (d := fun _ => r) (fun a a' ha => ?_) fun _ => he
  refine SimBy.map ?_ (fun _ _ h => List.Forall₂.cons ha h) fun _ => .refl r
  refine SimBy.gather (d := k) (e := m false) (fun ts us ht => ?_) hagain hstop .nil
    fun h h' => List.rel_append h h'
  refine AtBy.bind_cases (d := fun _ _ => c) ht (hmore ts us ht) ?_
  rintro b _ rfl
  cases b with
  | false => exact .inr ⟨none, none, rfl, rfl, .none, .refl _⟩
  | true =>
    refine .inl ⟨hitem.map (fun _ _ h => .some (.cons h .nil)) fun _ => .refl c, ?_⟩
    intro x mid rest hx
    obtain ⟨a, _, -, hpure⟩ := Parser.bind_eq_ok.mp hx
    cases hpure
    exact hk

/-! ## Source text -/

/-- A run that also gives its tokens gives those that it has read. -/
theorem consumed_eq_ok {p : Parser α} {n : Nat} {a : α} (hn : n ≤ ts.length)
    (h : p ts = .ok (a, ts.drop n)) :
    Parser.consumed p ts = .ok ((a, ts.take n), ts.drop n) := by
  have hcount : ts.length - (ts.drop n).length = n := by
    rw [List.length_drop]
    omega
  unfold Parser.consumed
  rw [h]
  simp only [hcount]

/-- The tokens that a rule reads. -/
theorem SimBy.consumed {c : α → Contract} {p q : Parser α} (h : C.SimBy c V p q)
    (hc : ∀ a, (c a).loose = false) (ht : C.tokens ts us) :
    C.AtBy (fun r => c r.1) (fun r r' => V r.1 r'.1 ∧ ∃ n, n ≤ ts.length ∧
      (c r.1).Spans (ts.take n) ∧ r.2 = ts.take n ∧ r'.2 = us.take n)
      (Parser.consumed p) (Parser.consumed q) ts us where
  ok {r rest} hp := by
    have hpa : p ts = .ok (r.1, rest) ∧ r.2 = ts.take (ts.length - rest.length) := by
      unfold Parser.consumed at hp
      split at hp
      · rename_i heq
        cases hp
        exact ⟨heq, rfl⟩
      · cases hp
    obtain ⟨n, b, hn, rfl, hspans, hv, hq⟩ := (h ts us ht).ok hpa.1
    have hcount : ts.length - (ts.drop n).length = n := by
      rw [List.length_drop]
      omega
    refine ⟨n, (b, us.take n), hn, rfl, hspans, ⟨hv, n, hn, hspans, ?_, rfl⟩, fun hmet => ?_⟩
    · rw [hpa.2, hcount]
    · obtain ⟨zs, hzs, hlands⟩ := hq hmet
      obtain rfl := hlands.eq_of_tight (hc r.1)
      have hlen := length_le ht
      exact ⟨us.drop n, consumed_eq_ok (by omega) hzs, .inl rfl⟩
  error {e} hp hs := by
    have hpe : p ts = .error e := by
      unfold Parser.consumed at hp
      split at hp
      · cases hp
      · rename_i heq
        cases hp
        exact heq
    obtain ⟨n, hn, hleft, hqe⟩ := (h ts us ht).error hpe hs
    refine ⟨n, hn, hleft, ?_⟩
    unfold Parser.consumed
    rw [hqe]

/-- Source text is kept where there is any. -/
theorem keep_eq_pure {a : α} {w : List Token} (hw : w ≠ []) :
    (if w.isEmpty = true then Parser.fail .stalled else pure (a, Token.spelling w)) =
      (pure (a, Token.spelling w) : Parser (α × String)) :=
  if_neg (by rwa [List.isEmpty_iff])

/-- The source text of what a rule reads, which must be something. -/
theorem SimBy.spelled {c : α → Contract} {p q : Parser α} (h : C.SimBy c V p q)
    (hc : ∀ a, (c a).loose = false ∧ (c a).progress = true) :
    C.SimBy (fun r => c r.1) (fun r r' => V r.1 r'.1 ∧ C.text r.2 r'.2 ∧
      ((c r.1).balanced = true → C.code r.2 r'.2))
      (Parser.spelled p) (Parser.spelled q) := by
  intro ts us ht
  refine (h.consumed (fun a => (hc a).1) ht).bind_cases (d := fun _ _ => .still) ht
    fun r r' hr => ?_
  obtain ⟨hv, n, hn, hspans, hr, hr'⟩ := hr
  have hne : ts.take n ≠ [] := hspans.progress (hc r.1).2
  have hne' : us.take n ≠ [] := by
    have hlen := length_le ht
    rw [ne_eq, List.take_eq_nil_iff] at hne ⊢
    rintro (rfl | rfl)
    · exact hne (.inl rfl)
    · exact hne (.inr (List.length_eq_zero_iff.mp (Nat.le_zero.mp hlen)))
  refine .inr ⟨(r.1, Token.spelling r.2), (r'.1, Token.spelling r'.2), keep_eq_pure (hr ▸ hne),
    keep_eq_pure (hr' ▸ hne'), ?_, .refl _⟩
  simp only [hr, hr']
  exact ⟨hv, C.text_spelling n ht hn,
    fun hbal => C.code_spelling n ht hn (hspans.balanced hbal)⟩

/-- The source text of a rule, for a rule that reads something and lands at one place. -/
theorem SimBy.verbatim_text {p q : Parser Unit} {V : Unit → Unit → Prop} (h : C.Sim c V p q)
    (hc : c.loose = false ∧ c.progress = true) :
    C.Sim c C.text (Parser.verbatim p) (Parser.verbatim q) :=
  (h.spelled fun _ => hc).map (fun _ _ h => h.2.1) fun _ => .refl c

/-- The same for a rule that pairs its brackets, whose text is code. -/
theorem SimBy.verbatim_code {p q : Parser Unit} {V : Unit → Unit → Prop} (h : C.Sim c V p q)
    (hc : (c.loose = false ∧ c.progress = true) ∧ c.balanced = true) :
    C.Sim c C.code (Parser.verbatim p) (Parser.verbatim q) :=
  (h.spelled fun _ => hc.1).map (fun _ _ h => h.2.2 hc.2) fun _ => .refl c

end Comparison

end SharpScript
