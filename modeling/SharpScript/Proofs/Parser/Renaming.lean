import SharpScript.Proofs.Lexer.Lines
import SharpScript.Proofs.Parser.Comparison

/-! # Two runs of a parser on renamed tokens

An escaped word is an identifier, and which one it is should not matter to a parser.  A
parser is run on the tokens of a source text, and on the same tokens with an escaped
word renamed throughout.  The second run does what the first one does if no rule looks
for the word by its text.

## Main Definitions

* `ruleKeywords`, `ruleNames`, `ruleSigns`: what the rules of the grammar
  look for by its text alone;
* `Renaming`: an escaped keyword and the name that is put in its place;
* `Renaming.Tokens`: lists of tokens of which the second one is the first one renamed;
* `Renaming.Steady`: tests on the tokens ahead with the same answer
  before and behind a renaming;
* `Renaming.Follows`: **the second run does what the first one does**.

## Main Results

* `Renaming.Follows.bind`, `Renaming.Follows.ite`: one rule behind another, and
  a test before two rules;
* `Renaming.Follows.fix`, `Renaming.Follows.gather`: rules that call
  themselves, and repetition;
* `Renaming.Follows.spelled`: source text.
-/

namespace SharpScript

open Lexer

/-- The keywords that rules of the grammar look for by their text alone. -/
def ruleKeywords : List String := [
  "catch", "checked", "class", "delegate", "do", "else", "enum", "event", "explicit", "extern",
  "finally", "fixed", "for", "foreach", "if", "implicit", "interface", "lock", "namespace",
  "operator", "static", "struct", "switch", "this", "try", "unchecked", "unsafe",
  "using", "while"]

/-- The words other than keywords that rules of the grammar look for by their text alone. -/
def ruleNames : List String := [
  "add", "alias", "assembly", "async", "await", "file", "get", "global", "init", "module",
  "partial", "record", "remove", "required", "scoped", "set", "void", "when", "where", "yield"]

/-- The signs that rules of the grammar look for by their text alone. -/
def ruleSigns : List String := [
  "=>", "::", "~", "<", ">", "=", "(", ")", "[", "]", Text.openBrace, Text.closeBrace, ",",
  ":", ";", ".", "?", "*"]

/-- All that rules of the grammar look for by its text alone. -/
def ruleWords : List String := ruleKeywords ++ ruleNames ++ ruleSigns

/-- A token, with the escaped word `old` renamed to `new`. -/
def Token.rename (old new : String) (t : Token) : Token :=
  if t.kind = .identifier true ∧ t.text = old then
    { t with kind := .identifier false, text := new }
  else t

/-- An escaped keyword and the name that is put in its place.  No rule
looks for either of them. -/
structure Renaming where
  old : String
  new : String
  old_mem : old ∈ keywords
  old_not_mem : old ∉ ruleKeywords
  new_isName : isName new = true
  new_not_mem : new ∉ ruleNames

namespace Renaming

variable (ρ : Renaming)

/-- No rule looks for the escaped keyword. -/
theorem old_not_mem_ruleWords : ρ.old ∉ ruleWords := by
  have hothers : ∀ w ∈ keywords, w ∉ ruleNames ++ ruleSigns := by decide
  rw [ruleWords, List.append_assoc, List.mem_append]
  exact not_or.mpr ⟨ρ.old_not_mem, hothers ρ.old ρ.old_mem⟩

/-- No rule looks for the new name. -/
theorem new_not_mem_ruleWords : ρ.new ∉ ruleWords := by
  have hkeywords : ∀ w ∈ ruleKeywords, isName w = false := by decide +kernel
  have hsigns : ∀ w ∈ ruleSigns, isName w = false := by decide +kernel
  intro h
  rcases List.mem_append.mp h with h | h
  · rcases List.mem_append.mp h with h | h
    · exact Bool.false_ne_true ((hkeywords _ h).symm.trans ρ.new_isName)
    · exact ρ.new_not_mem h
  · exact Bool.false_ne_true ((hsigns _ h).symm.trans ρ.new_isName)

/-! ## Words -/

/-- The name that a name is renamed to. -/
def word (s : String) : String := if s = ρ.old then ρ.new else s

/-- The same text, or the escaped keyword and the name that is put in its place. -/
def Word (a b : String) : Prop := a = b ∨ a = ρ.old ∧ b = ρ.new

variable {ρ}

/-- A word that a rule looks for is neither the old text nor the new one, so it is found or not
in both. -/
theorem Word.eq_iff {a b v : String} (h : ρ.Word a b) (hv : v ∈ ruleWords) :
    a = v ↔ b = v := by
  rcases h with rfl | ⟨rfl, rfl⟩
  · exact Iff.rfl
  · have hold : ρ.old ≠ v := fun h => ρ.old_not_mem_ruleWords (h ▸ hv)
    have hnew : ρ.new ≠ v := fun h => ρ.new_not_mem_ruleWords (h ▸ hv)
    exact ⟨fun h => absurd h hold, fun h => absurd h hnew⟩

theorem Word.beq_eq {a b v : String} (h : ρ.Word a b) (hv : v ∈ ruleWords) :
    (a == v) = (b == v) := by
  rw [Bool.eq_iff_iff, beq_iff_eq, beq_iff_eq]
  exact h.eq_iff hv

/-- The same for several words at once. -/
theorem Word.contains_eq {a b : String} (h : ρ.Word a b) {vs : List String}
    (hvs : vs ⊆ ruleWords) :
    vs.contains a = vs.contains b := by
  rw [Bool.eq_iff_iff, List.contains_iff_mem, List.contains_iff_mem]
  constructor
  · intro ha
    rwa [(h.eq_iff (hvs ha)).mp rfl]
  · intro hb
    rwa [(h.eq_iff (hvs hb)).mpr rfl]

/-! ## Tokens -/

variable (ρ) in
/-- A token, with the escaped keyword renamed. -/
def token (t : Token) : Token := t.rename ρ.old ρ.new

variable (ρ) in
/-- The token `u` is the token `t` renamed, wherever the two stand.  The new name is not there
before. -/
structure Takes (t u : Token) : Prop where
  content : u.content = (ρ.token t).content
  gap : u.gap = t.gap
  shaped : WellShaped t
  fresh : t.text ≠ ρ.new

section Takes

variable {t u : Token}

/-- An identifier that is not escaped is no keyword. -/
theorem text_not_mem_keywords (h : WellShaped t) (hk : t.kind = .identifier false) :
    t.text ∉ keywords := by
  have hlexeme : t.lexeme = t.text := by simp [Token.lexeme, hk]
  unfold WellShaped at h
  rw [hk, hlexeme] at h
  generalize hkind : Kind.identifier false = k at h
  generalize hchars : t.text.toList = w at h
  cases h with
  | literal h => subst hkind; cases h
  | word =>
    unfold wordKind at hkind
    split at hkind
    · cases hkind
    · rename_i hmem
      rw [← hchars, String.ofList_toList] at hmem
      exact fun h => hmem (List.contains_iff_mem.mpr h)
  | escaped => cases hkind
  | operator => cases hkind

/-- A token is kept, and then it is no identifier with the old text, or it is the one that is
renamed. -/
theorem Takes.cases (h : ρ.Takes t u) :
    u.kind = t.kind ∧ u.text = t.text ∧ (t.kind.isIdentifier = true → t.text ≠ ρ.old) ∨
      t.kind = .identifier true ∧ t.text = ρ.old ∧ u.kind = .identifier false ∧
      u.text = ρ.new := by
  obtain ⟨hcontent, -, hshaped, -⟩ := h
  unfold Renaming.token Token.rename at hcontent
  split at hcontent
  · rename_i hold
    obtain ⟨hkind, htext⟩ := Prod.mk.inj hcontent
    exact .inr ⟨hold.1, hold.2, hkind, htext⟩
  · rename_i hold
    obtain ⟨hkind, htext⟩ := Prod.mk.inj hcontent
    refine .inl ⟨hkind, htext, fun hident hword => ?_⟩
    cases hk : t.kind with
    | identifier escaped =>
      cases escaped with
      | true => exact hold ⟨hk, hword⟩
      | false => exact text_not_mem_keywords hshaped hk (hword ▸ ρ.old_mem)
    | _ => simp [hk, Kind.isIdentifier] at hident

/-- The texts of corresponding tokens are the same or renamed. -/
theorem Takes.word (h : ρ.Takes t u) : ρ.Word t.text u.text := by
  rcases h.cases with ⟨-, htext, -⟩ | ⟨-, hold, -, hnew⟩
  · exact .inl htext.symm
  · exact .inr ⟨hold, hnew⟩

/-- An escaped identifier is renamed to a plain one, so identifiers stay identifiers. -/
theorem Takes.isIdentifier_eq (h : ρ.Takes t u) :
    t.kind.isIdentifier = u.kind.isIdentifier := by
  rcases h.cases with ⟨hkind, -⟩ | ⟨hkind, -, hkind', -⟩
  · rw [hkind]
  · rw [hkind, hkind']
    rfl

theorem Takes.isWord_eq (h : ρ.Takes t u) : t.kind.isWord = u.kind.isWord := by
  rcases h.cases with ⟨hkind, -⟩ | ⟨hkind, -, hkind', -⟩
  · rw [hkind]
  · rw [hkind, hkind']
    rfl

theorem Takes.isLiteral_eq (h : ρ.Takes t u) : t.kind.isLiteral = u.kind.isLiteral := by
  rcases h.cases with ⟨hkind, -⟩ | ⟨hkind, -, hkind', -⟩
  · rw [hkind]
  · rw [hkind, hkind']
    rfl

/-- A token that is no identifier is kept, and an identifier stays one. -/
theorem Takes.guarded_eq (h : ρ.Takes t u) {k : Kind} (hk : k.isIdentifier = false)
    (f : String → Bool) : (t.kind == k && f t.text) = (u.kind == k && f u.text) := by
  rcases h.cases with ⟨hkind, htext, -⟩ | ⟨hkind, -, hkind', -⟩
  · rw [hkind, htext]
  · have hne : ∀ b, (Kind.identifier b == k) = false := by
      intro b
      rw [beq_eq_false_iff_ne]
      rintro rfl
      cases hk
    rw [hkind, hkind', hne, hne]
    rfl

/-- A rule that looks for a word by its text finds it in both tokens or in neither. -/
theorem Takes.reads_eq (h : ρ.Takes t u) {v : String} (hv : v ∈ ruleWords) :
    t.reads v = u.reads v := by
  rw [Token.reads, Token.reads, h.word.beq_eq hv, h.isLiteral_eq]

/-- Signs are not renamed. -/
theorem Takes.isOperator_eq (h : ρ.Takes t u) (v : String) : t.isOperator v = u.isOperator v :=
  h.guarded_eq rfl (· == v)

/-- The name that an identifier is renamed to. -/
theorem Takes.name_eq (h : ρ.Takes t u) (hident : t.kind.isIdentifier = true) :
    u.text = ρ.word t.text := by
  rcases h.cases with ⟨-, htext, hold⟩ | ⟨-, hold, -, hnew⟩
  · rw [Renaming.word, if_neg (hold hident), htext]
  · rw [Renaming.word, if_pos hold, hnew]

end Takes

variable (ρ) in
/-- Consecutive tokens of a source text, and the same tokens renamed in another one. -/
structure Tokens (ts us : List Token) : Prop where
  takes : List.Forall₂ ρ.Takes ts us
  lexed : Lexed ts
  lexed' : Lexed us

namespace Tokens

variable {t : Token} {ts us : List Token}

theorem length_eq (h : ρ.Tokens ts us) : ts.length = us.length := h.takes.length_eq

theorem drop (h : ρ.Tokens ts us) (n : Nat) : ρ.Tokens (ts.drop n) (us.drop n) :=
  ⟨List.forall₂_drop n h.takes, h.lexed.drop n, h.lexed'.drop n⟩

theorem take (h : ρ.Tokens ts us) (n : Nat) : ρ.Tokens (ts.take n) (us.take n) :=
  ⟨List.forall₂_take n h.takes, h.lexed.take n, h.lexed'.take n⟩

theorem tail (h : ρ.Tokens ts us) : ρ.Tokens ts.tail us.tail := by
  rw [← List.drop_one, ← List.drop_one]
  exact h.drop 1

theorem eq_nil (h : ρ.Tokens [] us) : us = [] := by
  obtain ⟨⟨⟩, -⟩ := h
  rfl

/-- Renamed tokens correspond one by one. -/
theorem exists_cons (h : ρ.Tokens (t :: ts) us) :
    ∃ u us', us = u :: us' ∧ ρ.Takes t u ∧ ρ.Tokens ts us' := by
  obtain ⟨htakes, hlexed, hlexed'⟩ := h
  cases htakes with
  | cons hhead htail => exact ⟨_, _, rfl, hhead, htail, hlexed.drop 1, hlexed'.drop 1⟩

/-- At each place there are two corresponding tokens or none. -/
theorem getElem? (h : ρ.Tokens ts us) (n : Nat) :
    ts[n]? = none ∧ us[n]? = none ∨ ∃ t u, ts[n]? = some t ∧ us[n]? = some u ∧
      ρ.Takes t u := by
  have hdrop := (h.drop n).takes
  rw [← List.head?_drop, ← List.head?_drop]
  revert hdrop
  generalize ts.drop n = ts', us.drop n = us'
  rintro (_ | ⟨htakes, -⟩)
  · exact .inl ⟨rfl, rfl⟩
  · exact .inr ⟨_, _, rfl, rfl, htakes⟩

end Tokens

/-! ## Tests -/

variable (ρ) in
/-- A test on the tokens ahead gives the same answer for renamed tokens. -/
def Steady {γ : Type} (f : List Token → γ) : Prop := ∀ ts us, ρ.Tokens ts us → f ts = f us

section Steady

variable {f g : List Token → Bool}

theorem Steady.and (hf : ρ.Steady f) (hg : ρ.Steady g) : ρ.Steady fun ts => f ts && g ts :=
  fun _ _ h => by simp only [hf _ _ h, hg _ _ h]

theorem Steady.or (hf : ρ.Steady f) (hg : ρ.Steady g) : ρ.Steady fun ts => f ts || g ts :=
  fun _ _ h => by simp only [hf _ _ h, hg _ _ h]

theorem Steady.not (hf : ρ.Steady f) :
    ρ.Steady fun ts => !f ts := fun _ _ h => by simp only [hf _ _ h]

theorem steady_isEmpty : ρ.Steady List.isEmpty := by
  intro ts us h
  rw [Bool.eq_iff_iff, List.isEmpty_iff_length_eq_zero,
    List.isEmpty_iff_length_eq_zero, h.length_eq]

/-- Whether a word comes next that a rule looks for. -/
theorem steady_reads {v : String} (hv : v ∈ ruleWords) : ρ.Steady (Ahead.reads v) := by
  intro ts us h
  cases ts with
  | nil => rw [h.eq_nil]
  | cons t ts =>
    obtain ⟨u, us, rfl, hhead, -⟩ := h.exists_cons
    exact hhead.reads_eq hv

theorem steady_readsAny {vs : List String} (hvs : vs ⊆ ruleWords) :
    ρ.Steady (Ahead.readsAny vs) := by
  intro ts us h
  unfold Ahead.readsAny
  induction vs with
  | nil => rfl
  | cons v vs ih =>
    obtain ⟨hv, hvs⟩ := List.cons_subset.mp hvs
    rw [List.any_cons, List.any_cons, steady_reads hv ts us h, ih hvs]

/-- The text of a token ahead, which is empty where there is none. -/
theorem word_text (n : Nat) {ts us : List Token} (h : ρ.Tokens ts us) :
    ρ.Word (Ahead.text n ts) (Ahead.text n us) := by
  rcases h.getElem? n with ⟨hts, hus⟩ | ⟨t, u, hts, hus, htakes⟩
  · simp only [Ahead.text, hts, hus]
    exact .inl rfl
  · simp only [Ahead.text, hts, hus]
    exact htakes.word

/-- Whether the text of a token ahead is one that rules look for. -/
theorem steady_text (n : Nat) {v : String} (hv : v ∈ ruleWords) :
    ρ.Steady fun ts => Ahead.text n ts == v :=
  fun _ _ h => (word_text n h).beq_eq hv

theorem steady_textAny (n : Nat) {vs : List String} (hvs : vs ⊆ ruleWords) :
    ρ.Steady fun ts => vs.contains (Ahead.text n ts) :=
  fun _ _ h => (word_text n h).contains_eq hvs

theorem steady_isWord (n : Nat) : ρ.Steady (Ahead.isWord n) := by
  intro ts us h
  rcases h.getElem? n with ⟨hts, hus⟩ | ⟨t, u, hts, hus, htakes⟩
  · simp only [Ahead.isWord, hts, hus]
  · simp only [Ahead.isWord, hts, hus]
    exact htakes.isWord_eq

theorem steady_isIdentifier (n : Nat) : ρ.Steady (Ahead.isIdentifier n) := by
  intro ts us h
  rcases h.getElem? n with ⟨hts, hus⟩ | ⟨t, u, hts, hus, htakes⟩
  · simp only [Ahead.isIdentifier, hts, hus]
  · simp only [Ahead.isIdentifier, hts, hus]
    exact htakes.isIdentifier_eq

/-- Whether a sign comes next, which is never renamed. -/
theorem steady_isOperator (vs : List String) : ρ.Steady (Ahead.isOperator vs) := by
  intro ts us h
  cases ts with
  | nil => rw [h.eq_nil]
  | cons t ts =>
    obtain ⟨u, us, rfl, htakes, -⟩ := h.exists_cons
    exact htakes.guarded_eq rfl vs.contains

end Steady

/-! ## Runs -/

variable {α β ι : Type}

variable (ρ) in
/-- The runs of two parsers end alike: with corresponding values at corresponding tokens, or
with the same problem there. -/
inductive Outcome (V : α → α → Prop) :
    Except Failure (α × List Token) → Except Failure (α × List Token) → Prop
  | ok {a b : α} {ts us : List Token} (hv : V a b) (h : ρ.Tokens ts us) :
      Outcome V (.ok (a, ts)) (.ok (b, us))
  | error (p : Problem) {ts us : List Token} (h : ρ.Tokens ts us) :
      Outcome V (.error ⟨p, ts⟩) (.error ⟨p, us⟩)

variable (ρ) in
/-- What the parser `p` does with some tokens, `q` does with the tokens renamed. -/
def Follows (V : α → α → Prop) (p q : Parser α) : Prop :=
  ∀ ts us, ρ.Tokens ts us → ρ.Outcome V (p ts) (q us)

variable {V : α → α → Prop} {W : β → β → Prop} {p q p' q' : Parser α}

/-- A parser behind another one, at the tokens that the first one leaves in two given runs. -/
theorem Outcome.bind {ts us : List Token} {f g : α → Parser β} (h : ρ.Outcome V (p ts) (q us))
    (hf : ∀ a b mid mid', V a b → ρ.Tokens mid mid' → p ts = .ok (a, mid) →
      q us = .ok (b, mid') → ρ.Outcome W (f a mid) (g b mid')) :
      ρ.Outcome W ((p >>= f) ts) ((q >>= g) us) := by
  change ρ.Outcome W (p ts >>= fun r => f r.1 r.2) (q us >>= fun r => g r.1 r.2)
  generalize hp : p ts = x, hq : q us = y at h
  cases h with
  | ok hv htokens => exact hf _ _ _ _ hv htokens hp hq
  | error problem htokens => exact .error problem htokens

/-- A rule behind a rule.  The second one may depend on what the first one gives, if it does so
alike. -/
theorem Follows.bind {f g : α → Parser β} (hp : ρ.Follows V p q)
    (hf : ∀ a b, V a b → ρ.Follows W (f a) (g b)) : ρ.Follows W (p >>= f) (q >>= g) :=
  fun ts us h => (hp ts us h).bind fun a b _ _ hv hmid _ _ => hf a b hv _ _ hmid

/-- A parser behind another one, whatever that one gives. -/
theorem Follows.next {k k' : Parser β} (hp : ρ.Follows V p q) (hk : ρ.Follows W k k') :
    ρ.Follows W (p >>= fun _ => k) (q >>= fun _ => k') := hp.bind fun _ _ _ => hk

/-- Nothing is read, and the values correspond. -/
theorem follows_pure {a b : α} (h : V a b) : ρ.Follows V (pure a) (pure b) :=
  fun _ _ ht => .ok h ht

/-- The same problem at corresponding tokens. -/
theorem follows_fail (problem : Problem) :
    ρ.Follows V (Parser.fail problem) (Parser.fail problem) :=
  fun _ _ ht => .error problem ht

theorem Follows.map {f g : α → β} (hp : ρ.Follows V p q) (hf : ∀ a b, V a b → W (f a) (g b)) :
    ρ.Follows W (f <$> p) (g <$> q) := by
  rw [map_eq_pure_bind, map_eq_pure_bind]
  exact hp.bind fun a b hv => follows_pure (hf a b hv)

/-- A look at the tokens ahead that reads none of them. -/
theorem follows_ahead {f : List Token → α} (hf : ∀ ts us, ρ.Tokens ts us → V (f ts) (f us)) :
    ρ.Follows V (Parser.ahead f) (Parser.ahead f) := fun ts us ht => .ok (hf ts us ht) ht

/-- A test that does not depend on names, as a parser. -/
theorem Steady.follows {f : List Token → α} (hf : ρ.Steady f) :
    ρ.Follows Eq (Parser.ahead f) (Parser.ahead f) := follows_ahead hf

/-- A test before two rules. -/
theorem Follows.ite {c c' : Parser Bool} (hc : ρ.Follows Eq c c') (hp : ρ.Follows V p p')
    (hq : ρ.Follows V q q') : ρ.Follows V (c >>= fun b => if b = true then p else q)
      (c' >>= fun b => if b = true then p' else q') := by
  refine hc.bind ?_
  rintro b _ rfl
  cases b with
  | true => exact hp
  | false => exact hq

/-- A parser that is run only if a test says so, and one that is run behind it in any case. -/
theorem Follows.optional {c c' : Parser Bool} {k k' : Parser β} (hc : ρ.Follows Eq c c')
    (hp : ρ.Follows V p p') (hk : ρ.Follows W k k') :
    ρ.Follows W (c >>= fun b => if b = true then p >>= fun _ => k else k)
      (c' >>= fun b => if b = true then p' >>= fun _ => k' else k') :=
  .ite hc (hp.next hk) hk

/-- A test before two parsers, in two given runs. -/
theorem Steady.outcome {f : List Token → Bool} (hf : ρ.Steady f) {ts us : List Token}
    (h : ρ.Tokens ts us) (hp : f ts = true → ρ.Outcome V (p ts) (p' us))
    (hq : f ts = false → ρ.Outcome V (q ts) (q' us)) :
    ρ.Outcome V ((Parser.ahead f >>= fun b => if b = true then p else q) ts)
      ((Parser.ahead f >>= fun b => if b = true then p' else q') us) := by
  change ρ.Outcome V ((if f ts = true then p else q) ts) ((if f us = true then p' else q') us)
  rw [← hf ts us h]
  cases hts : f ts with
  | true => exact hp hts
  | false => exact hq hts

/-! ## Reading tokens -/

/-- Nothing is said of values that tell nothing. -/
def Any (_ _ : α) : Prop := True

theorem follows_advance : ρ.Follows Any Parser.advance Parser.advance :=
  fun _ _ ht => .ok trivial ht.tail

theorem follows_atEnd : ρ.Follows Eq Parser.atEnd Parser.atEnd := steady_isEmpty.follows

/-- A word that a rule looks for is ahead in both runs or in neither. -/
theorem follows_isAt {v : String} (hv : v ∈ ruleWords) :
    ρ.Follows Eq (Parser.isAt v) (Parser.isAt v) := (steady_reads hv).follows

/-- It is read in both runs or in neither. -/
theorem follows_accept {v : String} (hv : v ∈ ruleWords) :
    ρ.Follows Eq (Parser.accept v) (Parser.accept v) :=
  .ite (follows_isAt hv) (follows_advance.next (follows_pure rfl)) (follows_pure rfl)

/-- It is missing in both runs or in neither. -/
theorem follows_expect {v : String} (hv : v ∈ ruleWords) :
    ρ.Follows Any (Parser.expect v) (Parser.expect v) :=
  .ite (follows_isAt hv) follows_advance (follows_fail _)

theorem follows_here : ρ.Follows Any Parser.here Parser.here := fun _ _ ht => .ok trivial ht

variable (ρ) in
/-- Corresponding identifiers. -/
def Identifiers (t u : Token) : Prop := ρ.Takes t u ∧ t.kind.isIdentifier = true

/-- An identifier, and behind it a parser that may look back at it. -/
theorem follows_identifier_bind {f g : Token → Parser α}
    (hf : ∀ t u ts us, ρ.Identifiers t u → ρ.Tokens (t :: ts) (u :: us) →
      ρ.Outcome V (f t ts) (g u us)) :
    ρ.Follows V (Parser.identifier >>= f) (Parser.identifier >>= g) := by
  intro ts us h
  cases ts with
  | nil =>
    obtain rfl := h.eq_nil
    exact .error _ h
  | cons t ts =>
    obtain ⟨u, us, rfl, htakes, htail⟩ := h.exists_cons
    change ρ.Outcome V (Parser.identifier (t :: ts) >>= fun r => f r.1 r.2)
      (Parser.identifier (u :: us) >>= fun r => g r.1 r.2)
    rw [Comparison.identifier_cons, Comparison.identifier_cons, ← htakes.isIdentifier_eq]
    split
    · rename_i hident
      exact hf t u ts us ⟨htakes, hident⟩ h
    · exact .error _ h

/-- The identifiers that are read correspond, which is where the new name comes in. -/
theorem follows_identifier : ρ.Follows ρ.Identifiers Parser.identifier Parser.identifier := by
  rw [← bind_pure Parser.identifier]
  exact follows_identifier_bind fun _ _ _ _ hident h => .ok hident (h.drop 1)

/-- The name of the second identifier is determined by that of the first one. -/
theorem Identifiers.text_eq {t u : Token} (h : ρ.Identifiers t u) : u.text = ρ.word t.text :=
  h.1.name_eq h.2

/-! ## Repetition -/

/-- Rules that call themselves.  The bound on the calls is the number of tokens, which is the
same. -/
theorem Follows.fix {I : ι → ι → Prop} {step step' : (ι → Parser α) → ι → Parser α}
    (h : ∀ p q, (∀ i j, I i j → ρ.Follows V (p i) (q j)) →
      ∀ i j, I i j → ρ.Follows V (step p i) (step' q j)) {i j : ι} (hij : I i j) :
    ρ.Follows V (Parser.fix step i) (Parser.fix step' j) := by
  have hdescend : ∀ n i j, I i j →
      ρ.Follows V (Parser.descend step n i) (Parser.descend step' n j) := by
    intro n
    induction n with
    | zero => exact fun _ _ _ => follows_fail _
    | succ n ih => exact fun i j hij => h _ _ ih i j hij
  intro ts us ht
  unfold Parser.fix
  rw [← ht.length_eq]
  exact hdescend _ i j hij ts us ht

/-- Corresponding outcomes of a round of a loop. -/
inductive Round {σ : Type} (S : σ → σ → Prop) (V : α → α → Prop) : σ ⊕ α → σ ⊕ α → Prop
  | again {s s' : σ} (h : S s s') : Round S V (.inl s) (.inl s')
  | done {a b : α} (h : V a b) : Round S V (.inr a) (.inr b)

/-- Rounds with a state, if the states correspond. -/
theorem Follows.loop {σ : Type} {S : σ → σ → Prop} {step step' : σ → Parser (σ ⊕ α)}
    (h : ∀ s s', S s s' → ρ.Follows (Round S V) (step s) (step' s')) {s s' : σ} (hs : S s s') :
    ρ.Follows V (Parser.loop step s) (Parser.loop step' s') := by
  refine .fix (fun p q hpq s s' hs => (h s s' hs).bind ?_) hs
  rintro _ _ (⟨hs⟩ | ⟨hv⟩)
  · exact hpq _ _ hs
  · exact follows_pure hv

/-- Rounds that are repeated as long as they say so. -/
theorem Follows.repeatWhile {step step' : Parser Bool} (h : ρ.Follows Eq step step') :
    ρ.Follows Any (Parser.repeatWhile step) (Parser.repeatWhile step') := by
  refine .loop (S := Eq) (fun _ _ _ => h.bind ?_) rfl
  rintro b _ rfl
  cases b with
  | true => exact follows_pure (.again rfl)
  | false => exact follows_pure (.done trivial)

/-- Rounds whose values are put together. -/
theorem Follows.gather [EmptyCollection α] [Append α] {item item' : Parser (Option α)}
    (h : ρ.Follows (Option.Rel V) item item') (hempty : V ∅ ∅)
    (happend : ∀ {a a' b b'}, V a a' → V b b' → V (a ++ b) (a' ++ b')) :
    ρ.Follows V (Parser.gather item) (Parser.gather item') := by
  refine .fix (I := Eq) (fun p q hpq _ _ _ => h.bind ?_) rfl
  rintro _ _ (⟨hv⟩ | _)
  · exact (hpq () () rfl).bind fun _ _ hw => follows_pure (happend hv hw)
  · exact follows_pure hempty

/-- A list of what an item gives, as long as there is one. -/
theorem Follows.gatherList {item item' : Parser (Option (List α))}
    (h : ρ.Follows (Option.Rel (List.Forall₂ V)) item item') :
    ρ.Follows (List.Forall₂ V) (Parser.gather item) (Parser.gather item') :=
  h.gather .nil fun h h' => List.rel_append h h'

/-- Values with separators between them. -/
theorem Follows.collect {more more' : Parser Bool} (hp : ρ.Follows V p q)
    (hmore : ρ.Follows Eq more more') :
    ρ.Follows (List.Forall₂ V) (Parser.collect p more) (Parser.collect q more') := by
  refine hp.bind fun a b hv => ?_
  refine (Follows.gatherList (V := V) (.ite hmore ?_ (follows_pure .none))).bind
    fun _ _ hrest => follows_pure (.cons hv hrest)
  exact hp.bind fun a b hv => follows_pure (.some (.cons hv .nil))

/-- A comma that a further value comes behind. -/
theorem follows_commaBefore {v : String} (hv : v ∈ ruleWords) :
    ρ.Follows Eq (Parser.commaBefore v) (Parser.commaBefore v) := by
  refine .ite (follows_accept (by decide)) ((follows_isAt hv).bind ?_) (follows_pure rfl)
  rintro b _ rfl
  exact follows_pure rfl

/-! ## Source text -/

variable (ρ) in
/-- The source text of consecutive tokens, and the same text renamed. -/
def Slices (s s' : String) : Prop :=
  ∃ vs ws, vs ≠ [] ∧ Lexed vs ∧ Lexed ws ∧ Shifted (vs.map ρ.token) ws ∧
    s = Token.spelling vs ∧ s' = Token.spelling ws

/-- Renaming keeps what stands before a token. -/
theorem gap_token (t : Token) : (ρ.token t).gap = t.gap := by
  unfold Renaming.token Token.rename
  split <;> rfl

theorem map_gap_token (ts : List Token) :
    (ts.map ρ.token).map Token.gap = ts.map Token.gap := by
  rw [List.map_map]
  exact List.map_congr_left fun t _ => gap_token t

/-- Renaming looks at the content of a token alone. -/
theorem content_token_congr {t u : Token} (h : t.content = u.content) :
    (ρ.token t).content = (ρ.token u).content := by
  obtain ⟨hkind, htext⟩ := Prod.mk.inj h
  unfold Renaming.token Token.rename
  rw [hkind, htext]
  split
  · rfl
  · exact h

theorem alike_map_token {ts us : List Token} (h : Alike ts us) :
    Alike (ts.map ρ.token) (us.map ρ.token) := by
  induction ts generalizing us with
  | nil =>
    obtain rfl := List.map_eq_nil_iff.mp h.symm
    exact .refl _
  | cons t ts ih =>
    obtain ⟨u, us, rfl, hhead, htail⟩ := List.map_eq_cons_iff.mp h.symm
    exact Alike.cons_iff.mpr ⟨content_token_congr hhead.symm, ih htail.symm⟩

/-- The second tokens are the first ones renamed, up to places and the first gap. -/
theorem Tokens.shifted {ts us : List Token} (h : ρ.Tokens ts us) :
    Shifted (ts.map ρ.token) us := by
  have hboth : Alike (ts.map ρ.token) us ∧ ts.map Token.gap = us.map Token.gap := by
    obtain ⟨htakes, -, -⟩ := h
    induction htakes with
    | nil => exact ⟨.refl [], rfl⟩
    | cons hhead _ ih =>
      refine ⟨Alike.cons_iff.mpr ⟨hhead.content.symm, ih.1⟩, ?_⟩
      rw [List.map_cons, List.map_cons, hhead.gap, ih.2]
  refine ⟨hboth.1, ?_⟩
  rw [← List.map_tail, map_gap_token, List.map_tail, hboth.2, ← List.map_tail]

/-- The source text of corresponding tokens corresponds. -/
theorem Tokens.slices {ts us : List Token} (h : ρ.Tokens ts us) (hts : ts ≠ []) :
    ρ.Slices (Token.spelling ts) (Token.spelling us) :=
  ⟨ts, us, hts, h.lexed, h.lexed', h.shifted, rfl, rfl⟩

namespace Slices

variable {s s' r r' : String}

/-- Blanks around the text may be taken away. -/
theorem trim (h : ρ.Slices s s') : ρ.Slices (Text.trim s) (Text.trim s') := by
  obtain ⟨vs, ws, hne, hvs, hws, hshift, rfl, rfl⟩ := h
  exact ⟨vs, ws, hne, hvs, hws, hshift, hvs.trim_spelling, hws.trim_spelling⟩

/-- Two texts with blanks between them. -/
theorem append (h : ρ.Slices s s') (hr : ρ.Slices r r') (sep : String)
    (hsep : ∀ c ∈ sep.toList, isBlank c = true)
    (hapart : sep.toList ≠ [] ∨ Apart r.toList ∧ Apart r'.toList) :
    ρ.Slices (s ++ sep ++ r) (s' ++ sep ++ r') := by
  obtain ⟨vs, ws, hne, hvs, hws, hshift, rfl, rfl⟩ := h
  obtain ⟨xs, ys, hne', hxs, hys, hshift', rfl, rfl⟩ := hr
  have hws' : ws ≠ [] := hshift.alike.ne_nil (by simpa using hne)
  have hys' : ys ≠ [] := hshift'.alike.ne_nil (by simpa using hne')
  obtain ⟨us, hus, hlexed, halike, hgaps, htext⟩ :=
    hvs.concat_gap hxs hne hne' sep hsep (hapart.imp_right And.left)
  obtain ⟨us', -, hlexed', halike', hgaps', htext'⟩ :=
    hws.concat_gap hys hws' hys' sep hsep (hapart.imp_right And.right)
  refine ⟨us, us', hus, hlexed, hlexed', ⟨?_, ?_⟩, htext.symm, htext'.symm⟩
  · refine (alike_map_token halike.symm).trans (.trans ?_ halike')
    rw [List.map_append]
    exact hshift.alike.append hshift'.alike
  · have htail : ∀ ts :
        List Token, (ts.map ρ.token).tail.map Token.gap = ts.tail.map Token.gap := by
      intro ts
      rw [← List.map_tail, map_gap_token]
    rw [htail, hgaps, hgaps', ← hshift.gaps, ← hshift'.gaps, htail, htail]

/-- The source text of a token that is kept. -/
theorem of_kept {t : Token} (hlexed : Lexed [t]) (hk : t.kind ≠ .identifier true) :
    ρ.Slices t.lexeme t.lexeme := by
  have ht : ρ.token t = t := if_neg fun h => hk h.1
  have htext : t.lexeme = Token.spelling [t] := by simp [Token.spelling, String.join]
  refine ⟨[t], [t], List.cons_ne_nil _ _, hlexed, hlexed, ?_, htext, htext⟩
  rw [List.map_singleton, ht]
  exact .refl [t]

/-- An expression may be made a statement. -/
theorem statement (h : ρ.Slices s s') (returns : Bool) :
    ρ.Slices ((if returns then "return " else "") ++ s ++ ";")
      ((if returns then "return " else "") ++ s' ++ ";") := by
  have hsemicolon : ρ.Slices ";" ";" := of_kept lexed_semicolonToken nofun
  have hreturn : ρ.Slices "return" "return" := of_kept lexed_returnToken nofun
  have hend := h.append hsemicolon "" nofun (.inr ⟨apart_cons.mpr rfl, apart_cons.mpr rfl⟩)
  rw [String.append_empty, String.append_empty] at hend
  cases returns with
  | false => simpa using hend
  | true =>
    have := hreturn.append hend " " (by simp [isBlank]) (.inl (List.cons_ne_nil _ _))
    rwa [← String.append_assoc, ← String.append_assoc] at this

end Slices

/-- The source text of one token tells which token it is, if it is a word of its own. -/
theorem spelling_eq_void {vs : List Token} (h : Lexed vs) :
    Token.spelling vs = "void" ↔ vs.map Token.content = [(.identifier false, "void")] := by
  constructor
  · intro htext
    obtain ⟨us, q, htokens, hus⟩ := h.tokenize_spelling
    rw [htext] at htokens
    cases htokens
    exact hus.alike
  · intro hcontents
    have hshift : Shifted vs [⟨.identifier false, "void", "", .start⟩] := by
      obtain ⟨v, rfl⟩ :=
        List.length_eq_one_iff.mp (by simpa using congrArg List.length hcontents)
      exact ⟨hcontents, rfl⟩
    exact hshift.spelling_eq

/-- The word `void` is neither renamed nor the result of a renaming. -/
theorem content_token_eq_void {t : Token} :
    (ρ.token t).content = (.identifier false, "void") ↔
      t.content = (.identifier false, "void") := by
  have hnew : ρ.new ≠ "void" := fun h => ρ.new_not_mem (h ▸ by decide)
  unfold Renaming.token Token.rename
  split
  · rename_i hold
    constructor
    · intro h
      exact absurd (Prod.mk.inj h).2 hnew
    · intro h
      exact absurd (hold.1.symm.trans (Prod.mk.inj h).1) (by decide)
  · exact Iff.rfl

/-- A type is `void` in both texts or in neither, which decides whether a body returns its
expression. -/
theorem Slices.eq_void_iff {s s' : String} (h : ρ.Slices s s') : s = "void" ↔ s' = "void" := by
  obtain ⟨vs, ws, -, hvs, hws, hshift, rfl, rfl⟩ := h
  rw [spelling_eq_void hvs, spelling_eq_void hws, ← hshift.alike, List.map_map]
  cases vs with
  | nil => exact Iff.rfl
  | cons v vs =>
    cases vs with
    | nil => simp [content_token_eq_void]
    | cons => simp

/-- The tokens that a parser reads, at two given lists. -/
theorem Follows.consumed_at (hp : ρ.Follows V p q) {ts us : List Token} (ht : ρ.Tokens ts us) :
    ρ.Outcome (fun r r' => V r.1 r'.1 ∧ ∃ n, r.2 = ts.take n ∧ r'.2 = us.take n)
      (Parser.consumed p ts) (Parser.consumed q us) := by
  unfold Parser.consumed
  generalize hx : p ts = x, hy : q us = y
  have h := hp ts us ht
  rw [hx, hy] at h
  cases h with
  | ok hv hrest =>
    refine .ok ⟨hv, _, rfl, ?_⟩ hrest
    rw [ht.length_eq, hrest.length_eq]
  | error problem hrest => exact .error problem hrest

/-- What a parser gives, and the source text of the tokens that it reads. -/
theorem Follows.spelled (hp : ρ.Follows V p q) :
    ρ.Follows (fun r r' => V r.1 r'.1 ∧ ρ.Slices r.2 r'.2) (Parser.spelled p)
      (Parser.spelled q) := by
  intro ts us ht
  refine (hp.consumed_at ht).bind ?_
  rintro ⟨a, _⟩ ⟨b, _⟩ mid mid' ⟨hv, n, rfl, rfl⟩ hmid - -
  have htake := ht.take n
  have hempty := steady_isEmpty _ _ htake
  dsimp only
  rw [← hempty]
  cases hts : (ts.take n).isEmpty with
  | true => exact .error _ hmid
  | false => exact .ok ⟨hv, htake.slices (List.isEmpty_eq_false_iff.mp hts)⟩ hmid

/-- The text of what a rule reads corresponds if the rule does the same with both. -/
theorem Follows.verbatim {p q : Parser Unit} {V : Unit → Unit → Prop} (hp : ρ.Follows V p q) :
    ρ.Follows ρ.Slices (Parser.verbatim p) (Parser.verbatim q) :=
  hp.spelled.bind fun _ _ h => follows_pure h.2

end Renaming

end SharpScript
