import SharpScript.Parser.Declaration
import SharpScript.Proofs.Lexer.Slice

/-! # Tests on the tokens ahead

The rules of the grammar decide by looking at the tokens ahead.  A test looks at their kinds
and texts alone, and at few of them, so it cannot tell a list of tokens from a list that is
alike.  Where the list ends with `;` or with a closing bracket, as source texts do, a test
cannot even tell whether more tokens follow, unless none is left.

## Main Definitions

* `Sees`: a test on the first few tokens;
* `Closed`: a list that ends with `;` or a closing bracket;
* `Tame`: a test that gives the same answer on lists that are alike, and on a closed list and a
  longer one.

## Main Results

* `tame_of_sees_one`, `tame_of_sees_two`: **tests on the first tokens are tame**;
* the tests of the grammar are tame.
-/

namespace SharpScript

variable {γ : Type}

/-! ## Tests on the first tokens -/

/-- A token that reads as a word has its text. -/
theorem Token.text_of_reads {t : Token} {w : String} (h : t.reads w = true) : t.text = w := by
  unfold Token.reads at h
  exact beq_iff_eq.mp (Bool.and_eq_true_iff.mp h).1

/-- A token reads as one word only. -/
theorem Token.reads_of_ne {t : Token} {w w' : String} (h : t.reads w = true) (hne : w ≠ w') :
    t.reads w' = false := by
  rw [Token.reads, Token.text_of_reads h, beq_false_of_ne hne, Bool.false_and]

/-- The test `f` looks at the first `m` tokens. -/
def Sees (m : Nat) (f : List Token → γ) : Prop :=
  ∀ ts us, Alike (ts.take m) (us.take m) → f ts = f us

/-- Lists whose first tokens are alike have tokens with the same content there. -/
theorem content_getElem? {m n : Nat} {ts us : List Token} (h : Alike (ts.take m) (us.take m))
    (hn : n < m) : ts[n]?.map Token.content = us[n]?.map Token.content := by
  have hget := congrArg (·[n]?) h
  simpa [List.getElem?_take, hn] using hget

/-- A test that is computed from the contents of the first tokens. -/
theorem sees_of_content {m : Nat} {f : List Token → γ}
    (h : ∀ ts us : List Token,
      (∀ n < m, ts[n]?.map Token.content = us[n]?.map Token.content) →
      f ts = f us) : Sees m f :=
  fun ts us halike => h ts us fun _ => content_getElem? halike

namespace Ahead

/-- Each look ahead depends on the content of one token, and not on where it stands. -/
theorem reads_eq (w : String) (ts : List Token) :
    reads w ts = match ts[0]?.map Token.content with
      | some (kind, text) => text == w && !kind.isLiteral
      | none => w == "" := by
  cases ts <;> rfl

theorem text_eq (n : Nat) (ts : List Token) :
    text n ts = ((ts[n]?.map Token.content).map Prod.snd).getD "" := by
  unfold text
  cases ts[n]? <;> rfl

theorem isWord_eq (n : Nat) (ts : List Token) :
    isWord n ts = (ts[n]?.map Token.content).any fun c => c.1.isWord := by
  unfold isWord
  cases ts[n]? <;> rfl

theorem isIdentifier_eq (n : Nat) (ts : List Token) :
    isIdentifier n ts = (ts[n]?.map Token.content).any fun c => c.1.isIdentifier := by
  unfold isIdentifier
  cases ts[n]? <;> rfl

theorem isOperator_eq (ws : List String) (ts : List Token) :
    isOperator ws ts =
      (ts[0]?.map Token.content).any fun c => c.1 == .operator && ws.contains c.2 := by
  cases ts <;> rfl

theorem reads_cons (w : String) (t : Token) (ts : List Token) :
    reads w (t :: ts) = t.reads w := rfl

/-- No word comes next at the end. -/
theorem reads_nil {w : String} (hw : w ≠ "") : reads w [] = false := by
  simpa [reads] using hw

end Ahead

open Ahead

/-- Whether a word comes next depends on one token. -/
theorem sees_reads (w : String) : Sees 1 (reads w) :=
  sees_of_content fun ts us h => by rw [reads_eq, reads_eq, h 0 Nat.one_pos]

theorem sees_readsAny (ws : List String) : Sees 1 (readsAny ws) := by
  intro ts us h
  unfold readsAny
  simp only [fun w => sees_reads w ts us h]

theorem sees_isWord : Sees 1 (isWord 0) :=
  sees_of_content fun ts us h => by rw [isWord_eq, isWord_eq, h 0 Nat.one_pos]

theorem sees_isOperator (ws : List String) : Sees 1 (isOperator ws) :=
  sees_of_content fun ts us h => by rw [isOperator_eq, isOperator_eq, h 0 Nat.one_pos]

theorem sees_isEmpty : Sees 1 (List.isEmpty (α := Token)) :=
  sees_of_content fun ts us h => by
    have := h 0 Nat.one_pos
    cases ts <;> cases us <;> simp_all

/-! ## Closed lists -/

/-- The signs that statements and declarations end with. -/
def closers : List String := [";", ")", "]", Text.closeBrace]

/-- A sign that a statement or a declaration may end with. -/
def Token.Closes (t : Token) : Prop := t.kind = .operator ∧ t.text ∈ closers

/-- The last of the tokens, if there is one, closes. -/
def Closed (ts : List Token) : Prop := ∀ t, ts.getLast? = some t → t.Closes

/-- The last token of a closed list is that of every part behind it. -/
theorem Closed.drop {ts : List Token} (h : Closed ts) (n : Nat) : Closed (ts.drop n) := by
  intro t ht
  rw [List.getLast?_drop] at ht
  split at ht
  · cases ht
  · exact h t ht

/-- What closes is a sign and no word. -/
theorem Token.Closes.not_word {t : Token} (h : t.Closes) :
    t.kind.isWord = false ∧ t.kind.isIdentifier = false := by
  simp [h.1, Kind.isWord, Kind.isIdentifier]

/-- A test that tells neither lists that are alike apart, nor a closed list from a longer one,
unless there is no token at all. -/
structure Tame (f : List Token → γ) : Prop where
  alike : ∀ ts us, Alike ts us → f ts = f us
  longer : ∀ ts us, ts ≠ [] → Closed ts → Alike ts (us.take ts.length) → f ts = f us

/-- A test that sees some tokens gives the same answer for tokens that are alike. -/
theorem Sees.alike {m : Nat} {f : List Token → γ} (h : Sees m f) (ts us : List Token)
    (halike : Alike ts us) : f ts = f us :=
  h ts us (halike.take m)

/-- It does not depend on what comes behind the tokens that it sees. -/
theorem Sees.longer {m : Nat} {f : List Token → γ} (h : Sees m f) {ts us : List Token}
    (hm : m ≤ ts.length) (halike : Alike ts (us.take ts.length)) : f ts = f us := by
  apply h
  have := halike.take m
  rwa [List.take_take, Nat.min_eq_left hm] at this

/-- A test on the next token is tame. -/
theorem tame_of_sees_one {f : List Token → γ} (h : Sees 1 f) : Tame f where
  alike := h.alike
  longer _ _ hts _ halike := h.longer (List.length_pos_of_ne_nil hts) halike

/-- A test on the next two tokens is tame if the first of them decides it when it closes. -/
theorem tame_of_sees_two {f : List Token → γ} (h : Sees 2 f)
    (hclose : ∀ t ts, t.Closes → f (t :: ts) = f [t]) : Tame f where
  alike := h.alike
  longer ts us hts hclosed halike := by
    match ts, hts with
    | [t], _ =>
      match us, halike with
      | u :: us, halike =>
        obtain ⟨hcontent, -⟩ := Alike.cons_iff.mp halike
        have ht : t.Closes := hclosed t rfl
        have hu : u.Closes := by
          obtain ⟨hkind, htext⟩ := Prod.mk.inj hcontent
          exact ⟨hkind ▸ ht.1, htext ▸ ht.2⟩
        rw [hclose u us hu]
        exact h.alike [t] [u] (Alike.cons_iff.mpr ⟨hcontent, rfl⟩)
    | t :: t' :: ts, _ => exact h.longer (by simp) halike

/-! ## The tests of the grammar -/

/-- Tests of one token are tame. -/
theorem tame_reads (w : String) : Tame (reads w) := tame_of_sees_one (sees_reads w)

theorem tame_readsAny (ws : List String) :
    Tame (readsAny ws) := tame_of_sees_one (sees_readsAny ws)

theorem tame_isWord : Tame (isWord 0) := tame_of_sees_one sees_isWord

theorem tame_isOperator (ws : List String) : Tame (isOperator ws) :=
  tame_of_sees_one (sees_isOperator ws)

theorem tame_isEmpty : Tame (List.isEmpty (α := Token)) := tame_of_sees_one sees_isEmpty

/-- Tame tests may be combined. -/
theorem Tame.or {f g : List Token → Bool} (hf : Tame f) (hg : Tame g) :
    Tame fun ts => f ts || g ts where
  alike ts us h := by rw [hf.alike ts us h, hg.alike ts us h]
  longer ts us hts hclosed h := by
    rw [hf.longer ts us hts hclosed h, hg.longer ts us hts hclosed h]

/-- A test may see more tokens than it needs. -/
theorem Sees.mono {m n : Nat} {f : List Token → γ} (hf : Sees m f) (h : m ≤ n) : Sees n f := by
  intro ts us halike
  apply hf
  have := Alike.take halike m
  rwa [List.take_take, List.take_take, Nat.min_eq_left h] at this

/-- A test that fails on tokens that close, and another one of two tokens. -/
theorem tame_and {f g : List Token → Bool} (hf : Sees 1 f)
    (hclose : ∀ t ts, t.Closes → f (t :: ts) = false) (hg : Sees 2 g) :
    Tame fun ts => f ts && g ts := by
  apply tame_of_sees_two
  · intro ts us h
    simp only [hf.mono (by decide) ts us h, hg ts us h]
  · intro t ts ht
    simp only [hclose t _ ht, Bool.false_and]

/-- What closes reads as none of the words that begin something. -/
theorem Token.Closes.reads_eq_false {t : Token} (h : t.Closes) {w : String}
    (hw : w ∉ closers) : t.reads w = false := by
  have hne : t.text ≠ w := fun heq => hw (heq ▸ h.2)
  simp [Token.reads, hne]

/-- A test on the second token depends on two tokens. -/
theorem sees_text_one (g : String → Bool) : Sees 2 fun ts => g (text 1 ts) :=
  sees_of_content fun ts us h => by simp only [text_eq, h 1 (by decide)]

/-- A word or sign `w`, and a test on the text behind it. -/
theorem tame_reads_text {w : String} (hw : w ∉ closers) (g : String → Bool) :
    Tame fun ts => reads w ts && g (text 1 ts) :=
  tame_and (sees_reads w) (fun _ _ ht => ht.reads_eq_false hw) (sees_text_one g)

namespace Parser

theorem tame_startsNested : Tame startsNested :=
  (tame_readsAny _).or (tame_reads_text (by decide) (· == "("))

theorem tame_startsMarkedBlock : Tame startsMarkedBlock := by
  refine tame_and (sees_readsAny _) (fun t ts ht => ?_) (sees_text_one (· == Text.openBrace))
  simp only [readsAny, reads_cons, List.any_cons, List.any_nil, Bool.or_false,
    ht.reads_eq_false (w := "checked") (by decide),
    ht.reads_eq_false (w := "unchecked") (by decide),
    ht.reads_eq_false (w := "unsafe") (by decide)]

/-- The tests of the grammar that see two tokens are tame: a token that closes does not begin
what they look for, so one token decides where it is the last. -/
theorem tame_startsUsing : Tame startsUsing :=
  (tame_reads_text (by decide) (· == "using")).or (tame_reads_text (by decide) (· != "("))

theorem tame_startsRecord : Tame startsRecord := by
  refine tame_and (sees_reads _) (fun _ _ ht => ht.reads_eq_false (by decide)) ?_
  exact sees_of_content fun ts us h => by
    simp only [isIdentifier_eq, text_eq, h 1 (by decide)]

theorem tame_startsLabel : Tame startsLabel := by
  have heq : startsLabel = fun ts => isIdentifier 0 ts &&
      (ts[1]?.map Token.content).any fun c => c.1 == .operator && c.2 == ":" := by
    funext ts
    rcases ts with _ | ⟨t, _ | ⟨u, ts⟩⟩ <;> simp [startsLabel, isIdentifier]
    rfl
  rw [heq]
  refine tame_and (f := isIdentifier 0) ?_ (fun t ts ht => ?_) ?_
  · exact sees_of_content
      fun ts us h => by rw [isIdentifier_eq, isIdentifier_eq, h 0 (by decide)]
  · exact ht.not_word.2
  · exact sees_of_content fun ts us h => by rw [h 1 (by decide)]

theorem tame_startsParameterModifier : Tame startsParameterModifier := by
  refine Tame.or (tame_of_sees_one ?_) (tame_and (sees_reads _) ?_ ?_)
  · exact sees_of_content
      fun ts us h => by simp only [isIdentifier_eq, text_eq, h 0 (by decide)]
  · exact fun _ _ ht => ht.reads_eq_false (by decide)
  · exact sees_of_content fun ts us h => by rw [isWord_eq, isWord_eq, h 1 (by decide)]

/-- A constructor begins with the name of its class and a bracket. -/
theorem tame_startsConstructor (owner : String) :
    Tame fun ts => isIdentifier 0 ts && text 0 ts == owner && text 1 ts == "(" := by
  refine tame_and (f := fun ts => isIdentifier 0 ts && text 0 ts == owner) ?_ ?_
    (sees_text_one (· == "("))
  · exact sees_of_content
      fun ts us h => by simp only [isIdentifier_eq, text_eq, h 0 (by decide)]
  · intro t ts ht
    have : isIdentifier 0 (t :: ts) = false := ht.not_word.2
    simp only [this, Bool.false_and]

/-- A test on the first token that asks for an identifier. -/
theorem tame_identifier_text (g : String → Bool) :
    Tame fun ts => isIdentifier 0 ts && g (text 0 ts) :=
  tame_of_sees_one <| sees_of_content fun ts us h => by
    simp only [isIdentifier_eq, text_eq, h 0 (by decide)]

/-- A contextual modifier is one before another word only, and a word is never the last token
of a closed list. -/
theorem tame_modifier? : Tame modifier? := by
  apply tame_of_sees_two
  · apply sees_of_content
    intro ts us h
    have h0 := h 0 (by decide)
    have h1 := h 1 (by decide)
    cases ts <;> cases us <;> simp_all [modifier?, isWord_eq, Token.content]
  · intro t ts ht
    simp [modifier?, ht.1, Kind.isIdentifier]

/-- The target that a list of annotations may start with. -/
theorem tame_target : Tame fun ts =>
    if isWord 0 ts && text 1 ts == ":" then some (text 0 ts) else none := by
  apply tame_of_sees_two
  · exact sees_of_content fun ts us h => by
      simp only [isWord_eq, text_eq, h 0 (by decide), h 1 (by decide)]
  · intro t ts ht
    have : ∀ us, isWord 0 (t :: us) = false := fun us => ht.not_word.1
    simp only [this, Bool.false_and, Bool.false_eq_true, if_false]

/-- A variable is told by its name and the sign behind it. -/
theorem sees_startsVariable : Sees 2 startsVariable :=
  sees_of_content fun ts us h => by
    simp only [startsVariable, isIdentifier_eq, text_eq, h 0 (by decide), h 1 (by decide)]

theorem startsVariable_of_closes {t : Token} (ht : t.Closes) (ts : List Token) :
    startsVariable (t :: ts) = false := by
  have : isIdentifier 0 (t :: ts) = false := ht.not_word.2
  rw [startsVariable, this, Bool.false_and]

/-- The end of a value is a `;`, or a comma that a variable comes behind. -/
theorem tame_endsInitializer : Tame endsInitializer := by
  have hthree : Sees 3 fun ts => isOperator [","] ts && startsVariable ts.tail := by
    intro ts us h
    have htail : Alike (ts.tail.take 2) (us.tail.take 2) := by
      rw [← List.drop_one, ← List.drop_one, List.take_drop, List.take_drop]
      exact Alike.drop h 1
    simp only [(sees_isOperator _).mono (by decide) ts us h, sees_startsVariable _ _ htail]
  refine (tame_isOperator _).or ⟨hthree.alike, fun ts us hts hclosed halike => ?_⟩
  -- With fewer than three tokens the last of them closes, and decides the test.
  match ts, us, hts, halike with
  | [t], u :: us, _, halike =>
    have ht : t.Closes := hclosed t rfl
    have hcomma : isOperator [","] [t] = false := by
      have hne : t.text ≠ "," := fun heq => absurd (heq ▸ ht.2) (by decide)
      simp [isOperator, hne]
    have hone : 1 ≤ [t].length := le_refl 1
    have hcomma' := (sees_isOperator [","]).longer hone halike ▸ hcomma
    simp only [hcomma, hcomma', Bool.false_and]
  | [t, t'], [u], _, halike => exact absurd halike.length_eq (by simp)
  | [t, t'], u :: u' :: us, _, halike =>
    have ht' : t'.Closes := hclosed t' rfl
    obtain ⟨-, hrest⟩ := Alike.cons_iff.mp halike
    have hvariable := (tame_of_sees_two sees_startsVariable fun t ts ht => by
      rw [startsVariable_of_closes ht, startsVariable_of_closes ht]).longer [t'] (u' :: us)
        (List.cons_ne_nil _ _) (fun t ht => by cases ht; exact ht') hrest
    have hone : 1 ≤ [t, t'].length := by simp
    simp only [List.tail_cons, hvariable, (sees_isOperator [","]).longer hone halike]
  | t :: t' :: t'' :: ts, us, _, halike => exact hthree.longer (by simp) halike

/-- Modifiers are passed over, and the first other token decides. -/
theorem mayBeFunction_cons (t : Token) (ts : List Token) : mayBeFunction (t :: ts) =
    if localModifiers.contains t.text && !t.kind.isLiteral then mayBeFunction ts
    else t.kind.isIdentifier && !(["yield", "await"].contains t.text) := by
  unfold mayBeFunction
  cases h : localModifiers.contains t.text && !t.kind.isLiteral with
  | true => rw [List.dropWhile_cons_of_pos (by simpa using h), if_pos rfl]
  | false => rw [List.dropWhile_cons_of_neg (by simpa using h), if_neg Bool.false_ne_true]

/-- Tokens with the same content begin a local function alike, if those behind them do. -/
theorem mayBeFunction_congr {t u : Token} (h : t.content = u.content) {ts us : List Token}
    (hrest : mayBeFunction ts = mayBeFunction us) :
    mayBeFunction (t :: ts) = mayBeFunction (u :: us) := by
  obtain ⟨hkind, htext⟩ := Prod.mk.inj h
  rw [mayBeFunction_cons, mayBeFunction_cons, hkind, htext, hrest]

/-- It does not see a fixed number of tokens, but stops at the first one that is no modifier.
-/
theorem tame_mayBeFunction : Tame mayBeFunction where
  alike ts us h := by
    induction ts generalizing us with
    | nil => cases us <;> first | rfl | cases h
    | cons t ts ih =>
      cases us with
      | nil => cases h
      | cons u us =>
        obtain ⟨hhead, htail⟩ := Alike.cons_iff.mp h
        exact mayBeFunction_congr hhead (ih us htail)
  longer ts us hts hclosed halike := by
    induction ts generalizing us with
    | nil => exact absurd rfl hts
    | cons t ts ih =>
      cases us with
      | nil => cases halike
      | cons u us =>
        obtain ⟨hhead, htail⟩ := Alike.cons_iff.mp halike
        by_cases hnil : ts = []
        · -- The last token closes, so it is no modifier.
          subst hnil
          have ht : t.Closes := hclosed t rfl
          obtain ⟨hkind, htext⟩ := Prod.mk.inj hhead
          have hplain : localModifiers.contains t.text = false :=
            (by decide : ∀ w ∈ closers, localModifiers.contains w = false) _ ht.2
          rw [mayBeFunction_cons, mayBeFunction_cons, ← hkind, ← htext]
          simp only [hplain, Bool.false_and, Bool.false_eq_true, if_false]
        · exact mayBeFunction_congr hhead (ih us hnil (hclosed.drop 1) htail)

end Parser

end SharpScript
