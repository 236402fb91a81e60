import SharpScript.Proofs.Parser.Lookahead

/-! # Nested brackets

Round, square and curly brackets nest.  Of a list of tokens only its brackets matter here: they
are well nested when they can be paired off, each opening bracket with a closing one of its
kind, and what stands between the two is well nested itself.

## Main Definitions

* `Sign`, `signs`: the brackets in a list of tokens, opening and closing;
* `Dyck`: a sequence of brackets that is well nested;
* `Balanced`: a list of tokens whose brackets are well nested.

## Main Results

* `Dyck.append`, `Balanced.append`: well nested sequences may stand behind one another;
* `Bracket.close_spans`: **what is passed over to close brackets closes them**;
* `balanced_group`: a group is balanced, and its last token closes.
-/

namespace SharpScript

/-- An opening or a closing bracket. -/
inductive Sign
  | opening (b : Bracket)
  | closing (b : Bracket)
deriving DecidableEq, Inhabited, Repr

/-- The bracket that a token is. -/
def Token.sign? (t : Token) : Option Sign :=
  match Bracket.opened? t with
  | some b => some (.opening b)
  | none => (Bracket.closed? t).map .closing

/-- The brackets in a list of tokens. -/
def signs (ts : List Token) : List Sign := ts.filterMap Token.sign?

/-- A sequence of brackets that is well nested. -/
inductive Dyck : List Sign → Prop
  | nil : Dyck []
  | nest (b : Bracket) {xs ys : List Sign} (hx : Dyck xs) (hy : Dyck ys) :
      Dyck (.opening b :: xs ++ .closing b :: ys)

/-- The brackets of the tokens are well nested. -/
def Balanced (ts : List Token) : Prop := Dyck (signs ts)

/-- Well nested brackets may stand behind one another. -/
theorem Dyck.append {xs ys : List Sign} (hx : Dyck xs) (hy : Dyck ys) : Dyck (xs ++ ys) := by
  induction hx with
  | nil => exact hy
  | nest b hx _ _ ih =>
    have := Dyck.nest b hx ih
    simpa using this

@[simp] theorem signs_nil : signs [] = [] := rfl

@[simp] theorem signs_append (ts us : List Token) : signs (ts ++ us) = signs ts ++ signs us :=
  List.filterMap_append

theorem signs_cons (t : Token) (ts : List Token) :
    signs (t :: ts) = t.sign?.toList ++ signs ts := by
  unfold signs
  cases h : t.sign? <;> simp [h]

theorem Token.sign?_of_content {t u : Token} (h : t.content = u.content) :
    t.sign? = u.sign? := by
  obtain ⟨hkind, htext⟩ := Prod.mk.inj h
  simp only [Token.sign?, Bracket.opened?, Bracket.closed?, Token.isOperator, hkind, htext]

/-- Tokens of the same contents have the same brackets. -/
theorem Alike.signs_eq {ts us : List Token} (h : Alike ts us) : signs ts = signs us := by
  induction ts generalizing us with
  | nil => cases us <;> first | rfl | cases h
  | cons t ts ih =>
    cases us with
    | nil => cases h
    | cons u us =>
      obtain ⟨hhead, htail⟩ := Alike.cons_iff.mp h
      rw [signs_cons, signs_cons, Token.sign?_of_content hhead, ih htail]

theorem balanced_nil : Balanced [] := .nil

/-- Tokens that pair their brackets may stand behind one another. -/
theorem Balanced.append {ts us : List Token} (ht : Balanced ts) (hu : Balanced us) :
    Balanced (ts ++ us) := by
  unfold Balanced at *
  rw [signs_append]
  exact ht.append hu

/-- A token that is no bracket. -/
theorem balanced_single {t : Token} (h : t.sign? = none) : Balanced [t] := by
  unfold Balanced
  rw [signs_cons, h]
  exact .nil

/-- A token is no bracket if its text is none. -/
theorem Token.sign?_eq_none {t : Token}
    (h : t.text ∉ ["(", "[", Text.openBrace, ")", "]", Text.closeBrace]) : t.sign? = none := by
  simp only [List.mem_cons, List.not_mem_nil, or_false, not_or] at h
  obtain ⟨h1, h2, h3, h4, h5, h6⟩ := h
  simp [Token.sign?, Bracket.opened?, Bracket.closed?, Token.isOperator, Bracket.opening,
    Bracket.closing, h1, h2, h3, h4, h5, h6]

/-- Only operators are brackets. -/
theorem Token.sign?_of_kind {t : Token} (h : t.kind ≠ .operator) : t.sign? = none := by
  simp [Token.sign?, Bracket.opened?, Bracket.closed?, Token.isOperator, h]

theorem Kind.isWord_of_isIdentifier {k : Kind} (h : k.isIdentifier = true) :
    k.isWord = true := by
  cases k <;> first | rfl | cases h

/-- A word is no bracket. -/
theorem Token.sign?_of_isWord {t : Token} (h : t.kind.isWord = true) : t.sign? = none := by
  refine Token.sign?_of_kind fun hk => ?_
  rw [hk] at h
  cases h

theorem Token.sign?_of_isIdentifier {t : Token} (h : t.kind.isIdentifier = true) :
    t.sign? = none :=
  Token.sign?_of_isWord (Kind.isWord_of_isIdentifier h)

/-! ## Closing brackets -/

/-- The sequence closes the brackets that are open, of which the first is the innermost. -/
inductive Closing : List Bracket → List Sign → Prop
  | nil : Closing [] []
  | cons {b : Bracket} {bs : List Bracket} {xs ys : List Sign} (hx : Dyck xs)
      (hy : Closing bs ys) : Closing (b :: bs) (xs ++ .closing b :: ys)

/-- Before what closes the brackets that are open, a further group may stand. -/
theorem Closing.dyck_append {bs : List Bracket} {xs ys : List Sign} (hx : Dyck xs)
    (hy : Closing bs ys) (hbs : bs ≠ []) : Closing bs (xs ++ ys) := by
  cases hy with
  | nil => exact absurd rfl hbs
  | cons hx' hy =>
    rw [← List.append_assoc]
    exact .cons (hx.append hx') hy

/-- What closes an inner bracket closes the outer ones behind it. -/
theorem Closing.opening {b : Bracket} {bs : List Bracket} {xs : List Sign}
    (h : Closing (b :: bs) xs) (hbs : bs ≠ []) : Closing bs (.opening b :: xs) := by
  cases h with
  | @cons _ _ xs ys hx hy =>
    have hgroup : Dyck (.opening b :: xs ++ [.closing b]) := .nest b hx .nil
    have := Closing.dyck_append hgroup hy hbs
    simpa using this

/-- A token that closes a bracket is an operator with its text. -/
theorem Bracket.closed?_eq_some {t : Token} {b : Bracket} (h : closed? t = some b) :
    t.kind = .operator ∧ t.text = b.closing := by
  have := List.find?_some h
  simpa [Token.isOperator] using this

theorem Token.closes_of_closed? {t : Token} {b : Bracket} (h : Bracket.closed? t = some b) :
    t.Closes := by
  obtain ⟨hkind, htext⟩ := Bracket.closed?_eq_some h
  refine ⟨hkind, ?_⟩
  rw [htext]
  cases b <;> decide

/-- What is passed over to close brackets closes them, and its last token closes. -/
theorem Bracket.close_spans {bs : List Bracket} {ts rest : List Token}
    (h : Bracket.close bs ts = .ok rest) : ∃ w, ts = w ++ rest ∧ Closing bs (signs w) ∧
      (bs ≠ [] → ∃ t, w.getLast? = some t ∧ t.Closes) := by
  fun_induction Bracket.close bs ts with
  | case1 ts =>
    cases h
    exact ⟨[], rfl, .nil, fun h => absurd rfl h⟩
  | case2 => cases h
  | case3 b bs t ts inner hopen ih =>
    obtain ⟨w, rfl, hclosing, hlast⟩ := ih h
    refine ⟨t :: w, rfl, ?_, fun _ => ?_⟩
    · rw [signs_cons, Token.sign?, hopen]
      exact hclosing.opening (List.cons_ne_nil _ _)
    · obtain ⟨u, hu, hcloses⟩ := hlast (List.cons_ne_nil _ _)
      exact ⟨u, by rw [List.getLast?_cons, hu, Option.getD_some], hcloses⟩
  | case4 b bs t ts hopen hclose ih =>
    obtain ⟨w, rfl, hclosing, hlast⟩ := ih h
    refine ⟨t :: w, rfl, ?_, fun _ => ?_⟩
    · rw [signs_cons, Token.sign?, hopen, hclose]
      exact hclosing
    · obtain ⟨u, hu, hcloses⟩ := hlast (List.cons_ne_nil _ _)
      exact ⟨u, by rw [List.getLast?_cons, hu, Option.getD_some], hcloses⟩
  | case5 bs t ts hopen c hclose ih =>
    obtain ⟨w, rfl, hclosing, hlast⟩ := ih h
    refine ⟨t :: w, rfl, ?_, fun _ => ?_⟩
    · rw [signs_cons, Token.sign?, hopen, hclose]
      exact .cons .nil hclosing
    · cases bs with
      | nil =>
        obtain rfl : w = [] := by simpa [Bracket.close] using h
        exact ⟨t, rfl, Token.closes_of_closed? hclose⟩
      | cons b bs =>
        obtain ⟨u, hu, hcloses⟩ := hlast (List.cons_ne_nil _ _)
        exact ⟨u, by rw [List.getLast?_cons, hu, Option.getD_some], hcloses⟩
  | case6 => cases h

/-- What is passed over from an opening bracket through the one that closes it. -/
theorem balanced_group {b : Bracket} {t : Token} {ts rest : List Token}
    (ht : Bracket.opened? t = some b) (h : Bracket.close [b] ts = .ok rest) :
    ∃ w, ts = w ++ rest ∧ Balanced (t :: w) ∧ ∃ u, (t :: w).getLast? = some u ∧ u.Closes := by
  obtain ⟨w, rfl, hclosing, hlast⟩ := Bracket.close_spans h
  obtain ⟨u, hu, hcloses⟩ := hlast (List.cons_ne_nil _ _)
  refine ⟨w, rfl, ?_, u, by rw [List.getLast?_cons, hu, Option.getD_some], hcloses⟩
  unfold Balanced
  rw [signs_cons, Token.sign?, ht]
  generalize signs w = s at hclosing
  cases hclosing with
  | cons hx hy =>
    cases hy
    exact .nest b hx .nil

end SharpScript
