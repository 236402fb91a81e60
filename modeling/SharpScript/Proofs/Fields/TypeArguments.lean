import SharpScript.Proofs.Fields.Members
import SharpScript.Proofs.Parser.ExpressionEnds
import SharpScript.Proofs.Types.Opening

/-! # Type arguments in initial values

An initial value ends at a `;`, or at a comma behind which another variable seems to start: a
name and behind it a comma, a bracket or a value.  A comma between type arguments is in no
brackets that are paired, since angle brackets are signs like any other.  So it is taken for
the end of the value where the next argument is an array of a type of one word, or such a type
itself with another argument behind it.

## Main Definitions

* `TypeList.misread`: whether a comma in a list of type arguments is
  taken for the end of a value;
* `Passed`: type arguments that are passed over, or in which an initial value ends;
* `creation`: a variable that is set to a new object of a generic type.

## Main Results

* `TypeList.passed`: where an initial value ends is decided by `TypeList.misread`;
* `not_furtherVariables`: what is left of type arguments is no further variable;
* `field_creation`: **a new object is read whole if none of its type arguments looks like a
  variable, and otherwise its field is not read at all**.
-/

namespace SharpScript

open Lexer

/-! ## Arguments that look like variables -/

/-- Type arguments that look like a variable behind a comma. -/
def TypeList.startsVariable : TypeList → Bool
  | .last t => t.startsArray
  | .more t _ => t.isWord || t.startsArray

mutual

/-- Whether a comma in a type is taken for the end of an initial value. -/
def TypeSyntax.misread : TypeSyntax → Bool
  | .solid t => t.misread
  | .nullable t => t.misread

/-- The same for types that do not end in `?`.  The commas of tuples and
arrays stand in brackets. -/
def SolidType.misread : SolidType → Bool
  | .name n => n.misread
  | .tuple _ => false
  | .array t _ => t.misread
  | .pointer t => t.misread

/-- The same for qualified names. -/
def TypeName.misread : TypeName → Bool
  | .part p => p.misread
  | .qualified n _ p => n.misread || p.misread

/-- The same for the parts of qualified names. -/
def NamePart.misread : NamePart → Bool
  | .plain _ => false
  | .generic _ args => args.misread

/-- The same for lists of type arguments, with the commas between them. -/
def TypeList.misread : TypeList → Bool
  | .last t => t.misread
  | .more t ts => t.misread || (ts.startsVariable || ts.misread)

end

namespace Parser

/-- Whether a type looks like a variable is told by its first two tokens. -/
theorem startsVariable_of_opening {ks : List (Kind × String)} {i : Option Identifier}
    {word array : Bool} (h : Opening ks i word array) {us : List Token}
    (hus : us.map Token.content = ks) (rest : List Token) : startsVariable (us ++ rest) =
      (array || (word && ["=", ",", ";", "["].contains (Ahead.text 0 rest))) := by
  cases h with
  | word i =>
    obtain ⟨u, rfl, hu⟩ := List.map_eq_singleton_iff.mp hus
    have hident : Ahead.isIdentifier 0 ([u] ++ rest) = true :=
      Identifier.isIdentifier_of_content hu
    rw [startsVariable, hident]
    rfl
  | @long i w hw ks =>
    obtain ⟨u, _, rfl, hu, htail⟩ := List.map_eq_cons_iff.mp hus
    obtain ⟨v, us, rfl, hv, -⟩ := List.map_eq_cons_iff.mp htail
    obtain ⟨-, htext⟩ : v.kind = .operator ∧ v.text = w := Prod.mk.inj hv
    have hsigns : ∀ w ∈ wordContinuations, ["=", ",", ";", "["].contains w = (w == "[") := by
      decide
    show (u.kind.isIdentifier && ["=", ",", ";", "["].contains v.text) = _
    rw [Identifier.isIdentifier_of_content hu, htext, hsigns w hw]
    simp
  | tuple ks =>
    obtain ⟨u, us, rfl, hu, -⟩ := List.map_eq_cons_iff.mp hus
    obtain ⟨hkind, -⟩ : u.kind = .operator ∧ u.text = "(" := Prod.mk.inj hu
    have hident : Ahead.isIdentifier 0 (u :: us ++ rest) = false := by
      simp [Ahead.isIdentifier, hkind, Kind.isIdentifier]
    rw [startsVariable, hident]
    rfl

/-- Whether type arguments look like a variable behind a comma. -/
theorem startsVariable_typeList {ts : TypeList} {us : List Token}
    (hus : us.map Token.content = ts.contents) {r : Token} (hr : r.content = sign ">")
    (rest : List Token) : startsVariable (us ++ r :: rest) = ts.startsVariable := by
  cases ts with
  | last t =>
    obtain ⟨-, htext⟩ : r.kind = .operator ∧ r.text = ">" := Prod.mk.inj hr
    rw [startsVariable_of_opening t.opening hus,
      show Ahead.text 0 (r :: rest) = ">" from htext]
    simp [TypeList.startsVariable]
  | more t ts =>
    obtain ⟨us, ws, rfl, ht, hws⟩ := List.map_eq_append_iff.mp hus
    obtain ⟨c, vs, rfl, hc, hvs⟩ := List.map_eq_cons_iff.mp hws
    obtain ⟨-, htext⟩ : c.kind = .operator ∧ c.text = "," := Prod.mk.inj hc
    rw [List.append_assoc, startsVariable_of_opening t.opening ht,
      show Ahead.text 0 (c :: vs ++ r :: rest) = "," from htext]
    simp [TypeList.startsVariable, Bool.or_comm]

/-! ## Where an initial value ends -/

/-- An initial value passes over the tokens `us` before `rest`, or it ends at a comma in them,
with tokens of types left behind the comma. -/
inductive Passed (us rest : List Token) : (misread : Bool) → Prop
  | through (h : ∀ r, skipTo endsInitializer rest = .ok ((), r) →
      skipTo endsInitializer (us ++ rest) = .ok ((), r)) : Passed us rest false
  | stopped {c : Token} {ws : List Token} (hc : c.content = sign ",") (hws : TypeChunks ws)
      (h : skipTo endsInitializer (us ++ rest) = .ok ((), c :: (ws ++ rest))) :
      Passed us rest true

theorem Passed.append {us vs rest : List Token} {m m' : Bool} (h : Passed us (vs ++ rest) m)
    (hvs : TypeChunks vs) (h' : Passed vs rest m') : Passed (us ++ vs) rest (m || m') := by
  cases h with
  | through h =>
    cases h' with
    | through h' => exact .through fun r hr => by rw [List.append_assoc]; exact h r (h' r hr)
    | stopped hc hws h' => exact .stopped hc hws (by rw [List.append_assoc]; exact h _ h')
  | @stopped c ws hc hws h =>
    refine .stopped hc (hws.append hvs) ?_
    rw [List.append_assoc, h, List.append_assoc]

theorem endsInitializer_eq_false {t : Token} (h : t.kind ≠ .operator ∨ t.text ∉ [";", ","])
    (ts : List Token) : endsInitializer (t :: ts) = false := by
  have hsign : ∀ w ∈ [";", ","], Ahead.isOperator [w] (t :: ts) = false := by
    intro w hw
    rcases h with h | h
    · simp [Ahead.isOperator, h]
    · have hne : t.text ≠ w := fun heq => h (heq ▸ hw)
      simp [Ahead.isOperator, hne]
  rw [endsInitializer, hsign ";" (by simp), hsign "," (by simp), Bool.false_and, Bool.or_false]

theorem passed_chunk {t : Token} {c rest : List Token} (hc : IsChunk (t :: c))
    (ht : t.kind ≠ .operator ∨ t.text ∉ [";", ","]) : Passed (t :: c) rest false :=
  .through fun _ hr => skipTo_step.mpr
    (.inr ⟨endsInitializer_eq_false ht _, rest, chunk_of_isChunk hc rest, hr⟩)

theorem passed_identifier {i : Identifier} {t : Token} {rest : List Token}
    (ht : t.content = i.content) : Passed [t] rest false := by
  have hkind := Identifier.isIdentifier_of_content ht
  refine passed_chunk (.token (Token.sign?_of_isIdentifier hkind)) (.inl fun heq => ?_)
  rw [heq] at hkind
  cases hkind

theorem passed_sign {w : String} {t : Token} {rest : List Token} (ht : t.content = sign w)
    (hw : w ∈ ["?", "*", ".", "::", "<", ">"]) : Passed [t] rest false := by
  have hsigns : ∀ w ∈ ["?", "*", ".", "::", "<", ">"], w ∉ [";", ","] ∧
      w ∉ ["(", "[", Text.openBrace, ")", "]", Text.closeBrace] := by decide
  obtain ⟨-, rfl⟩ : t.kind = .operator ∧ t.text = w := Prod.mk.inj ht
  obtain ⟨hstop, hbracket⟩ := hsigns _ hw
  exact passed_chunk (.token (Token.sign?_eq_none hbracket)) (.inr hstop)

theorem passed_group {b : Bracket} {g rest : List Token} (hg : IsGroup b g) :
    Passed g rest false := by
  obtain ⟨t, w, u, rfl, ht, hw, hu⟩ := hg
  have hsigns : b.opening ∉ [";", ","] := by cases b <;> decide
  obtain ⟨-, htext⟩ := Token.isOperator_of_opening ht
  exact passed_chunk (.group ⟨t, w, u, rfl, ht, hw, hu⟩) (.inr (htext ▸ hsigns))

/-- A comma before type arguments is passed over unless they look like a variable. -/
theorem passed_comma {ts : TypeList} {us : List Token}
    (hus : us.map Token.content = ts.contents) {c r : Token} (hc : c.content = sign ",")
    (hr : r.content = sign ">") (rest : List Token) :
    Passed [c] (us ++ r :: rest) ts.startsVariable := by
  obtain ⟨hkind, htext⟩ : c.kind = .operator ∧ c.text = "," := Prod.mk.inj hc
  have hends : endsInitializer (c :: (us ++ r :: rest)) = ts.startsVariable := by
    simp [endsInitializer, Ahead.isOperator, hkind, htext, startsVariable_typeList hus hr]
  cases hstarts : ts.startsVariable with
  | false =>
    refine .through fun _ hrest => skipTo_step.mpr (.inr ⟨hends.trans hstarts, _, ?_, hrest⟩)
    exact chunk_of_isChunk (.token (Token.sign?_eq_none (by simp [htext]))) _
  | true =>
    exact .stopped hc typeTokens_nil.toTypeChunks
      (skipTo_step.mpr (.inl ⟨hends.trans hstarts, rfl⟩))

end Parser

open SharpScript.Parser

mutual

/-- **Where an initial value ends in a type, or that it does not end there.** -/
theorem TypeSyntax.passed : ∀ (T : TypeSyntax) {us : List Token},
    us.map Token.content = T.contents → ∀ rest, Passed us rest T.misread
  | .solid t, _, h, rest => t.passed h rest
  | .nullable t, _, h, rest => by
    obtain ⟨us, vs, rfl, hus, hvs⟩ := List.map_eq_append_iff.mp h
    obtain ⟨u, rfl, hu⟩ := List.map_eq_singleton_iff.mp hvs
    have hmark : Passed [u] rest false := passed_sign hu (by decide)
    simpa [TypeSyntax.misread] using (t.passed hus _).append (.sign hu (by decide)) hmark

theorem SolidType.passed : ∀ (T : SolidType) {us : List Token},
    us.map Token.content = T.contents → ∀ rest, Passed us rest T.misread
  | .name n, _, h, rest => n.passed h rest
  | .tuple es, _, h, rest => by
    obtain ⟨t, vs, rfl, ht, hvs⟩ := List.map_eq_cons_iff.mp h
    obtain ⟨us, ws, rfl, hus, hws⟩ := List.map_eq_append_iff.mp hvs
    obtain ⟨u, rfl, hu⟩ := List.map_eq_singleton_iff.mp hws
    exact passed_group ((es.typeTokens hus).isGroup (b := .round) ht hu)
  | .array t commas, _, h, rest => by
    obtain ⟨us, vs, rfl, hus, hvs⟩ := List.map_eq_append_iff.mp h
    obtain ⟨l, _, rfl, hl, hvs'⟩ := List.map_eq_cons_iff.mp hvs
    obtain ⟨cs, _, rfl, hcs, hrs⟩ := List.map_eq_append_iff.mp hvs'
    obtain ⟨r, rfl, hr⟩ := List.map_eq_singleton_iff.mp hrs
    have hcommas := typeTokens_commas hcs
    have hbrackets : Passed (l :: (cs ++ [r])) rest false :=
      passed_group (hcommas.isGroup (b := .square) hl hr)
    simpa [SolidType.misread] using (t.passed hus _).append
      (hcommas.bracketed (b := .square) nofun hl hr).toTypeChunks hbrackets
  | .pointer t, _, h, rest => by
    obtain ⟨us, vs, rfl, hus, hvs⟩ := List.map_eq_append_iff.mp h
    obtain ⟨u, rfl, hu⟩ := List.map_eq_singleton_iff.mp hvs
    have hmark : Passed [u] rest false := passed_sign hu (by decide)
    simpa [SolidType.misread] using (t.passed hus _).append (.sign hu (by decide)) hmark

theorem TypeName.passed : ∀ (n : TypeName) {us : List Token},
    us.map Token.content = n.contents → ∀ rest, Passed us rest n.misread
  | .part p, _, h, rest => p.passed h rest
  | .qualified n q p, _, h, rest => by
    obtain ⟨us, ws, rfl, hus, hws⟩ := List.map_eq_append_iff.mp h
    obtain ⟨t, vs, rfl, ht, hvs⟩ := List.map_eq_cons_iff.mp hws
    have hq : TypeTokens [t] := .sign ht (by cases q <;> decide)
    have hp := p.typeTokens hvs
    have hbehind : Passed (t :: vs) rest p.misread :=
      (passed_sign ht (by cases q <;> decide)).append hp.toTypeChunks (p.passed hvs rest)
    exact (n.passed hus _).append (hq.append hp).toTypeChunks hbehind

theorem NamePart.passed : ∀ (p : NamePart) {us : List Token},
    us.map Token.content = p.contents → ∀ rest, Passed us rest p.misread
  | .plain i, _, h, rest => by
    obtain ⟨t, rfl, ht⟩ := List.map_eq_singleton_iff.mp h
    exact passed_identifier ht
  | .generic i args, _, h, rest => by
    obtain ⟨t, _, rfl, ht, h₁⟩ := List.map_eq_cons_iff.mp h
    obtain ⟨l, _, rfl, hl, h₂⟩ := List.map_eq_cons_iff.mp h₁
    obtain ⟨us, vs, rfl, hus, hvs⟩ := List.map_eq_append_iff.mp h₂
    obtain ⟨r, rfl, hr⟩ := List.map_eq_singleton_iff.mp hvs
    have hargs := args.typeTokens hus
    have hopened : Passed (l :: us) ([r] ++ rest) args.misread :=
      (passed_sign hl (by decide)).append hargs.toTypeChunks (args.passed hus hr rest)
    have hangle : Passed [r] rest false := passed_sign hr (by decide)
    have hclosed : Passed (l :: (us ++ [r])) rest args.misread := by
      simpa using hopened.append (.sign hr (by decide)) hangle
    exact (passed_identifier ht).append (hargs.angled hl hr).toTypeChunks hclosed

theorem TypeList.passed : ∀ (ts : TypeList) {us : List Token},
    us.map Token.content = ts.contents → ∀ {r : Token}, r.content = sign ">" → ∀ rest,
      Passed us (r :: rest) ts.misread
  | .last t, _, h, _, _, rest => t.passed h _
  | .more t ts, _, h, r, hr, rest => by
    obtain ⟨us, ws, rfl, hus, hws⟩ := List.map_eq_append_iff.mp h
    obtain ⟨c, vs, rfl, hc, hvs⟩ := List.map_eq_cons_iff.mp hws
    have hcomma : TypeTokens [c] := .sign hc (by decide)
    have hts := ts.typeTokens hvs
    have hbehind : Passed (c :: vs) (r :: rest) (ts.startsVariable || ts.misread) :=
      (passed_comma hvs hc hr rest).append hts.toTypeChunks (ts.passed hvs hr rest)
    exact (t.passed hus _).append (hcomma.append hts).toTypeChunks hbehind

end

/-! ## What is left behind the comma -/

namespace Parser

/-- What is read of a variable in type arguments leaves tokens of types before the `>`. -/
theorem variableRest_typeChunks {us mid rest : List Token} {r : Token} (hus : TypeChunks us)
    (hr : r.content = sign ">") (h : variableRest (us ++ r :: rest) = .ok ((), mid)) :
    ∃ vs, TypeChunks vs ∧ mid = vs ++ r :: rest := by
  have hvalue : ∀ {vs : List Token}, TypeChunks vs →
      (accept "=" >>= fun b => if b = true then initializer else pure ()) (vs ++ r :: rest) =
        .ok ((), mid) → mid = vs ++ r :: rest := by
    intro vs hvs h
    rw [accept_bind,
      hvs.reads_eq_false (Token.isOfType_sign hr (by decide)) (by decide) (by decide)] at h
    cases h
    rfl
  unfold variableRest at h
  rw [isAt, ahead_bind] at h
  split at h
  · rename_i hopen
    obtain ⟨_, mid', hgroup, h⟩ := bind_eq_ok.mp h
    cases us with
    | nil =>
      rw [List.nil_append, reads_cons_of_content hr] at hopen
      cases hopen
    | cons u us =>
      have htext : u.text = Bracket.square.opening := Token.text_of_reads hopen
      have hu : u.sign? = some (.opening .square) := by
        rcases hus.token u List.mem_cons_self with ⟨-, hstart⟩ | ⟨hkind, -⟩
        · rw [htext] at hstart
          cases hstart
        · exact sign?_opening hkind htext
      obtain ⟨g, vs, hg, heq, hvs⟩ := hus.group hu
      rw [heq, List.append_assoc, group_of_isGroup hg] at hgroup
      cases hgroup
      exact ⟨vs, hvs, hvalue hvs h⟩
  · exact ⟨us, hus, hvalue hus h⟩

/-- **What is left of type arguments is no further variable**: no `;` comes before the `>`. -/
theorem not_furtherVariables {ws : List (List Token)} {us ts rest after : List Token}
    {r : Token} (hus : TypeChunks us) (hr : r.content = sign ">")
    (hts : ts = us ++ r :: rest) :
    ¬FurtherVariables ws ts after := by
  intro h
  obtain ⟨hkind, htext⟩ : r.kind = .operator ∧ r.text = ">" := Prod.mk.inj hr
  induction h generalizing us with
  | @done t after ht =>
    have hno : Ahead.reads ";" (us ++ r :: rest) = false :=
      hus.reads_eq_false (Token.isOfType_sign hr (by decide)) (by decide) (by decide) rest
    rw [← hts, show Ahead.reads ";" (t :: after) = true from ht] at hno
    cases hno
  | @next c name v mid after ws hc hname hread h ih =>
    match us, hts with
    | [], hts =>
      obtain ⟨rfl, -⟩ := List.cons.inj hts
      rw [show c.reads "," = Ahead.reads "," [c] from rfl, reads_cons_of_content hr] at hc
      cases hc
    | [u], hts =>
      obtain ⟨rfl, -⟩ := List.cons.inj (List.cons.inj hts).2
      rw [hkind] at hname
      cases hname
    | u :: x :: us, hts =>
      obtain ⟨rfl, htail⟩ := List.cons.inj hts
      obtain ⟨rfl, hrest⟩ := List.cons.inj htail
      have hus' : TypeChunks us := (hus.of_cons (sign?_of_reads hc (by decide))).of_cons
        (Token.sign?_of_isIdentifier hname)
      rw [show v ++ mid = us ++ r :: rest from hrest] at hread
      obtain ⟨vs, hvs, hmid⟩ := variableRest_typeChunks hus' hr hread
      exact ih hvs hmid

/-! ## New objects -/

/-- A value behind the name of a variable. -/
theorem variableRest_value {e t : Token} (he : e.content = sign "=")
    (ht : t.kind ≠ .operator ∨ t.text ∉ [";", ","]) (ts : List Token) :
    variableRest (e :: t :: ts) = skipTo endsInitializer (t :: ts) := by
  unfold variableRest
  rw [isAt, ahead_bind, reads_cons_of_content he, if_neg (by decide)]
  show (accept "=" >>= fun b => if b = true then initializer else pure ()) (e :: t :: ts) = _
  rw [accept_bind, reads_cons_of_content he, if_pos (by decide), if_pos rfl, List.tail_cons,
    initializer, ahead_bind, endsInitializer_eq_false ht, if_neg Bool.false_ne_true]

section Creation

variable {G : Identifier} {args : TypeList} {x e n g l r p q s : Token} {as : List Token}

/-- Where a new object ends, as the value of a variable. -/
theorem passed_creation (hn : n.content = (.keyword, "new")) (hg : g.content = G.content)
    (hl : l.content = sign "<") (has : as.map Token.content = args.contents)
    (hr : r.content = sign ">") (rest : List Token) :
    Passed (n :: g :: l :: as) (r :: rest) args.misread := by
  obtain ⟨hkind, htext⟩ : n.kind = .keyword ∧ n.text = "new" := Prod.mk.inj hn
  have hword : IsChunk [n] := .token (Token.sign?_eq_none (by simp [htext]))
  have hargs := (args.typeTokens has).toTypeChunks
  have hangle : TypeChunks (l :: as) := (TypeChunks.sign hl (by decide)).append hargs
  have hname : TypeTokens [g] := .identifier hg
  have h₁ : Passed (l :: as) (r :: rest) args.misread :=
    (passed_sign hl (by decide)).append hargs (args.passed has hr rest)
  have h₂ : Passed (g :: l :: as) (r :: rest) args.misread :=
    (passed_identifier hg).append hangle h₁
  exact (passed_chunk hword (.inl (by simp [hkind]))).append
    (hname.toTypeChunks.append hangle) h₂

/-- The end of a new object. -/
theorem skipTo_creationEnd (hr : r.content = sign ">") (hp : p.content = sign "(")
    (hq : q.content = sign ")") (hs : s.content = sign ";") :
    skipTo endsInitializer [r, p, q, s] = .ok ((), [s]) := by
  obtain ⟨hkind, htext⟩ : s.kind = .operator ∧ s.text = ";" := Prod.mk.inj hs
  have hend : skipTo endsInitializer [s] = .ok ((), [s]) :=
    skipTo_step.mpr (.inl ⟨by simp [endsInitializer, Ahead.isOperator, hkind, htext], rfl⟩)
  have hgroup : IsGroup .round [p, q] := typeTokens_nil.isGroup hp hq
  have hclose : Passed [r] [p, q, s] false := passed_sign hr (by decide)
  have hcall : Passed [p, q] [s] false := passed_group hgroup
  cases hclose with
  | through hclose =>
    cases hcall with
    | through hcall => exact hclose _ (hcall _ hend)

/-- A field with a new object is read whole, or not at all. -/
theorem field_new (hx : x.kind.isIdentifier = true) (he : e.content = sign "=")
    (hn : n.content = (.keyword, "new")) (hg : g.content = G.content)
    (hl : l.content = sign "<") (has : as.map Token.content = args.contents)
    (hr : r.content = sign ">") (hp : p.content = sign "(") (hq : q.content = sign ")")
    (hs : s.content = sign ";") :
    (args.misread = false → field x (e :: n :: g :: l :: (as ++ [r, p, q, s])) =
      .ok (.field [Token.spelling (x :: e :: n :: g :: l :: (as ++ [r, p, q]))], [])) ∧
    (args.misread = true → ∃ failure, field x (e :: n :: g :: l :: (as ++ [r, p, q, s])) =
      .error failure) := by
  have hvalue := variableRest_value he (t := n) (.inl (by simp [(Prod.mk.inj hn).1]))
    (g :: l :: (as ++ [r, p, q, s]))
  have hpassed := passed_creation hn hg hl has hr [p, q, s]
  constructor
  · intro hmisread
    rw [hmisread] at hpassed
    cases hpassed with
    | through h =>
      refine (field_iff hx).mpr ⟨[x :: e :: n :: g :: l :: (as ++ [r, p, q])], ?_, rfl⟩
      have hread :
          variableRest ((e :: n :: g :: l :: (as ++ [r, p, q])) ++ [s]) = .ok ((), [s]) := by
        simpa [hvalue] using h _ (skipTo_creationEnd hr hp hq hs)
      have hdone : FurtherVariables [] [s] [] := .done (reads_cons_of_content hs [])
      simpa using Variables.mk hx hread hdone
  · intro hmisread
    rw [hmisread] at hpassed
    cases hpassed with
    | @stopped c ws hc hws h =>
      cases hfield : field x (e :: n :: g :: l :: (as ++ [r, p, q, s])) with
      | error failure => exact ⟨failure, rfl⟩
      | ok result =>
        obtain ⟨vs, hvs, -⟩ := (field_iff hx).mp hfield
        obtain ⟨mid, us, hread, hfurther⟩ := hvs.further
        have hstop := (hread.symm.trans hvalue).trans h
        obtain rfl : mid = c :: (ws ++ [r, p, q, s]) := (Prod.mk.inj (Except.ok.inj hstop)).2
        have hleft := (TypeChunks.sign hc (by decide)).append hws
        exact absurd hfurther (not_furtherVariables hleft hr rfl)

end Creation

end Parser

/-- A variable that is set to a new object of a generic type. -/
def creation (x G : Identifier) (args : TypeList) : String :=
  x.text ++ " = new " ++ G.text ++ "<" ++ args.text " " ++ ">()"

theorem spells_new {r : List Char} (hr : ∀ d, r.head? = some d → isWordPart d = false) :
    Spells r "new".toList [(.keyword, "new")] := by
  have hword : Munch .keyword "new".toList r :=
    munch_word (c := 'n') (v := ['e', 'w']) (by decide +kernel)
      (List.all_eq_true.mp (by decide +kernel)) hr
  simpa using Spells.token hword

/-- A variable with a new object is cut into the tokens of both. -/
theorem spells_creation (x G : Identifier) (args : TypeList) :
    Spells [';'] (creation x G args).toList
      (x.content :: sign "=" :: (.keyword, "new") :: G.content :: sign "<" ::
        (args.contents ++ [sign ">", sign "(", sign ")"])) := by
  have htext : (creation x G args).toList = x.text.toList ++ ([' '] ++ ("=".toList ++ ([' '] ++
      ("new".toList ++ ([' '] ++ (G.text.toList ++ ("<".toList ++ ((args.text " ").toList ++
        (">".toList ++ ("(".toList ++ ")".toList)))))))))) := by
    simp [creation]
  have hblank : ∀ c ∈ [' '], isBlank c = true := by simp [isBlank]
  have hgap : IsGap " " := by simp [IsGap, isBlank]
  have hwordEnd : ∀ (d : Char) (cs : List Char), isWordPart d = false →
      ∀ c, (d :: cs).head? = some c → isWordPart c = false := by
    rintro d cs hd _ ⟨⟩
    exact hd
  rw [htext]
  refine (x.spells (hwordEnd ' ' _ (by decide))).append_gap hblank ?_
  refine (Spells.sign (by decide) (by decide) ?_).append_gap hblank ?_
  · exact (show Avoids ['=', '>'] _ from avoids_cons (by decide)).separate (by decide)
  refine (spells_new (hwordEnd ' ' _ (by decide))).append_gap hblank ?_
  refine (G.spells (r := "<".toList ++ _ ++ _) (hwordEnd '<' _ (by decide))).append ?_
  refine (Spells.sign (by decide) (by decide) ?_).append ?_
  · rw [List.append_assoc]
    exact (args.startsType.append _).separate (by decide)
  refine (args.spells hgap (r := ">".toList ++ _ ++ _) (avoids_cons (by decide))).append ?_
  refine (Spells.sign (by decide) (by decide) ?_).append
    ((spells_plain (by decide) _).append (spells_plain (by decide) _))
  exact (show Avoids ['='] _ from avoids_cons (by decide)).separate (by decide)

theorem tokenize_creation (T x G : Identifier) (args : TypeList) :
    ∃ t u vs s, tokenize (T.text ++ " " ++ creation x G args ++ ";") = .ok t ∧
      t.tokens = u :: (vs ++ [s]) ∧ u.content = T.content ∧
      vs.map Token.content = x.content :: sign "=" :: (.keyword, "new") :: G.content ::
        sign "<" :: (args.contents ++ [sign ">", sign "(", sign ")"]) ∧
      Token.spelling vs = creation x G args ∧ s.content = sign ";" := by
  -- The text is cut from its end: the `;`, the variable behind its blank, the type.
  let p := (Place.start.after T.text.toList).step ' '
  let q := (p.after (creation x G args).toList).after ";".toList
  obtain ⟨ss, hss, -, -, hend⟩ :=
    spells_plain (w := ";") (by decide) [] (p.after (creation x G args).toList) [] _
      (.nil _ [])
  obtain ⟨s, rfl, hs⟩ := List.map_eq_singleton_iff.mp hss
  obtain ⟨vs, hvs, hgap, hchars, hvariable⟩ := spells_creation x G args p [' '] _ hend
  obtain ⟨us, hus, -, -, hcut⟩ := T.spells (by rintro _ ⟨⟩; decide) .start [] _
    (.blank (c := ' ') rfl hvariable)
  obtain ⟨u, rfl, hu⟩ := List.map_eq_singleton_iff.mp hus
  refine ⟨prepend [u] (prepend vs (prepend [s] ⟨[], "", q⟩)), u, vs, s, ?_,
    rfl, hu, hvs, ?_, hs⟩
  · rw [tokenize, ← show _ = Except.ok _ from hcut.pieces_eq]
    simp
  · rw [spelling_of_chars hgap hchars, String.ofList_toList]

/-- **A new object with type arguments is read whole if none of them looks like a variable.**
Where a comma in them is taken for the end of the value, the field is not read at all. -/
theorem field_creation (T x G : Identifier) (args : TypeList)
    (hT : T.word ∉ Parser.memberWords ++ contextualWords) (hx : x.word ∉ ["operator", "this"])
    (owner : String) :
    ∃ t pos, tokenize (T.text ++ " " ++ creation x G args ++ ";") = .ok t ∧
      (args.misread = false → Parser.member owner t.tokens =
        .ok (.member ⟨⟨pos, [], []⟩, .field [creation x G args]⟩, [])) ∧
      (args.misread = true → ∃ failure, Parser.member owner t.tokens = .error failure) := by
  obtain ⟨t, u, vs, s, ht, htokens, hu, hvs, hspelling, hs⟩ := tokenize_creation T x G args
  obtain ⟨y, _, rfl, hy, h₁⟩ := List.map_eq_cons_iff.mp hvs
  obtain ⟨e, _, rfl, he, h₂⟩ := List.map_eq_cons_iff.mp h₁
  obtain ⟨n, _, rfl, hn, h₃⟩ := List.map_eq_cons_iff.mp h₂
  obtain ⟨g, _, rfl, hg, h₄⟩ := List.map_eq_cons_iff.mp h₃
  obtain ⟨l, _, rfl, hl, h₅⟩ := List.map_eq_cons_iff.mp h₄
  obtain ⟨as, _, rfl, has, h₆⟩ := List.map_eq_append_iff.mp h₅
  obtain ⟨r, _, rfl, hr, h₇⟩ := List.map_eq_cons_iff.mp h₆
  obtain ⟨b, _, rfl, hb, h₈⟩ := List.map_eq_cons_iff.mp h₇
  obtain ⟨c, rfl, hc⟩ := List.map_eq_singleton_iff.mp h₈
  have hnext :
      Ahead.readsAny ["=", ";", ",", "["] (e :: n :: g :: l :: (as ++ [r, b, c, s])) =
        true := by
    rw [Parser.readsAny_cons_of_content he]
    decide
  have hsplit : t.tokens = u :: y :: e :: n :: g :: l :: (as ++ [r, b, c, s]) := by
    simpa using htokens
  have htype := Parser.isTypeWord_of_content hu hT
  have hname := Parser.isMemberName_of_content hy hx
  obtain ⟨hwhole, hfails⟩ :=
    Parser.field_new (Identifier.isIdentifier_of_content hy) he hn hg hl has hr hb hc hs
  rw [hspelling] at hwhole
  refine ⟨t, u.place.pos, ht, fun hmisread => ?_, fun hmisread => ?_⟩
  · rw [hsplit, Parser.member_field htype hname hnext, hwhole hmisread]
    rfl
  · obtain ⟨failure, hfailure⟩ := hfails hmisread
    refine ⟨failure, ?_⟩
    rw [hsplit, Parser.member_field htype hname hnext, hfailure]
    rfl

/-- Arrays come first, and a type of one word comes last. -/
theorem field_creation_nested :
    ∃ t pos, tokenize "T x = new G<a[], H<b, c>, d.e, f>();" = .ok t ∧
      Parser.member "A" t.tokens =
        .ok (.member ⟨⟨pos, [], []⟩, .field ["x = new G<a[], H<b, c>, d.e, f>()"]⟩, []) := by
  let word (w : String) (hw : isName w = true) : TypeSyntax :=
    .solid (.name (.part (.plain (.ofName w hw))))
  let a := word "a" (by decide +kernel)
  let bs : TypeList :=
    .more (word "b" (by decide +kernel)) (.last (word "c" (by decide +kernel)))
  let args : TypeList := .more (.solid (.array a 0))
    (.more (.solid (.name (.part (.generic (.ofName "H" (by decide +kernel)) bs))))
      (.more (.solid
        (.name (.qualified (.part (.plain (.ofName "d" (by decide +kernel)))) .point
          (.plain (.ofName "e" (by decide +kernel)))))) (.last (word "f"
          (by decide +kernel)))))
  obtain ⟨t, pos, ht, hwhole, -⟩ := field_creation plainType (.ofName "x" (by decide +kernel))
    (.ofName "G" (by decide +kernel)) args (by decide) (by decide) "A"
  exact ⟨t, pos, ht, hwhole rfl⟩

/-- The comma before `b` is taken for the end of the value, since a comma
comes behind `b` too. -/
theorem creation_of_three_words :
    ∃ t ts, tokenize "T x = new G<a, b, c>();" = .ok t ∧
      Parser.member "A" t.tokens = .error ⟨.expected (.word ";"), ts⟩ ∧
      Ahead.text 0 ts = ">" := by
  obtain ⟨t, ht, htest⟩ := exists_ok_of_any (r := tokenize "T x = new G<a, b, c>();")
    (f := fun t => match Parser.member "A" t.tokens with
      | .error ⟨.expected (.word w), ts⟩ => w == ";" && Ahead.text 0 ts == ">"
      | _ => false) (by decide +kernel)
  split at htest
  · rename_i w ts hmember
    obtain ⟨rfl, htext⟩ : w = ";" ∧ Ahead.text 0 ts = ">" := by simpa using htest
    exact ⟨t, ts, ht, hmember, htext⟩
  · cases htest

end SharpScript
