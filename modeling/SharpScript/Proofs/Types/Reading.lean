import SharpScript.Proofs.Parser.Groups
import SharpScript.Proofs.Printing.Locality
import SharpScript.Proofs.Types.Syntax

/-! # Reading types

The rule for types passes over exactly the tokens of a type, and the other rules that may
meet a type cannot be led astray by it: its round and square brackets are well nested, and
so are its angle brackets.

## Main Definitions

* `Token.IsOfType`: the tokens that types are made of;
* `TypeChunks`: tokens of types that are not cut through brackets;
* `TypeTokens`: what the tokens of types, of type arguments and of tuple
  elements have in common.

## Main Results

* `TypeSyntax.typeTokens`: the tokens of a type are such tokens;
* `TypeSyntax.typeReference_append`: **the rule for types passes over a type**, before anything
  that cannot go on with it.
-/

namespace SharpScript

open Lexer

/-! ## Tokens of types -/

/-- The signs that stand in types. -/
def typeSigns : List String := ["(", ")", "[", "]", "<", ">", ",", "?", "*", ".", "::"]

/-- The tokens that types are made of. -/
def Token.IsOfType (t : Token) : Prop :=
  (t.kind.isIdentifier = true ∧ startsWord t.text = true) ∨
    (t.kind = .operator ∧ t.text ∈ typeSigns)

/-- Tokens of types, not cut through any brackets but angle brackets. -/
structure TypeChunks (us : List Token) : Prop where
  chunks : ∃ cs : List (List Token), us = cs.flatten ∧ ∀ c ∈ cs, IsChunk c
  token : ∀ u ∈ us, u.IsOfType

/-- What the tokens of types, of type arguments and of tuple elements have in common.  They
leave open lists of type arguments as they are. -/
structure TypeTokens (us : List Token) : Prop extends TypeChunks us where
  angles : ∀ depth rest, closeAngles (depth + 1) (us ++ rest) = closeAngles (depth + 1) rest

/-- A chunk pairs its brackets. -/
theorem IsChunk.balanced {c : List Token} (h : IsChunk c) : Balanced c := by
  cases h with
  | token ht => exact balanced_single ht
  | group h => exact h.balanced

theorem balanced_flatten {cs : List (List Token)} (h : ∀ c ∈ cs, IsChunk c) :
    Balanced cs.flatten := by
  induction cs with
  | nil => exact balanced_nil
  | cons c cs ih =>
    obtain ⟨hc, hcs⟩ := List.forall_mem_cons.mp h
    exact hc.balanced.append (ih hcs)

namespace Identifier

variable {i : Identifier} {t : Token}

/-- An identifier is a word, whether it is escaped or not. -/
theorem startsWord_word (i : Identifier) : startsWord i.word = true := by
  have hshaped := i.shaped
  unfold isWordShaped at hshaped
  unfold startsWord
  cases hword : i.word.toList with
  | nil => simp [hword] at hshaped
  | cons c v =>
    rw [hword, Bool.and_eq_true_iff] at hshaped
    exact hshaped.1

/-- A token with the content of an identifier is one. -/
theorem isIdentifier_of_content (ht : t.content = i.content) : t.kind.isIdentifier = true := by
  obtain ⟨hkind, -⟩ := Prod.mk.inj ht
  rw [hkind]
  rfl

/-- An identifier reads as no sign. -/
theorem reads_eq_false (ht : t.content = i.content) {w : String} (hw : startsWord w = false) :
    t.reads w = false := by
  refine Bool.eq_false_iff.mpr fun h => ?_
  obtain ⟨-, htext⟩ := Prod.mk.inj ht
  have hword := i.startsWord_word
  rw [← htext, Token.text_of_reads h, hw] at hword
  cases hword

end Identifier

section Tokens

variable {t : Token}

/-- The signs of types: brackets, commas, points and marks. -/
theorem Token.isOfType_sign {w : String} (ht : t.content = sign w) (hw : w ∈ typeSigns) :
    t.IsOfType := by
  obtain ⟨hkind, rfl⟩ : t.kind = .operator ∧ t.text = w := Prod.mk.inj ht
  exact .inr ⟨hkind, hw⟩

/-- A token of a type reads as no sign that stands in no type. -/
theorem Token.IsOfType.reads_eq_false (ht : t.IsOfType) {w : String}
    (hw : startsWord w = false) (hsign : w ∉ typeSigns) : t.reads w = false := by
  refine Bool.eq_false_iff.mpr fun hread => ?_
  have htext := Token.text_of_reads hread
  rcases ht with ⟨-, hstart⟩ | ⟨-, hmem⟩
  · rw [htext, hw] at hstart
    cases hstart
  · exact hsign (htext ▸ hmem)

/-- A token of a type is none of the signs that end something else. -/
theorem Token.IsOfType.isOperator_eq_false (ht : t.IsOfType) {ws : List String}
    (hws : ∀ w ∈ ws, w ∉ typeSigns) (ts : List Token) :
    Ahead.isOperator ws (t :: ts) = false := by
  refine Bool.eq_false_iff.mpr fun h => ?_
  obtain ⟨hkind, htext⟩ : t.kind = .operator ∧ t.text ∈ ws := by
    simpa [Ahead.isOperator] using h
  rcases ht with ⟨hident, -⟩ | ⟨-, hsign⟩
  · rw [hkind] at hident
    cases hident
  · exact hws _ htext hsign

end Tokens

namespace TypeChunks

/-- Chunks of types behind one another. -/
theorem append {us vs : List Token} (hu : TypeChunks us) (hv : TypeChunks vs) :
    TypeChunks (us ++ vs) := by
  obtain ⟨cs, hus, hcs⟩ := hu.chunks
  obtain ⟨ds, hvs, hds⟩ := hv.chunks
  refine ⟨⟨cs ++ ds, by rw [hus, hvs, List.flatten_append], ?_⟩, ?_⟩
  · exact List.forall_mem_append.mpr ⟨hcs, hds⟩
  · exact List.forall_mem_append.mpr ⟨hu.token, hv.token⟩

/-- One sign that is no bracket of a group. -/
theorem sign {w : String} {t : Token} (ht : t.content = SharpScript.sign w)
    (hw : w ∈ [",", "?", "*", ".", "::", "<", ">"]) : TypeChunks [t] := by
  have hsigns : ∀ w ∈ [",", "?", "*", ".", "::", "<", ">"], w ∈ typeSigns ∧
      w ∉ ["(", "[", Text.openBrace, ")", "]", Text.closeBrace] := by decide
  obtain ⟨hof, hbracket⟩ := hsigns w hw
  obtain ⟨-, htext⟩ : t.kind = .operator ∧ t.text = w := Prod.mk.inj ht
  refine ⟨⟨[[t]], rfl, List.forall_mem_singleton.mpr (.token ?_)⟩, ?_⟩
  · exact Token.sign?_eq_none (htext ▸ hbracket)
  · exact List.forall_mem_singleton.mpr (Token.isOfType_sign ht hof)

/-- Behind a token that is no bracket, tokens of types are not cut through brackets either. -/
theorem of_cons {t : Token} {us : List Token} (h : TypeChunks (t :: us))
    (ht : t.sign? = none) : TypeChunks us := by
  obtain ⟨cs, hcs, hchunks⟩ := h.chunks
  obtain ⟨-, htokens⟩ := List.forall_mem_cons.mp h.token
  cases cs with
  | nil => cases hcs
  | cons c cs =>
    obtain ⟨hc, hrest⟩ := List.forall_mem_cons.mp hchunks
    cases hc with
    | token _ =>
      obtain ⟨rfl, rfl⟩ := List.cons.inj hcs
      exact ⟨⟨cs, rfl, hrest⟩, htokens⟩
    | group hgroup =>
      obtain ⟨u, w, v, rfl, hu, -⟩ := hgroup
      obtain ⟨rfl, -⟩ := List.cons.inj hcs
      rw [ht] at hu
      cases hu

/-- Tokens of types that start with a bracket start with a group. -/
theorem group {b : Bracket} {t : Token} {us : List Token} (h : TypeChunks (t :: us))
    (ht : t.sign? = some (.opening b)) : ∃ g vs, IsGroup b g ∧ t :: us = g ++ vs ∧
    TypeChunks vs := by
  obtain ⟨cs, hcs, hchunks⟩ := h.chunks
  cases cs with
  | nil => cases hcs
  | cons c cs =>
    obtain ⟨hc, hrest⟩ := List.forall_mem_cons.mp hchunks
    refine ⟨c, cs.flatten, ?_, hcs, ⟨cs, rfl, hrest⟩, fun u hu => h.token u ?_⟩
    · cases hc with
      | token hnone =>
        obtain ⟨rfl, -⟩ := List.cons.inj hcs
        rw [ht] at hnone
        cases hnone
      | @group b' _ hgroup =>
        obtain ⟨u, w, v, rfl, hu, hw, hv⟩ := hgroup
        obtain ⟨rfl, -⟩ := List.cons.inj hcs
        obtain rfl : b = b' := by simpa [ht] using hu
        exact ⟨t, w, v, rfl, hu, hw, hv⟩
    · rw [hcs]
      exact List.mem_append_right _ hu

/-- Tokens of types, with one more behind them, read as no sign that stands in no type. -/
theorem reads_eq_false {us : List Token} (h : TypeChunks us) {r : Token} (hr : r.IsOfType)
    {w : String} (hw : startsWord w = false) (hsign : w ∉ typeSigns) (rest : List Token) :
    Ahead.reads w (us ++ r :: rest) = false := by
  cases us with
  | nil => exact hr.reads_eq_false hw hsign
  | cons u us => exact (h.token u List.mem_cons_self).reads_eq_false hw hsign

end TypeChunks

namespace TypeTokens

variable {us vs : List Token} {t u : Token}

theorem balanced (h : TypeTokens us) : Balanced us := by
  obtain ⟨cs, rfl, hcs⟩ := h.chunks
  exact balanced_flatten hcs

theorem append (hu : TypeTokens us) (hv : TypeTokens vs) : TypeTokens (us ++ vs) where
  toTypeChunks := hu.toTypeChunks.append hv.toTypeChunks
  angles depth rest := by rw [List.append_assoc, hu.angles, hv.angles]

/-- One token that is no bracket of any kind. -/
theorem single (ht : t.IsOfType) (hsign : t.sign? = none) (hopen : t.reads "<" = false)
    (hclose : t.reads ">" = false) : TypeTokens [t] where
  chunks := ⟨[[t]], rfl, List.forall_mem_singleton.mpr (.token hsign)⟩
  token := List.forall_mem_singleton.mpr ht
  angles depth rest := by
    rw [List.singleton_append, closeAngles, if_neg (by simp [hopen]),
      if_neg (by simp [hclose])]

/-- A single identifier. -/
theorem identifier {i : Identifier} (ht : t.content = i.content) : TypeTokens [t] := by
  have hkind := Identifier.isIdentifier_of_content ht
  have hword : startsWord t.text = true := (Prod.mk.inj ht).2 ▸ i.startsWord_word
  exact .single (.inl ⟨hkind, hword⟩) (Token.sign?_of_isIdentifier hkind)
    (Identifier.reads_eq_false ht (by decide)) (Identifier.reads_eq_false ht (by decide))

/-- One sign that is no bracket of any kind. -/
theorem sign {w : String} (ht : t.content = SharpScript.sign w)
    (hw : w ∈ [",", "?", "*", ".", "::"]) : TypeTokens [t] := by
  have hsigns : ∀ w ∈ [",", "?", "*", ".", "::"], w ∈ typeSigns ∧
      w ∉ ["(", "[", Text.openBrace, ")", "]", Text.closeBrace] ∧ w ≠ "<" ∧ w ≠ ">" := by
    decide
  obtain ⟨hkind, rfl⟩ : t.kind = .operator ∧ t.text = w := Prod.mk.inj ht
  obtain ⟨hof, hbracket, hopen, hclose⟩ := hsigns _ hw
  exact .single (.inr ⟨hkind, hof⟩) (Token.sign?_eq_none hbracket)
    (by simp [Token.reads, hopen]) (by simp [Token.reads, hclose])

/-- Tokens of a type between brackets are a group. -/
theorem isGroup {b : Bracket} (h : TypeTokens us) (ht : t.content = SharpScript.sign b.opening)
    (hu : u.content = SharpScript.sign b.closing) : IsGroup b (t :: (us ++ [u])) := by
  obtain ⟨hkind, htext⟩ := Prod.mk.inj ht
  obtain ⟨hkind', htext'⟩ := Prod.mk.inj hu
  exact ⟨t, us, u, rfl, Parser.sign?_opening hkind htext, h.balanced,
    Parser.sign?_closing hkind' htext'⟩

/-- What stands in round or square brackets. -/
theorem bracketed {b : Bracket} (hb : b ≠ .curly) (h : TypeTokens us)
    (ht : t.content = SharpScript.sign b.opening)
    (hu : u.content = SharpScript.sign b.closing) :
    TypeTokens (t :: (us ++ [u])) := by
  have hsigns : b.opening ∈ typeSigns ∧ b.closing ∈ typeSigns ∧
      ∀ w ∈ ["<", ">"], w ≠ b.opening ∧ w ≠ b.closing := by
    cases b with
    | curly => exact absurd rfl hb
    | round => decide
    | square => decide
  obtain ⟨hopening, hclosing, hangles⟩ := hsigns
  obtain ⟨hkind, htext⟩ : t.kind = .operator ∧ t.text = b.opening := Prod.mk.inj ht
  obtain ⟨hkind', htext'⟩ : u.kind = .operator ∧ u.text = b.closing := Prod.mk.inj hu
  have hneutral : ∀ w ∈ ["<", ">"], t.reads w = false ∧ u.reads w = false := by
    intro w hw
    obtain ⟨hne, hne'⟩ := hangles w hw
    simp [Token.reads, htext, htext', hne.symm, hne'.symm]
  obtain ⟨ht₁, hu₁⟩ := hneutral "<" (by simp)
  obtain ⟨ht₂, hu₂⟩ := hneutral ">" (by simp)
  refine ⟨⟨⟨[t :: (us ++ [u])],
    by simp, List.forall_mem_singleton.mpr (.group (h.isGroup ht hu))⟩, ?_⟩,
    fun depth rest => ?_⟩
  · refine List.forall_mem_cons.mpr ⟨.inr ⟨hkind, htext ▸ hopening⟩, ?_⟩
    exact List.forall_mem_append.mpr ⟨h.token, List.forall_mem_singleton.mpr
      (.inr ⟨hkind', htext' ▸ hclosing⟩)⟩
  · calc closeAngles (depth + 1) (t :: (us ++ [u]) ++ rest)
        = closeAngles (depth + 1) (us ++ u :: rest) := by
          simp [closeAngles, ht₁, ht₂]
      _ = closeAngles (depth + 1) (u :: rest) := h.angles depth _
      _ = closeAngles (depth + 1) rest := by simp [closeAngles, hu₁, hu₂]

/-- What stands in angle brackets. -/
theorem angled (h : TypeTokens us) (ht : t.content = SharpScript.sign "<")
    (hu : u.content = SharpScript.sign ">") : TypeTokens (t :: (us ++ [u])) := by
  obtain ⟨hkind, htext⟩ : t.kind = .operator ∧ t.text = "<" := Prod.mk.inj ht
  obtain ⟨hkind', htext'⟩ : u.kind = .operator ∧ u.text = ">" := Prod.mk.inj hu
  have hopen : t.reads "<" = true := by simp [Token.reads, hkind, htext, Kind.isLiteral]
  have hclose : u.reads "<" = false ∧ u.reads ">" = true := by
    simp [Token.reads, hkind', htext', Kind.isLiteral]
  obtain ⟨cs, hus, hcs⟩ := h.chunks
  refine ⟨⟨⟨[t] :: (cs ++ [[u]]), by simp [hus], ?_⟩, ?_⟩, fun depth rest => ?_⟩
  · refine List.forall_mem_cons.mpr ⟨.token (Token.sign?_eq_none (by simp [htext])), ?_⟩
    exact List.forall_mem_append.mpr ⟨hcs, List.forall_mem_singleton.mpr
      (.token (Token.sign?_eq_none (by simp [htext'])))⟩
  · refine List.forall_mem_cons.mpr ⟨.inr ⟨hkind, by simp [htext, typeSigns]⟩, ?_⟩
    exact List.forall_mem_append.mpr ⟨h.token, List.forall_mem_singleton.mpr
      (.inr ⟨hkind', by simp [htext', typeSigns]⟩)⟩
  · calc closeAngles (depth + 1) (t :: (us ++ [u]) ++ rest)
        = closeAngles (depth + 2) (us ++ u :: rest) := by simp [closeAngles, hopen]
      _ = closeAngles (depth + 2) (u :: rest) := h.angles (depth + 1) _
      _ = closeAngles (depth + 1) rest := by simp [closeAngles, hclose]

end TypeTokens

theorem typeTokens_nil : TypeTokens [] where
  chunks := ⟨[], rfl, nofun⟩
  token := nofun
  angles _ _ := rfl

/-- The name of an element of a tuple, or none. -/
theorem typeTokens_name {name : Option Identifier} {us : List Token}
    (h : us.map Token.content = Identifier.contentBehind name) : TypeTokens us := by
  cases name with
  | none =>
    obtain rfl := List.map_eq_nil_iff.mp h
    exact typeTokens_nil
  | some i =>
    obtain ⟨u, rfl, hu⟩ := List.map_eq_singleton_iff.mp h
    exact .identifier hu

/-- The commas between the dimensions of an array. -/
theorem typeTokens_commas {n : Nat} {us : List Token}
    (h : us.map Token.content = List.replicate n (sign ",")) : TypeTokens us := by
  induction n generalizing us with
  | zero =>
    obtain rfl := List.map_eq_nil_iff.mp h
    exact typeTokens_nil
  | succ n ih =>
    obtain ⟨c, us, rfl, hc, hus⟩ := List.map_eq_cons_iff.mp h
    have hcomma : TypeTokens [c] := .sign hc (by decide)
    exact hcomma.append (ih hus)

mutual

/-- The tokens of a type. -/
theorem TypeSyntax.typeTokens : ∀ (T : TypeSyntax) {us : List Token},
    us.map Token.content = T.contents → TypeTokens us
  | .solid t, _, h => t.typeTokens h
  | .nullable t, _, h => by
    obtain ⟨us, vs, rfl, hus, hvs⟩ := List.map_eq_append_iff.mp h
    obtain ⟨u, rfl, hu⟩ := List.map_eq_singleton_iff.mp hvs
    exact (t.typeTokens hus).append (.sign hu (by decide))

/-- The tokens of a type of any form are tokens of types: one case for each form. -/
theorem SolidType.typeTokens : ∀ (T : SolidType) {us : List Token},
    us.map Token.content = T.contents → TypeTokens us
  | .name n, _, h => n.typeTokens h
  | .tuple es, _, h => by
    obtain ⟨t, vs, rfl, ht, hvs⟩ := List.map_eq_cons_iff.mp h
    obtain ⟨us, ws, rfl, hus, hws⟩ := List.map_eq_append_iff.mp hvs
    obtain ⟨u, rfl, hu⟩ := List.map_eq_singleton_iff.mp hws
    exact (es.typeTokens hus).bracketed (b := .round) nofun ht hu
  | .array t commas, _, h => by
    obtain ⟨us, vs, rfl, hus, hvs⟩ := List.map_eq_append_iff.mp h
    obtain ⟨l, _, rfl, hl, hvs⟩ := List.map_eq_cons_iff.mp hvs
    obtain ⟨cs, _, rfl, hcs, hvs⟩ := List.map_eq_append_iff.mp hvs
    obtain ⟨r, rfl, hr⟩ := List.map_eq_singleton_iff.mp hvs
    exact (t.typeTokens hus).append
      ((typeTokens_commas hcs).bracketed (b := .square) nofun hl hr)
  | .pointer t, _, h => by
    obtain ⟨us, vs, rfl, hus, hvs⟩ := List.map_eq_append_iff.mp h
    obtain ⟨u, rfl, hu⟩ := List.map_eq_singleton_iff.mp hvs
    exact (t.typeTokens hus).append (.sign hu (by decide))

theorem TypeName.typeTokens : ∀ (n : TypeName) {us : List Token},
    us.map Token.content = n.contents → TypeTokens us
  | .part p, _, h => p.typeTokens h
  | .qualified n q p, _, h => by
    obtain ⟨us, ws, rfl, hus, hws⟩ := List.map_eq_append_iff.mp h
    obtain ⟨t, vs, rfl, ht, hvs⟩ := List.map_eq_cons_iff.mp hws
    have hq : TypeTokens [t] := .sign ht (by cases q <;> decide)
    exact (n.typeTokens hus).append (hq.append (p.typeTokens hvs))

theorem NamePart.typeTokens : ∀ (p : NamePart) {us : List Token},
    us.map Token.content = p.contents → TypeTokens us
  | .plain i, _, h => by
    obtain ⟨t, rfl, ht⟩ := List.map_eq_singleton_iff.mp h
    exact .identifier ht
  | .generic i args, _, h => by
    obtain ⟨t, _, rfl, ht, h⟩ := List.map_eq_cons_iff.mp h
    obtain ⟨l, _, rfl, hl, h⟩ := List.map_eq_cons_iff.mp h
    obtain ⟨us, vs, rfl, hus, hvs⟩ := List.map_eq_append_iff.mp h
    obtain ⟨r, rfl, hr⟩ := List.map_eq_singleton_iff.mp hvs
    have hi : TypeTokens [t] := .identifier ht
    exact hi.append ((args.typeTokens hus).angled hl hr)

theorem TypeList.typeTokens : ∀ (ts : TypeList) {us : List Token},
    us.map Token.content = ts.contents → TypeTokens us
  | .last t, _, h => t.typeTokens h
  | .more t ts, _, h => by
    obtain ⟨us, ws, rfl, hus, hws⟩ := List.map_eq_append_iff.mp h
    obtain ⟨c, vs, rfl, hc, hvs⟩ := List.map_eq_cons_iff.mp hws
    have hcomma : TypeTokens [c] := .sign hc (by decide)
    exact (t.typeTokens hus).append (hcomma.append (ts.typeTokens hvs))

theorem TupleElements.typeTokens : ∀ (es : TupleElements) {us : List Token},
    us.map Token.content = es.contents → TypeTokens us
  | .last t name, _, h => by
    obtain ⟨us, vs, rfl, hus, hvs⟩ := List.map_eq_append_iff.mp h
    exact (t.typeTokens hus).append (typeTokens_name hvs)
  | .more t name es, _, h => by
    obtain ⟨ws, zs, rfl, hws, hzs⟩ := List.map_eq_append_iff.mp h
    obtain ⟨us, xs, rfl, hus, hxs⟩ := List.map_eq_append_iff.mp hws
    obtain ⟨c, vs, rfl, hc, hvs⟩ := List.map_eq_cons_iff.mp hzs
    have hcomma : TypeTokens [c] := .sign hc (by decide)
    have helement := (t.typeTokens hus).append (typeTokens_name hxs)
    exact helement.append (hcomma.append (es.typeTokens hvs))

end

/-! ## The rule for types -/

namespace Parser

variable {ts mid rest : List Token} {t u : Token}

/-- A round that asks for another one. -/
theorem repeatWhile_again {step : Parser Bool}
    (hstep : ∀ ts mid, step ts = .ok (true, mid) → mid.length < ts.length)
    (h : step ts = .ok (true, mid)) : repeatWhile step ts = repeatWhile step mid := by
  refine loop_again (fun _ ts _ mid h => ?_) (bind_eq_ok.mpr ⟨true, mid, h, rfl⟩)
  obtain ⟨b, mid', hrun, hpure⟩ := bind_eq_ok.mp h
  cases b <;> cases hpure
  exact hstep ts mid hrun

theorem typePart_lt (ts mid : List Token) (h : typePart ts = .ok (true, mid)) :
    mid.length < ts.length :=
  Comparison.sim_typePart.length_lt h rfl

theorem typeSuffix_lt (ts mid : List Token) (h : typeSuffix ts = .ok (true, mid)) :
    mid.length < ts.length :=
  Comparison.sim_typeSuffix.length_lt h rfl

theorem readsAny_cons_of_content {ws : List String} {w : String} (ht : t.content = sign w)
    (ts : List Token) : Ahead.readsAny ws (t :: ts) = ws.contains w := by
  obtain ⟨hkind, rfl⟩ : t.kind = .operator ∧ t.text = w := Prod.mk.inj ht
  induction ws with
  | nil => rfl
  | cons v ws ih =>
    rw [Ahead.readsAny, List.any_cons, ← Ahead.readsAny, ih, List.contains_cons]
    simp [Ahead.reads, Token.reads, hkind, Kind.isLiteral]

theorem reads_cons_of_content {v w : String} (ht : t.content = sign w) (ts : List Token) :
    Ahead.reads v (t :: ts) = (w == v) := by
  obtain ⟨hkind, rfl⟩ : t.kind = .operator ∧ t.text = w := Prod.mk.inj ht
  simp [Ahead.reads, Token.reads, hkind, Kind.isLiteral]

theorem reads_of_content {w : String} (ht : t.content = sign w) : t.reads w = true := by
  simpa [Ahead.reads] using reads_cons_of_content (v := w) ht []

/-- A further word of a qualified name. -/
theorem typePart_word {q : Qualifier} (ht : t.content = sign q.text)
    (hu : u.kind.isWord = true) (rest : List Token) :
    typePart (t :: u :: rest) = .ok (true, rest) := by
  have hq : ([".", "::"] : List String).contains q.text = true := by cases q <;> decide
  unfold typePart
  rw [ahead_bind, readsAny_cons_of_content ht, if_pos hq]
  refine bind_eq_ok.mpr ⟨(), u :: rest, rfl, ?_⟩
  rw [ahead_bind, if_pos (by simpa [Ahead.isWord] using hu)]
  rfl

/-- Type arguments. -/
theorem typePart_arguments {us : List Token} (ht : t.content = sign "<") (hus : TypeTokens us)
    (hu : u.content = sign ">") (rest : List Token) :
    typePart (t :: (us ++ u :: rest)) = .ok (true, rest) := by
  have hclose : closeAngles 1 (us ++ u :: rest) = .ok rest := by
    rw [hus.angles, closeAngles]
    obtain ⟨hkind, htext⟩ : u.kind = .operator ∧ u.text = ">" := Prod.mk.inj hu
    simp [Token.reads, hkind, htext, Kind.isLiteral, closeAngles]
  unfold typePart isAt
  rw [ahead_bind, readsAny_cons_of_content ht, if_neg (by decide), ahead_bind,
    reads_cons_of_content ht, if_pos (by decide)]
  refine bind_eq_ok.mpr ⟨(), rest, ?_, rfl⟩
  refine expect_bind_eq_ok.mpr ⟨by rw [reads_cons_of_content ht]; decide, ?_⟩
  show (closeAngles 1 (us ++ u :: rest)).map _ = _
  rw [hclose]
  rfl

theorem typeSuffix_sign {w : String} (hw : w ∈ ["?", "*"]) (ht : t.content = sign w)
    (rest : List Token) : typeSuffix (t :: rest) = .ok (true, rest) := by
  unfold typeSuffix
  rw [ahead_bind, readsAny_cons_of_content ht, if_pos (List.contains_iff_mem.mpr hw)]
  rfl

/-- The brackets of an array. -/
theorem typeSuffix_brackets {n : Nat} {us : List Token} (ht : t.content = sign "[")
    (hus : us.map Token.content = List.replicate n (sign ",")) (hu : u.content = sign "]")
    (rest : List Token) : typeSuffix (t :: (us ++ u :: rest)) = .ok (true, rest) := by
  have hsecond : ["]", ","].contains (Ahead.text 1 (t :: (us ++ u :: rest))) = true := by
    cases n with
    | zero =>
      obtain rfl := List.map_eq_nil_iff.mp hus
      obtain ⟨-, htext⟩ : u.kind = .operator ∧ u.text = "]" := Prod.mk.inj hu
      simp [Ahead.text, htext]
    | succ n =>
      obtain ⟨c, us, rfl, hc, -⟩ := List.map_eq_cons_iff.mp hus
      obtain ⟨-, htext⟩ : c.kind = .operator ∧ c.text = "," := Prod.mk.inj hc
      simp [Ahead.text, htext]
  have hgroup := (typeTokens_commas hus).isGroup (b := .square) ht hu
  unfold typeSuffix
  rw [ahead_bind, readsAny_cons_of_content ht, if_neg (by decide), ahead_bind,
    reads_cons_of_content ht, if_pos (by rw [hsecond]; decide)]
  refine bind_eq_ok.mpr ⟨(), rest, ?_, rfl⟩
  simpa using group_of_isGroup hgroup rest

end Parser

open SharpScript.Parser

/-- Behind its first word, a part of a name is passed over as parts of names are. -/
theorem NamePart.exists_word (p : NamePart) {us : List Token}
    (h : us.map Token.content = p.contents) :
    ∃ i t vs, us = t :: vs ∧ t.content = Identifier.content i ∧
      ∀ rest, repeatWhile typePart (vs ++ rest) = repeatWhile typePart rest := by
  cases p with
  | plain i =>
    obtain ⟨t, rfl, ht⟩ := List.map_eq_singleton_iff.mp h
    exact ⟨i, t, [], rfl, ht, fun _ => rfl⟩
  | generic i args =>
    obtain ⟨t, _, rfl, ht, h⟩ := List.map_eq_cons_iff.mp h
    obtain ⟨l, _, rfl, hl, h⟩ := List.map_eq_cons_iff.mp h
    obtain ⟨us, vs, rfl, hus, hvs⟩ := List.map_eq_append_iff.mp h
    obtain ⟨r, rfl, hr⟩ := List.map_eq_singleton_iff.mp hvs
    refine ⟨i, t, _, rfl, ht, fun rest => ?_⟩
    have hround := typePart_arguments hl (args.typeTokens hus) hr rest
    rw [List.cons_append, List.append_assoc, List.singleton_append]
    exact repeatWhile_again typePart_lt hround

theorem TypeName.exists_word :
    ∀ (n : TypeName) {us : List Token}, us.map Token.content = n.contents →
      ∃ i t vs, us = t :: vs ∧ t.content = Identifier.content i ∧
      ∀ rest, repeatWhile typePart (vs ++ rest) = repeatWhile typePart rest
  | .part p, _, h => p.exists_word h
  | .qualified n q p, _, h => by
    obtain ⟨us, ws, rfl, hus, hws⟩ := List.map_eq_append_iff.mp h
    obtain ⟨c, vs, rfl, hc, hvs⟩ := List.map_eq_cons_iff.mp hws
    obtain ⟨i, t, us, rfl, ht, hbefore⟩ := n.exists_word hus
    obtain ⟨j, u, vs, rfl, hu, hbehind⟩ := p.exists_word hvs
    refine ⟨i, t, _, rfl, ht, fun rest => ?_⟩
    have hword := Kind.isWord_of_isIdentifier (Identifier.isIdentifier_of_content hu)
    calc repeatWhile typePart (us ++ c :: u :: vs ++ rest)
        = repeatWhile typePart (c :: u :: (vs ++ rest)) := by
          rw [List.append_assoc]
          exact hbefore _
      _ = repeatWhile typePart (vs ++ rest) :=
          repeatWhile_again typePart_lt (typePart_word hc hword _)
      _ = repeatWhile typePart rest := hbehind rest

/-- Behind a qualified name, suffixes may follow. -/
theorem TypeName.typeReference_eq (n : TypeName) {us rest : List Token}
    (h : us.map Token.content = n.contents)
    (hrest : Ahead.readsAny [".", "::", "<"] rest = false) :
    typeReference (us ++ rest) = repeatWhile typeSuffix rest := by
  obtain ⟨i, t, vs, rfl, ht, hparts⟩ := n.exists_word h
  have hword := Kind.isWord_of_isIdentifier (Identifier.isIdentifier_of_content ht)
  have hlast : typePart rest = .ok (false, rest) := by
    simp only [Ahead.readsAny, List.any_cons, List.any_nil, Bool.or_eq_false_iff] at hrest
    unfold typePart isAt
    rw [ahead_bind, if_neg (by simp [Ahead.readsAny, hrest]), ahead_bind,
      if_neg (by simp [hrest])]
    rfl
  have hdone : repeatWhile typePart (vs ++ rest) = .ok ((), rest) := by
    rw [hparts]
    exact (repeatWhile_eq_ok typePart_lt).mpr (.inl hlast)
  have htuple : t.reads "(" = false := Identifier.reads_eq_false ht (by decide)
  unfold typeReference isAt
  rw [ahead_bind, List.cons_append, if_neg (by simp [Ahead.reads, htuple]), ahead_bind,
    if_pos (by simpa [Ahead.isWord] using hword)]
  show (repeatWhile typePart (vs ++ rest) >>= fun r => repeatWhile typeSuffix r.2) = _
  rw [hdone]
  rfl

mutual

/-- Behind a type, further suffixes may follow. -/
theorem TypeSyntax.typeReference_eq : ∀ (T : TypeSyntax) {us rest : List Token},
    us.map Token.content = T.contents → Ahead.readsAny [".", "::", "<"] rest = false →
    typeReference (us ++ rest) = repeatWhile typeSuffix rest
  | .solid t, _, _, h, hrest => t.typeReference_eq h hrest
  | .nullable t, _, rest, h, _ => by
    obtain ⟨us, vs, rfl, hus, hvs⟩ := List.map_eq_append_iff.mp h
    obtain ⟨u, rfl, hu⟩ := List.map_eq_singleton_iff.mp hvs
    rw [List.append_assoc, List.singleton_append,
      t.typeReference_eq hus (readsAny_cons_of_content hu _)]
    exact repeatWhile_again typeSuffix_lt (typeSuffix_sign (by decide) hu rest)

theorem SolidType.typeReference_eq : ∀ (T : SolidType) {us rest : List Token},
    us.map Token.content = T.contents → Ahead.readsAny [".", "::", "<"] rest = false →
    typeReference (us ++ rest) = repeatWhile typeSuffix rest
  | .name n, _, _, h, hrest => n.typeReference_eq h hrest
  | .tuple es, _, rest, h, _ => by
    obtain ⟨t, vs, rfl, ht, hvs⟩ := List.map_eq_cons_iff.mp h
    obtain ⟨us, ws, rfl, hus, hws⟩ := List.map_eq_append_iff.mp hvs
    obtain ⟨u, rfl, hu⟩ := List.map_eq_singleton_iff.mp hws
    have hgroup := (es.typeTokens hus).isGroup (b := .round) ht hu
    unfold typeReference isAt
    rw [ahead_bind, if_pos (by rw [List.cons_append, reads_cons_of_content ht]; decide)]
    show (group (t :: (us ++ [u]) ++ rest) >>= fun r => repeatWhile typeSuffix r.2) = _
    rw [group_of_isGroup hgroup]
    rfl
  | .array t commas, _, rest, h, _ => by
    obtain ⟨us, vs, rfl, hus, hvs⟩ := List.map_eq_append_iff.mp h
    obtain ⟨l, _, rfl, hl, hvs⟩ := List.map_eq_cons_iff.mp hvs
    obtain ⟨cs, _, rfl, hcs, hvs⟩ := List.map_eq_append_iff.mp hvs
    obtain ⟨r, rfl, hr⟩ := List.map_eq_singleton_iff.mp hvs
    rw [List.append_assoc, List.cons_append, List.append_assoc, List.singleton_append,
      t.typeReference_eq hus (readsAny_cons_of_content hl _)]
    exact repeatWhile_again typeSuffix_lt (typeSuffix_brackets hl hcs hr rest)
  | .pointer t, _, rest, h, _ => by
    obtain ⟨us, vs, rfl, hus, hvs⟩ := List.map_eq_append_iff.mp h
    obtain ⟨u, rfl, hu⟩ := List.map_eq_singleton_iff.mp hvs
    rw [List.append_assoc, List.singleton_append,
      t.typeReference_eq hus (readsAny_cons_of_content hu _)]
    exact repeatWhile_again typeSuffix_lt (typeSuffix_sign (by decide) hu rest)

end

/-- **The rule for types passes over a type**, before anything that cannot go on with it. -/
theorem TypeSyntax.typeReference_append (T : TypeSyntax) {us rest : List Token}
    (h : us.map Token.content = T.contents) (hrest : EndsType rest) :
    typeReference (us ++ rest) = .ok ((), rest) := by
  rw [T.typeReference_eq h (hrest.readsAny (by simp))]
  exact (repeatWhile_eq_ok typeSuffix_lt).mpr (.inl (typeSuffix_of_ends hrest))

end SharpScript
