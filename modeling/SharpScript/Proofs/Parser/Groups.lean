import SharpScript.Proofs.Parser.Passage
import SharpScript.Proofs.Parser.Yields

/-! # Groups in brackets

A group is passed over by keeping the brackets that are open.  Tokens whose brackets are well
nested leave these as they are, so a group ends with the bracket that its first one is paired
with, whatever comes behind.

## Main Definitions

* `IsGroup`: an opening bracket, well nested tokens and the closing bracket of the same kind;
* `IsChunk`: a token that is no bracket, or a group.

## Main Results

* `Bracket.close_balanced`: **well nested tokens leave the open brackets as they are**;
* `Parser.group_of_isGroup`, `Parser.chunk_of_isChunk`: groups and chunks are passed over.
-/

namespace SharpScript

/-! ## Open brackets -/

namespace Bracket

variable {b c : Bracket} {bs : List Bracket} {t : Token} {w ts : List Token}

theorem opening_injective : Function.Injective opening := by
  intro b c h
  cases b <;> cases c <;> first | rfl | exact absurd h (by decide)

/-- What opens a bracket is told by the sign of the token, and so is what closes one. -/
theorem opened?_of_sign? (h : t.sign? = some (.opening b)) : opened? t = some b := by
  unfold Token.sign? at h
  cases ht : opened? t with
  | some c =>
    rw [ht] at h
    cases h
    rfl
  | none =>
    rw [ht] at h
    cases hc : closed? t <;> simp [hc] at h

theorem opened?_eq_none (h : ∀ c, t.sign? ≠ some (.opening c)) : opened? t = none := by
  cases ht : opened? t with
  | none => rfl
  | some c => exact absurd (by rw [Token.sign?, ht]) (h c)

theorem closed?_of_sign? (h : ∀ c, t.sign? ≠ some (.opening c)) :
    (closed? t).map .closing = t.sign? := by
  rw [Token.sign?, opened?_eq_none h]

/-- One token: a plain one is passed over, an opening bracket is put on the stack and a closing
one is taken off. -/
theorem close_plain (h : t.sign? = none) (bs : List Bracket) (ts : List Token) :
    close (b :: bs) (t :: ts) = close (b :: bs) ts := by
  have hopened : ∀ c, t.sign? ≠ some (.opening c) := by simp [h]
  have hclosed : closed? t = none := by simpa [h] using closed?_of_sign? hopened
  rw [close, opened?_eq_none hopened, hclosed]

theorem close_opening (h : t.sign? = some (.opening c)) (bs : List Bracket) (ts : List Token) :
    close (b :: bs) (t :: ts) = close (c :: b :: bs) ts := by
  rw [close, opened?_of_sign? h]

theorem close_closing (h : t.sign? = some (.closing b)) (bs : List Bracket) (ts : List Token) :
    close (b :: bs) (t :: ts) = close bs ts := by
  have hopened : ∀ c, t.sign? ≠ some (.opening c) := by simp [h]
  have hclosed : closed? t = some b := by simpa [h] using closed?_of_sign? hopened
  rw [close, opened?_eq_none hopened, hclosed]
  exact if_pos rfl

/-- Plain tokens are all passed over. -/
theorem close_plains (h : ∀ t ∈ w, t.sign? = none) (bs : List Bracket) (ts : List Token) :
    close (b :: bs) (w ++ ts) = close (b :: bs) ts := by
  induction w with
  | nil => rfl
  | cons t w ih =>
    obtain ⟨ht, hw⟩ := List.forall_mem_cons.mp h
    rw [List.cons_append, close_plain ht, ih hw]

/-- **Well nested tokens leave the open brackets as they are.** -/
theorem close_balanced (hw : Balanced w) (bs : List Bracket) (ts : List Token) :
    close (b :: bs) (w ++ ts) = close (b :: bs) ts := by
  unfold Balanced at hw
  generalize hsigns : signs w = xs at hw
  induction hw generalizing w b bs ts with
  | nil => exact close_plains (List.filterMap_eq_nil_iff.mp hsigns) bs ts
  | nest c _ _ ihx ihy =>
    -- The tokens are an opening bracket, its group, the closing one and the rest, with tokens
    -- that are no brackets before each of the two.
    obtain ⟨v, t, _, rfl, hv, ht, hinner⟩ := List.filterMap_eq_cons_iff.mp hsigns
    obtain ⟨x, _, rfl, hx, hclosing⟩ := List.filterMap_eq_append_iff.mp hinner
    obtain ⟨v', u, y, rfl, hv', hu, hy⟩ := List.filterMap_eq_cons_iff.mp hclosing
    simp only [List.append_assoc, List.cons_append]
    calc close (b :: bs) (v ++ t :: (x ++ (v' ++ u :: (y ++ ts))))
        = close (b :: bs) (t :: (x ++ (v' ++ u :: (y ++ ts)))) := close_plains hv bs _
      _ = close (c :: b :: bs) (x ++ (v' ++ u :: (y ++ ts))) := close_opening ht bs _
      _ = close (c :: b :: bs) (v' ++ u :: (y ++ ts)) := ihx (b :: bs) _ hx
      _ = close (c :: b :: bs) (u :: (y ++ ts)) := close_plains hv' (b :: bs) _
      _ = close (b :: bs) (y ++ ts) := close_closing hu (b :: bs) _
      _ = close (b :: bs) ts := ihy bs ts hy

end Bracket

/-! ## Groups -/

/-- A group in brackets of the kind `b`. -/
def IsGroup (b : Bracket) (ts : List Token) : Prop :=
  ∃ t w u, ts = t :: (w ++ [u]) ∧ t.sign? = some (.opening b) ∧ Balanced w ∧
    u.sign? = some (.closing b)

/-- A token that is no bracket, or a group. -/
inductive IsChunk : List Token → Prop
  | token {t : Token} (ht : t.sign? = none) : IsChunk [t]
  | group {b : Bracket} {ts : List Token} (h : IsGroup b ts) : IsChunk ts

/-- A bracket is an operator. -/
theorem Token.isOperator_of_opening {t : Token} {b : Bracket}
    (h : t.sign? = some (.opening b)) :
    t.kind = .operator ∧ t.text = b.opening := by
  have := List.find?_some (Bracket.opened?_of_sign? h)
  simpa [Token.isOperator] using this

/-- The first token of a group. -/
theorem IsGroup.exists_cons {b : Bracket} {g : List Token} (h : IsGroup b g) :
    ∃ t ts, g = t :: ts ∧ t.kind = .operator ∧ t.text = b.opening := by
  obtain ⟨t, w, u, rfl, ht, -⟩ := h
  exact ⟨t, w ++ [u], rfl, Token.isOperator_of_opening ht⟩

/-- A group pairs its brackets. -/
theorem IsGroup.balanced {b : Bracket} {g : List Token} (h : IsGroup b g) : Balanced g := by
  obtain ⟨t, w, u, rfl, ht, hw, hu⟩ := h
  unfold Balanced at hw ⊢
  rw [signs_cons, signs_append, signs_cons, ht, hu]
  exact .nest b hw .nil

theorem IsChunk.ne_nil {c : List Token} (h : IsChunk c) : c ≠ [] := by
  cases h with
  | token => exact List.cons_ne_nil _ _
  | group h =>
    obtain ⟨t, ts, rfl, -⟩ := h.exists_cons
    exact List.cons_ne_nil _ _

/-- A chunk that begins with an opening bracket is a group in brackets of that kind. -/
theorem IsChunk.isGroup_iff {b : Bracket} {c : List Token} (hc : IsChunk c) :
    Ahead.isOperator [b.opening] c = true ↔ IsGroup b c := by
  constructor
  · intro h
    cases hc with
    | @token t ht =>
      obtain ⟨hkind, htext⟩ : t.kind = .operator ∧ t.text = b.opening := by
        simpa [Ahead.isOperator] using h
      rw [Parser.sign?_opening hkind htext] at ht
      cases ht
    | @group b' _ hgroup =>
      obtain ⟨t, ts, rfl, hkind, htext⟩ := hgroup.exists_cons
      have hopening : b'.opening = b.opening := by
        simpa [Ahead.isOperator, hkind, htext] using h
      rwa [← Bracket.opening_injective hopening]
  · intro h
    obtain ⟨t, ts, rfl, hkind, htext⟩ := h.exists_cons
    simp [Ahead.isOperator, hkind, htext]

namespace Parser

/-- **A group is read through its closing bracket.** -/
theorem group_of_isGroup {b : Bracket} {g : List Token} (h : IsGroup b g) (rest : List Token) :
    group (g ++ rest) = .ok ((), rest) := by
  obtain ⟨t, w, u, rfl, ht, hw, hu⟩ := h
  have hclose : Bracket.close [b] (w ++ [u] ++ rest) = .ok rest := by
    rw [List.append_assoc, Bracket.close_balanced hw, List.singleton_append,
      Bracket.close_closing hu, Bracket.close]
  rw [List.cons_append, group, Bracket.opened?_of_sign? ht]
  simp only [hclose]
  rfl

/-- A chunk is read as one, whatever comes behind it. -/
theorem chunk_of_isChunk {c : List Token} (h : IsChunk c) (rest : List Token) :
    chunk (c ++ rest) = .ok ((), rest) := by
  cases h with
  | @token t ht =>
    have hopened : ∀ c, t.sign? ≠ some (.opening c) := by simp [ht]
    have hclosed : Bracket.closed? t = none := by
      simpa [ht] using Bracket.closed?_of_sign? hopened
    rw [List.singleton_append, chunk, Bracket.opened?_eq_none hopened, hclosed]
    rfl
  | @group b c h =>
    obtain ⟨t, w, u, rfl, ht, -⟩ := id h
    rw [List.cons_append, chunk, Bracket.opened?_of_sign? ht, if_pos Option.isSome_some,
      ← List.cons_append]
    exact group_of_isGroup h rest

end Parser

end SharpScript
