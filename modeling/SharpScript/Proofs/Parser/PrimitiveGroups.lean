import SharpScript.Proofs.Parser.Groups
import SharpScript.Proofs.Parser.Reading

/-! # Where a group ends, and where it fails to

From an opening bracket on, the brackets that are open are kept until none is left.  What is
passed over by then is described here by its brackets alone: it is well nested, and no shorter
part of it from the first token on is.  A group that does not end leaves brackets open, and the
innermost of them is the one that the failure asks for.

## Main Definitions

* `IsPrimitive`: an opening bracket and what follows it, up to where the brackets are well
  nested for the first time;
* `Unfinished`: the beginning of a group, with the brackets that it leaves open;
* `GroupFailure`: the failures at a place where no group stands.

## Main Results

* `isPrimitive_iff`: primitive groups are those in a pair of brackets that belong together;
* `Parser.group_eq_ok_iff`, `Parser.group_eq_error_iff`: groups and failures in
  terms of what is passed over;
* `Parser.group_primitive`: **exactly the primitive groups are passed over**, and all else
  fails at the first bracket that does not match, at the end, or at once.
-/

namespace SharpScript

/-! ## Primitive groups -/

/-- The first of the tokens is an opening bracket. -/
def OpensGroup (w : List Token) : Prop := ∃ t ∈ w.head?, ∃ b, t.sign? = some (.opening b)

/-- The tokens begin with an opening bracket and their brackets are well nested, but those of
no shorter beginning are. -/
structure IsPrimitive (w : List Token) : Prop where
  opens : OpensGroup w
  balanced : Balanced w
  shortest : ∀ v, v <+: w → v ≠ [] → Balanced v → v = w

section Primitive

variable {b : Bracket} {t : Token} {w : List Token}

/-- Well nested tokens that begin with an opening bracket begin with a group. -/
theorem exists_group_of_balanced (ht : t.sign? = some (.opening b)) (h : Balanced (t :: w)) :
    ∃ g rest, t :: w = g ++ rest ∧ IsGroup b g := by
  unfold Balanced at h
  rw [signs_cons, ht] at h
  generalize hsigns : (some (Sign.opening b)).toList ++ signs w = zs at h
  cases h with
  | nil => cases hsigns
  | @nest _ xs ys hx hy =>
    obtain ⟨hopening, hinner⟩ := List.cons.inj hsigns
    cases hopening
    -- The brackets behind the first one are those of its group, its closing
    -- bracket and the others.
    obtain ⟨x, _, rfl, hx', hclosing⟩ := List.filterMap_eq_append_iff.mp hinner
    obtain ⟨m, u, y, rfl, hm, hu, -⟩ := List.filterMap_eq_cons_iff.mp hclosing
    refine ⟨t :: (x ++ m ++ [u]), y, by simp, t, x ++ m, u, rfl, ht, ?_, hu⟩
    have hm : signs m = [] := List.filterMap_eq_nil_iff.mpr hm
    unfold Balanced
    rwa [signs_append, hm, List.append_nil, show signs x = xs from hx']

/-- Primitive groups are those in a pair of brackets that belong together. -/
theorem isPrimitive_iff : IsPrimitive w ↔ ∃ b, IsGroup b w := by
  constructor
  · rintro ⟨⟨t, ht, b, hopening⟩, hbalanced, hshortest⟩
    obtain ⟨w, rfl⟩ := List.head?_eq_some_iff.mp ht
    obtain ⟨g, rest, hg, hgroup⟩ := exists_group_of_balanced hopening hbalanced
    have hne : g ≠ [] := by
      obtain ⟨_, _, rfl, -⟩ := hgroup.exists_cons
      exact List.cons_ne_nil _ _
    rw [← hshortest g (hg ▸ List.prefix_append g rest) hne hgroup.balanced]
    exact ⟨b, hgroup⟩
  · rintro ⟨b, hgroup⟩
    obtain ⟨t, w, u, rfl, ht, -⟩ := id hgroup
    refine ⟨⟨t, rfl, b, ht⟩, hgroup.balanced, ?_⟩
    rintro v ⟨z, hz⟩ hne hbalanced
    -- A shorter beginning would begin with a group as well, and one of the two is passed over.
    obtain ⟨_, v, rfl⟩ := List.exists_cons_of_ne_nil hne
    obtain ⟨rfl, -⟩ := List.cons.inj hz
    obtain ⟨g, rest, hg, hshorter⟩ := exists_group_of_balanced ht hbalanced
    have hwhole := Parser.group_of_isGroup hgroup []
    rw [List.append_nil, ← hz, hg, List.append_assoc, Parser.group_of_isGroup hshorter]
      at hwhole
    obtain ⟨-, rfl⟩ : rest = [] ∧ z = [] := by simpa using hwhole
    rw [← hz, List.append_nil]

theorem IsPrimitive.ne_nil (h : IsPrimitive w) : w ≠ [] := by
  rintro rfl
  obtain ⟨t, ht, -⟩ := h.opens
  cases ht

end Primitive

/-! ## Groups that do not end -/

/-- The tokens begin a group and do not end it.  They open the brackets `bs`, of which the
first is the innermost, and close none of these. -/
inductive Unfinished : (bs : List Bracket) → List Token → Prop
  | first {b : Bracket} {t : Token} {v : List Token} (ht : t.sign? = some (.opening b))
      (hv : Balanced v) : Unfinished [b] (t :: v)
  | next {b c : Bracket} {bs : List Bracket} {t : Token} {v w : List Token}
      (hw : Unfinished (c :: bs) w) (ht : t.sign? = some (.opening b)) (hv : Balanced v) :
      Unfinished (b :: c :: bs) (w ++ t :: v)

namespace Unfinished

variable {b c : Bracket} {bs : List Bracket} {t : Token} {v w : List Token}

theorem ne_nil (h : Unfinished bs w) : w ≠ [] := by
  cases h <;> simp

/-- Behind the beginning of a group, well nested tokens leave the same brackets open. -/
theorem append (h : Unfinished bs w) (hv : Balanced v) : Unfinished bs (w ++ v) := by
  cases h with
  | first ht hv' => exact .first ht (hv'.append hv)
  | next hw ht hv' =>
    rw [List.append_assoc]
    exact .next hw ht (hv'.append hv)

/-- A closing bracket of the right kind closes the innermost bracket. -/
theorem closing (h : Unfinished (b :: c :: bs) w) (ht : t.sign? = some (.closing b)) :
    Unfinished (c :: bs) (w ++ [t]) := by
  cases h with
  | @next _ _ _ t' v w hw ht' hv =>
    have hgroup : IsGroup b (t' :: (v ++ [t])) := ⟨t', v, t, rfl, ht', hv, ht⟩
    rw [List.append_assoc]
    exact hw.append hgroup.balanced

/-- The brackets that are left open are those that are kept. -/
theorem group_eq (h : Unfinished bs w) (rest : List Token) :
    Parser.group (w ++ rest) = (Bracket.close bs rest).map ((), ·) := by
  induction h generalizing rest with
  | first ht hv =>
    rw [List.cons_append, Parser.group, Bracket.opened?_of_sign? ht]
    simp only [Bracket.close_balanced hv]
  | next _ ht hv ih =>
    rw [List.append_assoc, ih, List.cons_append, Bracket.close_opening ht,
      Bracket.close_balanced hv]

end Unfinished

/-- The tokens do not go on with the bracket `b` or something in it: they end, or a bracket of
another kind is closed. -/
inductive Stuck (b : Bracket) : List Token → Prop
  | nil : Stuck b []
  | cons {t : Token} {ts : List Token} {c : Bracket} (ht : t.sign? = some (.closing c))
      (hne : c ≠ b) :
      Stuck b (t :: ts)

theorem Stuck.close_eq {b : Bracket} {ts : List Token} (h : Stuck b ts) (bs : List Bracket) :
    Bracket.close (b :: bs) ts = .error ⟨.expected (.word b.closing), ts⟩ := by
  cases h with
  | nil => rw [Bracket.close]
  | @cons t ts c ht hne =>
    have hopened : ∀ c, t.sign? ≠ some (.opening c) := by simp [ht]
    have hclosed : Bracket.closed? t = some c := by
      simpa [ht] using Bracket.closed?_of_sign? hopened
    rw [Bracket.close, Bracket.opened?_eq_none hopened, hclosed]
    exact if_neg hne

/-- Where a failure arises, the group that has been begun cannot go on. -/
theorem Unfinished.exists_stuck {bs : List Bracket} {w ts : List Token} {e : Failure}
    (hw : Unfinished bs w) (h : Bracket.close bs ts = .error e) :
    ∃ w' rest b bs', w ++ ts = w' ++ rest ∧ Unfinished (b :: bs') w' ∧ Stuck b rest ∧
      e = ⟨.expected (.word b.closing), rest⟩ := by
  fun_induction Bracket.close bs ts generalizing w with
  | case1 => cases h
  | case2 b bs =>
    cases h
    exact ⟨w, [], b, bs, rfl, hw, .nil, rfl⟩
  | case3 b bs t ts inner hopen ih =>
    have ht : t.sign? = some (.opening inner) := by rw [Token.sign?, hopen]
    rw [List.append_cons]
    exact ih (hw.next ht balanced_nil) h
  | case4 b bs t ts hopen hclose ih =>
    have ht : t.sign? = none := by rw [Token.sign?, hopen, hclose, Option.map_none]
    rw [List.append_cons]
    exact ih (hw.append (balanced_single ht)) h
  | case5 bs t ts hopen c hclose ih =>
    have ht : t.sign? = some (.closing c) := by
      rw [Token.sign?, hopen, hclose, Option.map_some]
    cases bs with
    | nil => simp [Bracket.close] at h
    | cons b bs =>
      rw [List.append_cons]
      exact ih (hw.closing ht) h
  | case6 b bs t ts hopen c hclose hne =>
    have ht : t.sign? = some (.closing c) := by
      rw [Token.sign?, hopen, hclose, Option.map_some]
    cases h
    exact ⟨w, t :: ts, b, bs, rfl, hw, .cons ht hne, rfl⟩

namespace Parser

variable {ts rest : List Token} {e : Failure}

/-! ## What is passed over -/

theorem group_of_not_opens (h : ¬OpensGroup ts) :
    group ts = .error ⟨.expected .bracket, ts⟩ := by
  cases ts with
  | nil => rfl
  | cons t ts =>
    have hopen : Bracket.opened? t = none :=
      Bracket.opened?_eq_none fun b hb => h ⟨t, rfl, b, hb⟩
    rw [group, hopen]

theorem group_eq_ok_iff : group ts = .ok ((), rest) ↔ ∃ w, IsPrimitive w ∧ ts = w ++ rest := by
  constructor
  · intro h
    obtain ⟨w, rfl, hspans⟩ := exists_append_of_reads Comparison.sim_group h
    obtain ⟨t, w, rfl⟩ := List.exists_cons_of_ne_nil (hspans.progress rfl)
    have hopens : OpensGroup (t :: w ++ rest) := by
      by_contra hopens
      rw [group_of_not_opens hopens] at h
      cases h
    obtain ⟨_, ⟨⟩, b, hb⟩ := hopens
    -- What is passed over begins with a group, behind which nothing is passed over.
    obtain ⟨g, v, hg, hgroup⟩ := exists_group_of_balanced hb (hspans.balanced rfl)
    rw [hg, List.append_assoc, group_of_isGroup hgroup] at h
    obtain rfl : v = [] := by simpa using h
    rw [List.append_nil] at hg
    exact ⟨g, isPrimitive_iff.mpr ⟨b, hgroup⟩, by rw [hg]⟩
  · rintro ⟨w, hw, rfl⟩
    obtain ⟨b, hgroup⟩ := isPrimitive_iff.mp hw
    exact group_of_isGroup hgroup rest

theorem group_eq_error_iff : group ts = .error e ↔
    (¬OpensGroup ts ∧ e = ⟨.expected .bracket, ts⟩) ∨
      ∃ w rest b bs, ts = w ++ rest ∧ Unfinished (b :: bs) w ∧ Stuck b rest ∧
        e = ⟨.expected (.word b.closing), rest⟩ := by
  constructor
  · intro h
    by_cases hopens : OpensGroup ts
    · obtain ⟨t, ht, b, hb⟩ := hopens
      obtain ⟨ts, rfl⟩ := List.head?_eq_some_iff.mp ht
      have hfirst : Unfinished [b] [t] := .first hb balanced_nil
      have hclose : Bracket.close [b] ts = .error e := by
        have hrun := hfirst.group_eq ts
        rw [List.singleton_append, h] at hrun
        cases hclose : Bracket.close [b] ts with
        | error e' =>
          rw [hclose] at hrun
          cases hrun
          rfl
        | ok rest =>
          rw [hclose] at hrun
          cases hrun
      exact .inr (hfirst.exists_stuck hclose)
    · rw [group_of_not_opens hopens] at h
      cases h
      exact .inl ⟨hopens, rfl⟩
  · rintro (⟨hopens, rfl⟩ | ⟨w, rest, b, bs, rfl, hw, hstuck, rfl⟩)
    · exact group_of_not_opens hopens
    · rw [hw.group_eq, hstuck.close_eq]
      rfl

end Parser

/-! ## Places -/

section Places

variable {ts w rest : List Token} {p k : Nat}

/-- The tokens from one place on are those up to another place and those from there on. -/
theorem drop_eq_take_append (ts : List Token) (h : p ≤ k) :
    ts.drop p = (ts.drop p).take (k - p) ++ ts.drop k := by
  have hdrop : (ts.drop p).drop (k - p) = ts.drop k := by
    rw [List.drop_drop, Nat.add_sub_cancel' h]
  rw [← hdrop, List.take_append_drop]

/-- Behind some tokens from one place on there is another place. -/
theorem exists_place (h : ts.drop p = w ++ rest) (hw : w ≠ []) :
    ∃ k, p < k ∧ k ≤ ts.length ∧ (ts.drop p).take (k - p) = w ∧ ts.drop k = rest := by
  have hpos := List.length_pos_of_ne_nil hw
  have hlength := congrArg List.length h
  rw [List.length_drop, List.length_append] at hlength
  refine ⟨p + w.length, by omega, by omega, ?_, ?_⟩
  · rw [h, Nat.add_sub_cancel_left, List.take_left]
  · rw [← List.drop_drop, h, List.drop_left]

end Places

/-- Why no group stands at the place `p` of the tokens `ts`: no bracket is opened
there, or the group is begun and a bracket is closed that does not match the innermost
one, or the tokens end. -/
inductive GroupFailure (ts : List Token) (p : Nat) : Failure → Prop
  | noBracket (h : ¬OpensGroup (ts.drop p)) : GroupFailure ts p ⟨.expected .bracket, ts.drop p⟩
  | mismatch {k : Nat} {b c : Bracket} {bs : List Bracket} {t : Token} (hpk : p < k)
      (hopen : Unfinished (b :: bs) ((ts.drop p).take (k - p))) (ht : ts[k]? = some t)
      (hclose : t.sign? = some (.closing c)) (hne : c ≠ b) :
      GroupFailure ts p ⟨.expected (.word b.closing), ts.drop k⟩
  | unclosed {b : Bracket} {bs : List Bracket} (hopen : Unfinished (b :: bs) (ts.drop p)) :
      GroupFailure ts p ⟨.expected (.word b.closing), []⟩

namespace Parser

/-- **Exactly the primitive groups are passed over.**  Everywhere else there is a failure, of
the three sorts that `GroupFailure` describes; the one at the end asks for the innermost
bracket that is open. -/
theorem group_primitive (ts : List Token) (p : Nat) :
    (∀ rest, group (ts.drop p) = .ok ((), rest) ↔
      ∃ q, p < q ∧ q ≤ ts.length ∧ IsPrimitive ((ts.drop p).take (q - p)) ∧ rest = ts.drop q) ∧
    (∀ e, group (ts.drop p) = .error e ↔ GroupFailure ts p e) ∧
    ∀ b : Bracket, (⟨.expected (.word b.closing), []⟩ : Failure).message =
      "expected '" ++ b.closing ++ "', got end of input" := by
  refine ⟨fun rest => group_eq_ok_iff.trans ⟨?_, ?_⟩,
    fun e => group_eq_error_iff.trans ⟨?_, ?_⟩, ?_⟩
  · rintro ⟨w, hw, hts⟩
    obtain ⟨q, hpq, hq, rfl, rfl⟩ := exists_place hts hw.ne_nil
    exact ⟨q, hpq, hq, hw, rfl⟩
  · rintro ⟨q, hpq, -, hw, rfl⟩
    exact ⟨_, hw, drop_eq_take_append ts hpq.le⟩
  · rintro (⟨hopens, rfl⟩ | ⟨w, rest, b, bs, hts, hw, hstuck, rfl⟩)
    · exact .noBracket hopens
    · cases hstuck with
      | nil =>
        rw [List.append_nil] at hts
        exact .unclosed (hts ▸ hw)
      | @cons t us c ht hne =>
        obtain ⟨k, hpk, -, rfl, hk⟩ := exists_place hts hw.ne_nil
        rw [← hk]
        refine .mismatch hpk hw ?_ ht hne
        rw [← List.head?_drop, hk, List.head?_cons]
  · intro h
    cases h with
    | noBracket hopens => exact .inl ⟨hopens, rfl⟩
    | @mismatch k b c bs t hpk hopen ht hclose hne =>
      refine .inr ⟨_, _, b, bs, drop_eq_take_append ts hpk.le, hopen, ?_, rfl⟩
      rw [← List.head?_drop] at ht
      obtain ⟨us, hus⟩ := List.head?_eq_some_iff.mp ht
      rw [hus]
      exact .cons hclose hne
    | unclosed hopen => exact .inr ⟨_, [], _, _, (List.append_nil _).symm, hopen, .nil, rfl⟩
  · intro b
    cases b <;> decide

end Parser

end SharpScript
