import SharpScript.Parser.Source
import SharpScript.Proofs.Lexer.Join
import SharpScript.Proofs.Parser.Entry
import SharpScript.Proofs.Script.Writing

/-! # Source texts behind one another

The script of two source texts on lines of their own is the script of the first and
then that of the second.

## Main Definitions

* `Joins`: a compilation unit that stands for two others.

## Main Results

* `Parser.Entries.closed`: the last token of a source text closes something;
* `Parser.Entries.join`: **the entries of two texts are the entries of both**;
* `parse_lines`: the tree, the using directives and the script of two texts.

## Design Notes

The last entry of the first text is read again where more tokens come behind it, and two things
may happen then.  A statement may go on with `else`, `catch` or `finally`, which the second
text must not start with.  A declaration may pass over a `;` that the second text starts with;
then the second text has one entry less, and that entry leaves no trace.  If the first text has
a namespace that reaches to the end of the text, the entries of the second one come to stand in
it; since namespaces leave no trace in a script this makes no difference there, but the trees
of the two texts are not put together.
-/

namespace SharpScript

open Lexer

/-! ## The last token -/

/-- A sign that ends something by its text is an operator. -/
theorem Lexer.WellShaped.closes {t : Token} (h : WellShaped t) (hends : t.Ends) :
    t.Closes := by
  obtain ⟨w, hw, hread⟩ := hends
  have hclosers : (closers.all fun w => !Lexer.startsWord w) = true := by decide
  obtain ⟨hkind, rfl⟩ := h.isOperator_of_reads hread
    (by simpa using List.all_eq_true.mp hclosers w hw)
  exact ⟨hkind, hw⟩

namespace Parser

variable {ts us rest : List Token} {u v : CompilationUnit}

/-- The tokens read by an entry or the head of a namespace, and those behind them, close. -/
theorem closed_of_reads {α : Type} {c : Contract} {V : α → α → Prop} {p : Parser α} {a : α}
    (hp : Comparison.shifted.Sim c V p p) (hc : c.finished = true)
    (hshape : ∀ t ∈ ts, WellShaped t) (hrun : p ts = .ok (a, rest)) (hrest : Closed rest) :
    Closed ts := by
  obtain ⟨n, hn, rfl, hspans⟩ := hp.reads hrun
  intro t ht
  by_cases hdrop : ts.drop n = []
  · have htake : ts.take n = ts := List.take_of_length_le (List.drop_eq_nil_iff.mp hdrop)
    rw [htake] at hspans
    exact (hshape t (List.mem_of_getLast? ht)).closes (hspans.finished hc t ht)
  · refine hrest t ?_
    rw [List.getLast?_drop, if_neg (by rwa [List.drop_eq_nil_iff] at hdrop)]
    exact ht

/-- The last token of a source text closes something. -/
theorem Entries.closed (h : Entries ts u) (hshape : ∀ t ∈ ts, WellShaped t) : Closed ts := by
  induction h with
  | nil => exact fun t ht => nomatch ht
  | entry hts head _ ih =>
    refine closed_of_reads Comparison.sim_entry rfl hshape head (ih fun t ht => hshape t ?_)
    obtain ⟨n, -, rfl, -⟩ := Comparison.sim_entry.reads head
    exact List.mem_of_mem_drop ht
  | scope plain head _ ih =>
    refine closed_of_reads Comparison.sim_fileScope rfl hshape head
      (ih fun t ht => hshape t ?_)
    obtain ⟨n, -, rfl, -⟩ := Comparison.sim_fileScope.reads head
    exact List.mem_of_mem_drop ht

end Parser

/-! ## Entries behind one another -/

/-- The compilation unit `w` has the using directives and the script of `u` and
behind them those of `v`. -/
structure Joins (u v w : CompilationUnit) : Prop where
  usings : w.usings = u.usings ++ v.usings
  script {r : Replacement} {f g : Fragment} : u.write? r = .ok f → v.write? r = .ok g →
    w.write? r = .ok (f ++ g)

theorem joins_empty (v : CompilationUnit) : Joins ∅ v v where
  usings := rfl
  script hf hg := by
    cases hf
    rw [Fragment.empty_append]
    exact hg

/-- Declarations that differ in positions only may come before. -/
theorem Joins.append {a a' b v w : CompilationUnit} (ha : a.Agrees Eq Eq a')
    (h : Joins b v w) :
    Joins (a ++ b) v (a' ++ w) where
  usings := by
    have hmap :
        a'.usings = a.usings := (List.forall₂_eq_eq_eq ▸ ha.usings : a.usings = a'.usings).symm
    show a'.usings ++ w.usings = a.usings ++ b.usings ++ v.usings
    rw [h.usings, hmap, List.append_assoc]
  script {r f g} hf hg := by
    obtain ⟨f₁, f₂, hf₁, hf₂, rfl⟩ := writeItems?_append_eq_ok.mp hf
    obtain ⟨f₁', hf₁', hwrite⟩ := writeItems?_of_agree r ha.items
    obtain rfl : f₁ = f₁' := Except.ok.inj (hf₁.symm.trans hf₁')
    rw [Fragment.append_assoc]
    exact writeItems?_append_eq_ok.mpr ⟨f₁, f₂ ++ g, hwrite, h.script hf₂ hg, rfl⟩

/-- A namespace leaves no trace in the script. -/
theorem Joins.scope {u v w : CompilationUnit} (h : Joins u v w) (pos pos' : Pos)
    (name : String) :
    Joins ⟨u.usings, [.scope pos name u.items]⟩ v ⟨w.usings, [.scope pos' name w.items]⟩ where
  usings := h.usings
  script {r f g} hf hg := by
    have hscope : ∀ (u : CompilationUnit) (pos : Pos) (f : Fragment),
        writeItems? r [.scope pos name u.items] = .ok f ↔ u.write? r = .ok f := by
      intro u pos f
      rw [writeItems?_cons_eq_ok]
      constructor
      · rintro ⟨f₁, _, hf₁, ⟨⟩, rfl⟩
        rw [Fragment.append_empty]
        exact hf₁
      · exact fun hf => ⟨f, ∅, hf, rfl, (Fragment.append_empty f).symm⟩
    exact (hscope w pos' _).mpr (h.script ((hscope u pos _).mp hf) hg)

namespace Parser

variable {ts us : List Token} {u v : CompilationUnit}

theorem Plain.extend (h : Plain ts) (hts : ts ≠ []) (hclosed : Closed ts) (us : List Token) :
    Plain (ts ++ us) := by
  have htest : ∀ {f : List Token → Bool}, Tame f → f ts = f (ts ++ us) := fun hf =>
    Comparison.test_eq (C := .extension us) hf ⟨rfl, hclosed⟩ (.inr hts)
  refine ⟨?_, ?_, ?_⟩
  · rw [← htest (tame_reads _), h.semicolon]
  · rw [← htest tame_startsUsing, h.directive]
  · rw [← htest Comparison.test_startsAlias.tame]
    exact h.assembly

/-- A `;` at the start of a source text is an entry of its own, which gives nothing. -/
theorem Entries.tail {t : Token} (h : Entries (t :: us) v) (ht : t.reads ";" = true) :
    Entries us v := by
  have hreads : Ahead.reads ";" (t :: us) = true := ht
  cases h with
  | entry _ head tail =>
    rw [Parser.entry, entryWith_eq, if_pos hreads] at head
    cases head
    exact tail
  | scope plain => exact absurd hreads (by simp [plain.semicolon])

/-- **The entries of two texts are the entries of both**, unless the second one goes on with
the last statement of the first one. -/
theorem Entries.join (h : Entries ts u) (hclosed : Closed ts) (hv : Entries us v)
    (hfirst : ∀ w ∈ ["else", "catch", "finally"], Ahead.reads w us = false) :
    ∃ w, Entries (ts ++ us) w ∧ Joins u v w := by
  induction h with
  | nil => exact ⟨v, hv, joins_empty v⟩
  | @entry ts mid a b hts head tail ih =>
    obtain ⟨n, a', hn, rfl, -, hagrees, hrun⟩ :=
      (Comparison.sim_entry (C := .extension us) ts (ts ++ us) ⟨rfl, hclosed⟩).ok head
    obtain ⟨w, hw, hjoin⟩ := ih (hclosed.drop n)
    have hdrop : (ts ++ us).drop n = ts.drop n ++ us := List.drop_append_of_le_length hn
    have hne : ts ++ us ≠ [] := List.append_ne_nil_of_left_ne_nil hts us
    rw [hdrop] at hrun
    have hmet : Contract.entry.Met (ts.drop n) (ts.drop n ++ us) := by
      by_cases hnil : ts.drop n = []
      · rw [hnil]
        exact .inr ⟨_, rfl, hfirst⟩
      · exact .inl hnil
    obtain ⟨zs, hzs, rfl | ⟨-, hnil, t, hus, ht⟩⟩ := hrun (.inr hmet)
    · exact ⟨a' ++ w, .entry hne hzs hw, hjoin.append hagrees⟩
    · -- The last entry of the first text has passed over a `;` of the second one.
      rw [hnil] at tail hus
      rw [List.nil_append] at hus
      subst hus
      obtain rfl : b = ∅ := tail.eq_empty
      exact ⟨a' ++ v, .entry hne hzs (hv.tail ht), (joins_empty v).append hagrees⟩
  | @scope ts mid pos name inner plain head tail ih =>
    obtain ⟨n, ⟨pos', name'⟩, hn, rfl, -, hname, hrun⟩ :=
      (Comparison.sim_fileScope (C := .extension us) ts (ts ++ us) ⟨rfl, hclosed⟩).ok head
    obtain ⟨w, hw, hjoin⟩ := ih (hclosed.drop n)
    obtain rfl : name = name' := hname
    obtain ⟨zs, hzs, hlands⟩ := hrun (.inr (.inr ⟨_, rfl, nofun⟩))
    obtain rfl := hlands.eq_of_tight rfl
    rw [List.drop_append_of_le_length hn] at hzs
    have hts : ts ≠ [] := by
      rintro rfl
      cases head
    exact ⟨_, .scope (plain.extend hts hclosed us) hzs hw, hjoin.scope pos pos' name⟩

end Parser

/-! ## Source texts -/

/-- A source text is read when it is cut into tokens and these are its entries. -/
theorem parse_eq_ok {s : String} {u : CompilationUnit} :
    parse s = .ok u ↔ ∃ t, tokenize s = .ok t ∧ Parser.Entries t.tokens u := by
  unfold parse
  cases tokenize s with
  | error fault => exact ⟨nofun, nofun⟩
  | ok t =>
    have hrun : t.parse = .ok u ↔ ∃ rest, Parser.nodes false t.tokens = .ok (u, rest) := by
      unfold Tokenized.parse Parser.compilationUnit
      cases Parser.nodes false t.tokens with
      | error failure => exact ⟨nofun, nofun⟩
      | ok r => exact ⟨fun h => ⟨r.2, by cases h; rfl⟩, by rintro ⟨_, ⟨⟩⟩; rfl⟩
    rw [hrun]
    constructor
    · rintro ⟨rest, h⟩
      exact ⟨t, rfl, (Parser.nodes_iff_entries.mp h).2⟩
    · rintro ⟨_, ⟨⟩, h⟩
      exact ⟨[], Parser.nodes_iff_entries.mpr ⟨rfl, h⟩⟩

/-- The same entries elsewhere give the same, up to positions. -/
theorem Parser.Entries.shift {ts us : List Token} {u : CompilationUnit} (h : Entries ts u)
    (hshift : Shifted ts us) : ∃ v, Entries us v ∧ u.Agrees Eq Eq v := by
  obtain ⟨n, v, -, -, -, hagrees, hrun⟩ :=
    (Comparison.sim_nodes (C := .shifted) false ts us hshift).ok
      (nodes_iff_entries.mpr ⟨rfl, h⟩)
  obtain ⟨zs, hzs, -⟩ := hrun (.inl trivial)
  exact ⟨v, (nodes_iff_entries.mp hzs).2, hagrees⟩

/-- **Two source texts on lines of their own are read as one, and give the using directives,
the script and the entry points of the first, and behind them those of the second.**  The
second one must not start with a word that goes on with a statement. -/
theorem parse_lines {s₁ s₂ : String} {u₁ u₂ : CompilationUnit} (h₁ : parse s₁ = .ok u₁)
    (h₂ : parse s₂ = .ok u₂)
    (hfirst : ∀ t, tokenize s₂ = .ok t → ∀ u, t.tokens.head? = some u →
      u.text ∉ ["else", "catch", "finally"]) :
    ∃ u, parse (s₁ ++ "\n" ++ s₂) = .ok u ∧ u.usings = u₁.usings ++ u₂.usings ∧
      ∀ r, ∃ f₁ f₂ f, u₁.write? r = .ok f₁ ∧ u₂.write? r = .ok f₂ ∧ u.write? r = .ok f ∧
        f.text = f₁.text ++ f₂.text ∧ f.entryPoints = f₁.entryPoints ++ f₂.entryPoints := by
  obtain ⟨t₁, ht₁, hentries₁⟩ := parse_eq_ok.mp h₁
  obtain ⟨t₂, ht₂, hentries₂⟩ := parse_eq_ok.mp h₂
  obtain ⟨t, us, ht, htokens, hshift⟩ := tokenize_lines ht₁ ht₂
  obtain ⟨v₁, -, hagrees₁⟩ := hentries₁.shift (.refl _)
  obtain ⟨v₂, hv₂, hagrees₂⟩ := hentries₂.shift hshift
  have hahead : ∀ w ∈ ["else", "catch", "finally"], Ahead.reads w us = false := by
    intro w hw
    rw [← (tame_reads w).alike _ _ hshift.alike]
    cases hhead : t₂.tokens with
    | nil => exact Ahead.reads_nil (by rintro rfl; revert hw; decide)
    | cons u _ =>
      have hne : u.text ≠ w := by
        rintro rfl
        exact hfirst t₂ ht₂ u (by rw [hhead]; rfl) hw
      simp [Ahead.reads_cons, Token.reads, hne]
  have hclosed := hentries₁.closed (lexed_of_tokenize ht₁).wellShaped
  obtain ⟨u, hu, hjoins⟩ := hentries₁.join hclosed hv₂ hahead
  refine ⟨u, parse_eq_ok.mpr ⟨t, ht, htokens ▸ hu⟩, ?_, fun r => ?_⟩
  · rw [hjoins.usings, (List.forall₂_eq_eq_eq ▸ hagrees₂.usings : u₂.usings = v₂.usings)]
  · obtain ⟨f₁, hf₁, -⟩ := writeItems?_of_agree r hagrees₁.items
    obtain ⟨f₂, hf₂, hf₂'⟩ := writeItems?_of_agree r hagrees₂.items
    exact ⟨f₁, f₂, f₁ ++ f₂, hf₁, hf₂, hjoins.script hf₁ hf₂', rfl, rfl⟩

theorem exists_ok_of_any {ε α : Type} {r : Except ε α} {f : α → Bool}
    (h : r.toOption.any f = true) : ∃ a, r = .ok a ∧ f a = true := by
  cases r with
  | ok a => exact ⟨a, rfl, h⟩
  | error e => cases h

theorem exists_error_of_isNone {ε α : Type} {r : Except ε α} (h : r.toOption.isNone = true) :
    ∃ e, r = .error e := by
  cases r with
  | ok a => cases h
  | error e => exact ⟨e, rfl⟩

theorem exists_parse_eq_ok {s : String} (h : (parse s).toOption.isSome = true) :
    ∃ u, parse s = .ok u := by
  cases hparse : parse s with
  | ok u => exact ⟨u, rfl⟩
  | error e =>
    rw [hparse] at h
    cases h

/-- A namespace that reaches to the end of the text. -/
def openScope : String :=
  "using A;namespace N;class C" ++ Text.braced ("[EntryPoint]void M()" ++ Text.braced "x();")

/-- A text that starts with a `;`, which a class before it passes over. -/
def lateDirective : String := ";using B;enum E" ++ Text.braced "X"

theorem parse_lines_fileScope :
    ∃ u₁ u₂, parse openScope = .ok u₁ ∧ parse lateDirective = .ok u₂ ∧
      (∃ t u, tokenize lateDirective = .ok t ∧ t.tokens.head? = some u ∧
        u.text ∉ ["else", "catch", "finally"]) ∧
      ∃ u, parse (openScope ++ "\n" ++ lateDirective) = .ok u ∧
        u.usings = u₁.usings ++ u₂.usings ∧
        ∀ r, ∃ f₁ f₂ f, u₁.write? r = .ok f₁ ∧ u₂.write? r = .ok f₂ ∧ u.write? r = .ok f ∧
          f.text = f₁.text ++ f₂.text ∧ f.entryPoints = f₁.entryPoints ++ f₂.entryPoints := by
  obtain ⟨u₁, h₁⟩ := exists_parse_eq_ok (s := openScope) (by decide +kernel)
  obtain ⟨u₂, h₂⟩ := exists_parse_eq_ok (s := lateDirective) (by decide +kernel)
  obtain ⟨t, ht, u, hu, htext⟩ : ∃ t, tokenize lateDirective = .ok t ∧
      ∃ u, t.tokens.head? = some u ∧ u.text = ";" := ⟨_, rfl, _, rfl, rfl⟩
  refine ⟨u₁, u₂, h₁, h₂, ⟨t, u, ht, hu, by rw [htext]; decide⟩, parse_lines h₁ h₂ ?_⟩
  intro t' ht' u' hu'
  obtain rfl : t = t' := Except.ok.inj (ht.symm.trans ht')
  obtain rfl : u = u' := Option.some.inj (hu.symm.trans hu')
  rw [htext]
  decide

end SharpScript
