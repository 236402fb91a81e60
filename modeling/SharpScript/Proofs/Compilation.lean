import SharpScript.Proofs.Concatenation
import SharpScript.Proofs.Tree.Within

/-! # What compiling gives

Source texts are compiled or rejected, and it is said which of them is to blame: the first one
that cannot be read, wherever it stands, or else the first one that declares nothing.  What has
been read can be written, so nothing goes wrong after that.

## Main Definitions

* `FirstAt`: the first element of a list with a property, and where it stands.

## Main Results

* `exists_write_of_parse`: **whatever has been read can be written**;
* `parseAll_outcome`: source texts are read, or the first that cannot be read is reported;
* `assemble_outcome`: units are written, or the first that declares nothing is reported;
* `compile_outcome`: both together.
-/

namespace SharpScript

/-! ## The first of a list -/

/-- The element `x` of `xs` with the index `i` is the first one with the property `P`. -/
structure FirstAt {α : Type} (P : α → Prop) (xs : List α) (i : Nat) (x : α) : Prop where
  get : xs[i]? = some x
  holds : P x
  before : ∀ j < i, ∀ y, xs[j]? = some y → ¬ P y

namespace FirstAt

variable {α : Type} {P : α → Prop} {x y : α} {xs : List α} {i : Nat}

theorem head (xs : List α) (hx : P x) : FirstAt P (x :: xs) 0 x := ⟨rfl, hx, nofun⟩

theorem tail (hx : ¬ P x) (h : FirstAt P xs i y) : FirstAt P (x :: xs) (i + 1) y where
  get := h.get
  holds := h.holds
  before j hj z hz := by
    cases j with
    | zero =>
      obtain rfl : x = z := Option.some.inj hz
      exact hx
    | succ j => exact h.before j (by omega) z hz

theorem of_findIdx? {p : α → Bool} (h : xs.findIdx? p = some i) :
    ∃ x, FirstAt (fun x => p x = true) xs i x := by
  obtain ⟨hi, hholds, hbefore⟩ := List.findIdx?_eq_some_iff_getElem.mp h
  refine ⟨xs[i], List.getElem?_eq_getElem hi, hholds, fun j hj y hy => ?_⟩
  obtain ⟨hj', rfl⟩ := List.getElem?_eq_some_iff.mp hy
  exact hbefore j hj

theorem imp {Q : α → Prop} (hPQ : ∀ x, P x ↔ Q x) (h : FirstAt P xs i x) : FirstAt Q xs i x :=
  ⟨h.get, (hPQ x).mp h.holds, fun j hj y hy hQ => h.before j hj y hy ((hPQ y).mpr hQ)⟩

end FirstAt

/-! ## Reading and writing -/

/-- **Whatever has been read can be written**: no class has a member of no known form. -/
theorem exists_write_of_parse {s : String} {u : CompilationUnit} (h : parse s = .ok u)
    (r : Replacement) : ∃ f, u.write? r = .ok f := by
  obtain ⟨t, -, hentries⟩ := parse_eq_ok.mp h
  -- A member of no known form agrees with nothing, but what is read agrees with itself.
  obtain ⟨_, -, hagrees⟩ := hentries.shift (.refl t.tokens)
  obtain ⟨f, hf, -⟩ := writeItems?_of_agree r hagrees.items
  exact ⟨f, hf⟩

/-- Source texts are read, or the first that cannot be read is reported. -/
theorem parseAll_outcome (n : Nat) (sources : List String) :
    (∃ i s e, FirstAt (fun s => ∃ e, parse s = .error e) sources i s ∧ parse s = .error e ∧
        parseAll n sources = .error (.source (n + i) e)) ∨
      ∃ us, List.Forall₂ (fun s u => parse s = .ok u) sources us ∧
      parseAll n sources = .ok us := by
  induction sources generalizing n with
  | nil => exact .inr ⟨[], .nil, rfl⟩
  | cons s ss ih =>
    rw [parseAll]
    cases hs : parse s with
    | error e => exact .inl ⟨0, s, e, .head ss ⟨e, hs⟩, hs, rfl⟩
    | ok u =>
      have hread : ¬ ∃ e, parse s = .error e := by
        rintro ⟨e, he⟩
        rw [hs] at he
        cases he
      rcases ih (n + 1) with ⟨i, t, e, hfirst, ht, hrun⟩ | ⟨us, hus, hrun⟩
      · refine .inl ⟨i + 1, t, e, hfirst.tail hread, ht, ?_⟩
        rw [hrun, Nat.add_right_comm n 1 i]
        rfl
      · refine .inr ⟨u :: us, .cons hs hus, ?_⟩
        rw [hrun]
        rfl

theorem forall_exists_write {sources : List String} {us : List CompilationUnit}
    (h : List.Forall₂ (fun s u => parse s = .ok u) sources us) (r : Replacement) :
    ∀ u ∈ us, ∃ f, u.write? r = .ok f := by
  induction h with
  | nil => exact nofun
  | cons hparse _ ih => exact List.forall_mem_cons.mpr ⟨exists_write_of_parse hparse r, ih⟩

theorem exists_writeUnits (r : Replacement) {us : List CompilationUnit}
    (h : ∀ u ∈ us, ∃ f, u.write? r = .ok f) : ∃ f, writeUnits? r us = .ok f := by
  induction us with
  | nil => exact ⟨∅, rfl⟩
  | cons u us ih =>
    obtain ⟨f, hf⟩ := h u List.mem_cons_self
    obtain ⟨g, hg⟩ := ih fun v hv => h v (List.mem_cons_of_mem u hv)
    refine ⟨f ++ .ofText "\n\n" ++ g, ?_⟩
    rw [writeUnits?_cons, hf, hg]
    rfl

/-- Units that can be written are written, or the first that declares nothing is reported. -/
theorem assemble_outcome (r : Replacement) {us : List CompilationUnit}
    (h : ∀ u ∈ us, ∃ f, u.write? r = .ok f) :
    (∃ i u, FirstAt (fun u => ¬ Offers u.items) us i u ∧
        assemble r us = .error (.noDeclaration i)) ∨
      (∀ u ∈ us, Offers u.items) ∧ ∃ script, assemble r us = .ok script := by
  have hempty : ∀ u : CompilationUnit, (!declaresAny u.items) = true ↔ ¬ Offers u.items := by
    intro u
    rw [Bool.not_eq_true', ← Bool.not_eq_true, declaresAny_iff_offers]
  unfold assemble assembleWith
  cases hfirst : firstEmpty? us with
  | some i =>
    obtain ⟨u, hu⟩ := FirstAt.of_findIdx? hfirst
    exact .inl ⟨i, u, hu.imp hempty, rfl⟩
  | none =>
    obtain ⟨f, hf : writeUnitsWith? (Member.replace r) us = .ok f⟩ := exists_writeUnits r h
    refine .inr ⟨fun u hu => ?_, _, by rw [hf]⟩
    have hdeclares := List.findIdx?_eq_none_iff.mp hfirst u hu
    exact declaresAny_iff_offers.mp (by simpa using hdeclares)

/-- **Compiling has three outcomes.**  If a source text cannot be read, the first such one is
reported, with the line, the column and the wording of its error.  Otherwise, if a source text
declares no class, interface or enumeration, not even in namespaces, the first such one is
reported.  Otherwise there is a script. -/
theorem compile_outcome (r : Replacement) (sources : List String) :
    (∃ i s e, FirstAt (fun s => ∃ e, parse s = .error e) sources i s ∧ parse s = .error e ∧
        compile r sources = .error (.source i e) ∧
        (CompileError.source i e).message = "unit " ++ toString i ++ ": " ++
          (toString e.place.line ++ ":" ++ toString e.place.col ++ ": " ++ e.message)) ∨
      ∃ us, List.Forall₂ (fun s u => parse s = .ok u) sources us ∧
        ((∃ i u, FirstAt (fun u => ¬ Offers u.items) us i u ∧
            compile r sources = .error (.noDeclaration i) ∧
            (CompileError.noDeclaration i).message = "unit " ++ toString i ++ ": " ++
              "No declaration found!") ∨
          (∀ u ∈ us, Offers u.items) ∧ ∃ script, compile r sources = .ok script) := by
  unfold compile
  rcases parseAll_outcome 0 sources with ⟨i, s, e, hfirst, hs, hrun⟩ | ⟨us, hus, hrun⟩
  · rw [hrun, Nat.zero_add]
    exact .inl ⟨i, s, e, hfirst, hs, rfl, rfl⟩
  · rw [hrun]
    refine .inr ⟨us, hus, ?_⟩
    rcases assemble_outcome r (forall_exists_write hus r) with ⟨i, u, hfirst, herror⟩ | hscript
    · exact .inl ⟨i, u, hfirst, herror, rfl⟩
    · exact .inr hscript

end SharpScript
