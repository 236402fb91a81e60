import SharpScript.Command.Folder
import SharpScript.Proofs.Compilation
import SharpScript.Proofs.Script.Replacing

/-! # Writing source texts for a command

A command writes source texts much as they are compiled, but it makes no pass over the classes
when it has no words to replace, and it words its errors in its own way.  The scripts are the
same, and so are the source texts that are to blame.

## Main Definitions

* `Rejected`: why source texts cannot be written.

## Main Results

* `Replacement.pass_eq`: **making no pass is replacing no words**;
* `pipeline_eq_compile`: the scripts of a command are those of compiling;
* `pipeline_error`: every error names the first source text that is to blame;
* `pipelineReport_compile`: what a command leaves behind, and what compiling gives.
-/

namespace SharpScript

/-! ## Passes -/

/-- Making no pass is replacing no words. -/
theorem Replacement.pass_eq (r : Replacement) : r.pass = Member.replace r := by
  obtain ⟨_ | ⟨pair, pairs⟩⟩ := r
  · exact (funext Member.replace_nil).symm
  · rfl

theorem assembleWith_pass (r : Replacement) (us : List CompilationUnit) :
    assembleWith r.pass us = assemble r us := by
  rw [Replacement.pass_eq, assemble]

/-! ## Source texts that are rejected -/

/-- Why source texts cannot be written: the first one that cannot be read, or, if all can be
read, the first one that declares no class, interface or enumeration. -/
inductive Rejected (sources : List String) : CompileError → Prop
  | source {i : Nat} {s : String} {e : SourceError}
      (first : FirstAt (fun s => ∃ e, parse s = .error e) sources i s)
      (error : parse s = .error e) :
      Rejected sources (.source i e)
  | noDeclaration {us : List CompilationUnit} {i : Nat} {u : CompilationUnit}
      (units : List.Forall₂ (fun s u => parse s = .ok u) sources us)
      (first : FirstAt (fun u => ¬ Offers u.items) us i u) :
      Rejected sources (.noDeclaration i)

namespace Command

/-- The scripts of a command are those of compiling. -/
theorem pipeline_eq_compile (r : Replacement) (sources : List String) :
    pipeline none r sources = compile r sources := by
  unfold pipeline compile
  simp only [assembleWith_pass]
  rfl

/-- Every error names the first source text that is to blame. -/
theorem pipeline_error {stopAt : Option String} {r : Replacement} {sources : List String}
    {e : CompileError} (h : pipeline stopAt r sources = .error e) : Rejected sources e := by
  unfold pipeline at h
  rcases parseAll_outcome 0 sources with ⟨i, s, e', hfirst, hs, hrun⟩ | ⟨us, hus, hrun⟩
  · rw [hrun, Nat.zero_add] at h
    cases h
    exact .source hfirst hs
  · rw [hrun] at h
    change (if (stopAt == some "parse") = true then
      pure ((Json.Value.list (us.map CompilationUnit.dump)).write 0)
      else assembleWith r.pass us) = Except.error e at h
    split at h
    · cases h
    · rw [assembleWith_pass] at h
      rcases assemble_outcome r (forall_exists_write hus r) with ⟨i, u, hfirst, herror⟩ |
        ⟨-, _, hok⟩
      · rw [herror] at h
        cases h
        exact .noDeclaration hus hfirst
      · rw [hok] at h
        cases h

theorem message_source (i : Nat) (e : SourceError) : (CompileError.source i e).message =
    "unit " ++ toString i ++ ": " ++
      (toString e.place.line ++ ":" ++ toString e.place.col ++ ": " ++ e.message) := rfl

theorem report_noDeclaration (i : Nat) :
    report (.noDeclaration i) = "error: unit " ++ toString i ++ ": No declaration found!" := by
  have hunit : (CompileError.noDeclaration i).message =
      "unit " ++ toString i ++ ": " ++ "No declaration found!" := rfl
  apply String.toList_injective
  simp [report, hunit]

/-- **A command and compiling agree.**  The command succeeds with a script, and without a
complaint, just when compiling gives that script.  If a source text cannot be read, both name
the first such one: compiling says which of the source texts it is, and the command gives its
line and column alone.  If all can be read and one declares nothing, both name the first such
one in the same words. -/
theorem pipelineReport_compile (r : Replacement) (sources : List String) :
    (∀ script, pipelineReport none r sources = ⟨0, script, "", []⟩ ↔
        compile r sources = .ok script) ∧
      ((∃ script, compile r sources = .ok script) ∨
        (∃ i s e, FirstAt (fun s => ∃ e, parse s = .error e) sources i s ∧ parse s = .error e ∧
          compile r sources = .error (.source i e) ∧
          (CompileError.source i e).message = "unit " ++ toString i ++ ": " ++
            (toString e.place.line ++ ":" ++ toString e.place.col ++ ": " ++ e.message) ∧
          pipelineReport none r sources = ⟨1, "", "error:" ++
            (toString e.place.line ++ ":" ++ toString e.place.col ++ ": " ++ e.message) ++
            "\n", []⟩) ∨
        ∃ us i u, List.Forall₂ (fun s u => parse s = .ok u) sources us ∧
          FirstAt (fun u => ¬ Offers u.items) us i u ∧
          compile r sources = .error (.noDeclaration i) ∧
          pipelineReport none r sources =
            ⟨1, "", "error: unit " ++ toString i ++ ": No declaration found!" ++ "\n",
              []⟩) := by
  constructor
  · intro script
    unfold pipelineReport
    rw [pipeline_eq_compile]
    cases compile r sources with
    | ok text => simp
    | error e => simp [RunError.report, RunError.code]
  · unfold pipelineReport
    rw [pipeline_eq_compile]
    cases hrun : compile r sources with
    | ok text => exact .inl ⟨text, rfl⟩
    | error e =>
      cases pipeline_error ((pipeline_eq_compile r sources).trans hrun) with
      | @source i s e first error =>
        refine .inr (.inl ⟨i, s, e, first, error, rfl, message_source i e, ?_⟩)
        show Report.mk 1 "" (report (.source i e) ++ "\n") [] = _
        rw [report, SourceError.tagged]
      | @noDeclaration us i u units first =>
        refine .inr (.inr ⟨us, i, u, units, first, rfl, ?_⟩)
        show Report.mk 1 "" (report (.noDeclaration i) ++ "\n") [] = _
        rw [report_noDeclaration]

end Command

end SharpScript
