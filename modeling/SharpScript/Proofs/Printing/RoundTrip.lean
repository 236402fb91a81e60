import SharpScript.Parser.Source
import SharpScript.Proofs.Printing.Declarations

/-! # Reading back what is printed

## Main Results

* `areCut_items`: every printed line is made of tokens;
* `parse_print`: **a tree that is printed is read back, up to positions**.
-/

namespace SharpScript

open Lexer

/-! ## Printed lines -/

/-- Whether a text can be cut into tokens. -/
def IsCut (s : String) : Prop := ∃ t, tokenize s = .ok t

/-- Texts that are printed as they stand are checked to be cut into tokens. -/
theorem isCut_of_isVerbatim {f : List Token → Bool} {s : String} (h : isVerbatim f s = true) :
    IsCut s := by
  unfold isVerbatim at h
  split at h
  · rename_i t ht
    exact ⟨t, ht⟩
  · cases h

/-- The words and signs that the printer writes itself. -/
theorem isCut_printed {w : String} (h : w ∈ printedWords.map Prod.snd) : IsCut w := by
  obtain ⟨⟨k, _⟩, hmem, rfl⟩ := List.mem_map.mp h
  obtain ⟨t, ht, -⟩ := tokenize_word hmem
  exact ⟨t, ht⟩

/-- A name is one token. -/
theorem isCut_name {s : String} (h : isName s = true) : IsCut s := by
  obtain ⟨t, ht, -⟩ := tokenize_name h
  exact ⟨t, ht⟩

/-- A qualified name is names with points between them. -/
theorem isCut_dotted {s : String} (h : isDotted s = true) : IsCut s := by
  obtain ⟨parts, hne, hparts, rfl⟩ := Parser.dotted_parts h
  obtain ⟨t, ht, -⟩ := tokenize_dotted hne hparts
  exact ⟨t, ht⟩

/-- Lines that can be cut into tokens, each alone. -/
def AreCut (ss : List String) : Prop := ∀ s ∈ ss, IsCut s

@[simp] theorem areCut_nil : AreCut [] := fun _ hs => nomatch hs

/-- Lines are checked one by one. -/
@[simp] theorem areCut_cons {s : String} {ss : List String} :
    AreCut (s :: ss) ↔ IsCut s ∧ AreCut ss :=
  List.forall_mem_cons

@[simp] theorem areCut_append {ss ss' : List String} :
    AreCut (ss ++ ss') ↔ AreCut ss ∧ AreCut ss' :=
  List.forall_mem_append

/-- The lines of a list of parts, if those of each part can be cut. -/
theorem areCut_flatMap {α : Type} {f : α → List String} {xs : List α}
    (h : ∀ x ∈ xs, AreCut (f x)) :
    AreCut (xs.flatMap f) := by
  intro s hs
  obtain ⟨x, hx, hs⟩ := List.mem_flatMap.mp hs
  exact h x hx s hs

/-- The same with commas between the parts. -/
theorem areCut_commas {α : Type} {f : α → List String} {xs : List α}
    (h : ∀ x ∈ xs, AreCut (f x)) :
    AreCut (commaLines (xs.map f)) := by
  cases xs with
  | nil => exact areCut_nil
  | cons x xs =>
    rw [List.map_cons, commaLines_cons, List.flatMap_map]
    refine areCut_append.mpr ⟨h x List.mem_cons_self, areCut_flatMap fun y hy => ?_⟩
    exact areCut_cons.mpr ⟨isCut_printed (by decide), h y (List.mem_cons_of_mem _ hy)⟩

theorem areCut_texts {f : List Token → Bool} {ss : List String}
    (h : ss.all (isVerbatim f) = true) :
    ∀ s ∈ ss, AreCut [s] :=
  fun s hs => areCut_cons.mpr ⟨isCut_of_isVerbatim (List.all_eq_true.mp h s hs), areCut_nil⟩

/-- The lines of an annotation that can be printed can be cut, and so on for each part of a
tree below. -/
theorem areCut_annotation {a : Annotation} (h : a.isPrintable = true) : AreCut a.lines := by
  obtain ⟨hname, hargs⟩ := (Bool.and_eq_true _ _).mp h
  have hcut := areCut_commas (areCut_texts hargs)
  have hname := isCut_of_isVerbatim hname
  unfold Annotation.lines
  split <;> simp (disch := decide) [isCut_printed, hname, hcut]

theorem areCut_lead {l : Lead} (h : l.isPrintable = true) : AreCut l.lines := by
  obtain ⟨has, hws⟩ := (Bool.and_eq_true _ _).mp h
  refine areCut_append.mpr ⟨areCut_flatMap fun a ha =>
    areCut_annotation (List.all_eq_true.mp has a ha), fun w hw => ?_⟩
  have hmodifiers : ∀ w ∈ Parser.modifierWords ++ Parser.contextualWords,
      w ∈ printedWords.map Prod.snd := by decide
  exact isCut_printed (hmodifiers w (List.contains_iff_mem.mp (List.all_eq_true.mp hws w hw)))

/-- A parameter: its type is printed as one word, its default value as it stands. -/
theorem areCut_param {p : Param} (h : p.isPrintable = true) : AreCut p.lines := by
  obtain ⟨pos, name, initial⟩ := p
  obtain ⟨hname, hvalue⟩ := (Bool.and_eq_true _ _).mp h
  have hname := isCut_name hname
  cases initial with
  | none => simp (disch := decide) [Param.lines, isCut_printed, hname]
  | some value =>
    have hvalue := isCut_of_isVerbatim hvalue
    simp (disch := decide) [Param.lines, isCut_printed, hname, hvalue]

theorem areCut_params {ps : List Param} (h : ps.all Param.isPrintable = true) :
    AreCut (paramLines ps) := by
  have hparams : AreCut (commaLines (ps.map Param.lines)) :=
    areCut_commas fun p hp => areCut_param (List.all_eq_true.mp h p hp)
  simp (disch := decide) [paramLines, isCut_printed, hparams]

/-- A body: its statements are printed as they stand. -/
theorem areCut_body {b : Option (List String)} (h : isPrintableBody b = true) :
    AreCut (bodyLines b) := by
  cases b with
  | none => simp (disch := decide) [bodyLines, isCut_printed]
  | some ss =>
    have hss : AreCut ss := fun s hs =>
      isCut_of_isVerbatim (List.all_eq_true.mp ((Bool.and_eq_true _ _).mp h).1 s hs)
    simp (disch := decide) [bodyLines, isCut_printed, hss]

/-- A member.  A constructor is printed with the name of its class, which has to be a name. -/
theorem areCut_form {owner : String} (howner : isName owner = true) {f : MemberForm}
    (h : f.isPrintable owner = true) : AreCut f.lines := by
  cases f with
  | method name ps b =>
    obtain ⟨⟨hname, hps⟩, hb⟩ : (isName name = true ∧ ps.all Param.isPrintable = true) ∧
        isPrintableBody b = true := by simpa [MemberForm.isPrintable] using h
    simp (disch := decide)
      [MemberForm.lines, isCut_printed, isCut_name hname, areCut_params hps, areCut_body hb]
  | constructor name ps b =>
    obtain ⟨⟨rfl, hps⟩, hb⟩ : (name = owner ∧ ps.all Param.isPrintable = true) ∧
        isPrintableBody b = true := by simpa [MemberForm.isPrintable] using h
    simp (disch := decide)
      [MemberForm.lines, isCut_name howner, areCut_params hps, areCut_body hb]
  | field vs =>
    have hvs : AreCut (commaLines (vs.map ([·]))) :=
      areCut_commas (areCut_texts ((Bool.and_eq_true _ _).mp h).2)
    simp (disch := decide) [MemberForm.lines, isCut_printed, hvs]
  | property name getter setter =>
    have hname : IsCut name := isCut_name h
    cases getter <;> cases setter <;>
      simp (disch := decide) [MemberForm.lines, isCut_printed, hname]
  | other | unknown => cases h

mutual

/-- A declaration, with all that it holds. -/
theorem areCut_item : ∀ (i : Item) {owner : Option String}, (∀ name, owner = some name →
    isName name = true) → i.isPrintable owner = true → AreCut i.lines
  | .member m, owner, howner, h => by
    obtain ⟨hlead, hform⟩ := (Bool.and_eq_true _ _).mp h
    obtain ⟨name, rfl, hform⟩ :
        ∃ name, owner = some name ∧ m.form.isPrintable name = true := by
      simpa [Option.any_eq_true] using hform
    rw [Item.lines]
    exact areCut_append.mpr ⟨areCut_lead hlead, areCut_form (howner name rfl) hform⟩
  | .scope pos name items, owner, _, h => by
    obtain ⟨⟨-, hname⟩, hitems⟩ : (owner = none ∧ isDotted name = true) ∧
        arePrintable none items = true := by simpa [Item.isPrintable] using h
    have hname := isCut_dotted hname
    have hitems := areCut_items items (by simp) hitems
    simp (disch := decide) [Item.lines, isCut_printed, hname, hitems]
  | .type sort l name bases items, owner, _, h => by
    obtain ⟨⟨⟨hl, hname⟩, hbases⟩, hitems⟩ : ((l.isPrintable = true ∧ isName name = true) ∧
        bases.all isType = true) ∧ arePrintable (some name) items = true := by
      simpa [Item.isPrintable] using h
    have hlead := areCut_lead hl
    have hitems := areCut_items items (fun _ heq => Option.some.inj heq ▸ hname) hitems
    have hbases : AreCut (baseLines bases) := by
      have hcut := areCut_commas (areCut_texts hbases)
      unfold baseLines
      split <;> simp (disch := decide) [isCut_printed, hcut]
    have hword : IsCut sort.word := by cases sort <;> exact isCut_printed (by decide)
    have hname := isCut_name hname
    simp (disch := decide) [Item.lines, isCut_printed, hlead, hword, hname, hbases, hitems]
  | .enumeration l name ms, owner, _, h => by
    obtain ⟨⟨hl, hname⟩, hms⟩ : (l.isPrintable = true ∧ isName name = true) ∧
        ms.all EnumMember.isPrintable = true := by simpa [Item.isPrintable] using h
    have hlead := areCut_lead hl
    have hname := isCut_name hname
    have hmembers : AreCut (commaLines (ms.map fun m => [m.text])) := areCut_commas fun m hm =>
      areCut_cons.mpr ⟨isCut_of_isVerbatim (List.all_eq_true.mp hms m hm), areCut_nil⟩
    simp (disch := decide) [Item.lines, isCut_printed, hlead, hname, hmembers]
  | .skipped .., _, _, h => by simp [Item.isPrintable] at h

/-- Declarations behind one another. -/
theorem areCut_items : ∀ (is : List Item) {owner : Option String}, (∀ name, owner = some name →
    isName name = true) → arePrintable owner is = true → AreCut (itemLines is)
  | [], _, _, _ => by simp [itemLines]
  | i :: is, owner, howner, h => by
    obtain ⟨hi, his⟩ := Parser.arePrintable_cons.mp h
    rw [itemLines]
    exact areCut_append.mpr ⟨areCut_item i howner hi, areCut_items is howner his⟩

end

/-- **A tree that is printed is read back, up to positions.** -/
theorem parse_print {u : CompilationUnit} (h : u.isPrintable = true) :
    ∃ v, parse u.print = .ok v ∧ u.Agrees Eq Eq v := by
  obtain ⟨husings, hitems⟩ := (Bool.and_eq_true _ _).mp h
  have hcut : ∀ s ∈ u.usings ++ itemLines u.items, IsCut s :=
    areCut_append.mpr ⟨fun s hs => isCut_of_isVerbatim (List.all_eq_true.mp husings s hs),
      areCut_items u.items (by simp) hitems⟩
  obtain ⟨t, ht, hlines⟩ := tokenize_intercalate hcut
  have hnodes :
      Parser.Yields (t.tokens.length + 1) (Parser.nodes false) (Parser.EndsNodes false)
        (CompilationUnit.Agrees Eq Eq u) t.tokens :=
    Parser.yields_nodes husings (fun i hi ts hts => by
      have hread := Parser.readsNodes u.items hitems i hi hts
      exact ⟨hread.starts, hread.plain, Parser.yields_fix hread.yields⟩) hlines
  obtain ⟨v, hrun, hagrees⟩ := hnodes [] (by simp) rfl
  refine ⟨v, ?_, hagrees⟩
  rw [List.append_nil] at hrun
  have hrun : Parser.compilationUnit t.tokens = .ok (v, []) := hrun
  rw [parse, CompilationUnit.print, ht]
  simp only [Tokenized.parse, hrun]

/-- A tree with a declaration of each kind, of which the constructor has a contextual word for
its name and an initial value of the field holds a comma. -/
def sampleUnit : CompilationUnit where
  usings := ["using A = B.C;"]
  items := [
    .scope default "N.M" [
      .type .classType ⟨default, [⟨default, "Map", ["\"a,b\"", "f(1, 2)"]⟩],
        ["public", "partial"]⟩ "async" ["Base<int, T[]>", "I"] [
          .member ⟨⟨default, [], []⟩, .constructor "async" [] (some [])⟩,
          .member ⟨⟨default, [⟨default, "Test", []⟩], ["static"]⟩, .method "get"
            [⟨default, "x", none⟩, ⟨default, "y", some ("new[] " ++ Text.braced " 1, 2 ")⟩]
            (some ["if (x) " ++ Text.braced " y(); " ++ " else z();", "return;"])⟩,
          .member ⟨⟨default, [], []⟩, .field ["a = f<b, c>(d)", "e"]⟩,
          .type .interfaceType ⟨default, [], []⟩ "J" [] [
            .member ⟨⟨default, [], []⟩, .property "P" true false⟩,
            .member ⟨⟨default, [], []⟩, .method "Q" [] none⟩]]],
    .enumeration ⟨default, [], ["internal"]⟩ "E" [⟨default, "X", some "1 << 2", "X = 1 << 2"⟩,
      ⟨default, "Y", none, "Y"⟩]]

theorem parse_print_sampleUnit : sampleUnit.isPrintable = true ∧
    ∃ v, parse sampleUnit.print = .ok v ∧ sampleUnit.Agrees Eq Eq v :=
  have h : sampleUnit.isPrintable = true := by decide +kernel
  ⟨h, parse_print h⟩

end SharpScript
