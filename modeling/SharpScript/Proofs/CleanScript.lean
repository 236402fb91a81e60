import SharpScript.Proofs.Lexer.Clean
import SharpScript.Proofs.Script.Replacing
import SharpScript.Proofs.Script.StrictComparisons
import SharpScript.Proofs.Tree.Within
import SharpScript.Proofs.WellNested

/-! # Scripts that can be cut into tokens

A script is put together from texts of a source text and from words and brackets of its own.
It is shown piece by piece that all of this is cut into tokens with well nested brackets.

## Main Definitions

* `Item.isOverridden`, `Item.firstBase?`: methods with an inline override,
  and what a class extends.

## Main Results

* `clean_strictEquality`: code stays balanced where its comparisons are made strict;
* `clean_function`, `Member.clean_write`, `Member.clean_stub`: members;
* `writeItems?_clean`: declarations;
* `parse_write_balanced`: **the script of a source text is cut into tokens whose
  brackets are well nested**.
-/

namespace SharpScript

open Lexer

/-! ## Strict comparisons -/

/-- Where a pair of signs becomes a triple, only an equals sign is repeated. -/
theorem padded_extendPairs (a : Char) (cs : List Char) : Padded cs (extendPairs a cs) := by
  fun_induction extendPairs a cs with
  | case1 => exact .nil
  | case2 c => exact .cons c .nil
  | case3 c d cs h ih =>
    obtain ⟨hc, hd⟩ := Bool.and_eq_true_iff.mp h
    rw [beq_iff_eq.mp hc, beq_iff_eq.mp hd]
    exact .cons a (.again (.cons '=' ih))
  | case4 c d cs _ ih => exact .cons c ih

/-- **Code stays balanced where its comparisons are made strict.** -/
theorem clean_strictEquality {s : String} (h : IsCodeText s) :
    Clean LineEnd (strictEquality s) := by
  obtain ⟨ts, hts, hlexed, hbalanced, rfl⟩ := h
  have hpadded :
      Padded (Token.spelling ts).toList (strictEquality (Token.spelling ts)).toList := by
    rw [strictEquality, String.toList_ofList]
    exact (padded_extendPairs '=' _).trans (padded_extendPairs '!' _)
  refine clean_of_cut fun p g => ?_
  -- The code is cut the same way wherever it stands, and padding it leaves its brackets alone.
  obtain ⟨us, q, hcut, hshift⟩ := hlexed.cut hts p []
  obtain ⟨t, ht, hsigns⟩ := hcut.padded (h := g) hpadded.linked (bare_after_links rfl hpadded)
  refine ⟨t, ht, ?_⟩
  unfold Balanced at hbalanced ⊢
  rwa [hsigns, ← hshift.alike.signs_eq]

/-! ## Members -/

/-- Whether a text is a word can be computed. -/
theorem isWordText_iff {s : String} : IsWordText s ↔
    (s.toList.head?.any isWordStart && s.toList.tail.all isWordPart) = true := by
  unfold IsWordText
  cases s.toList <;> simp

/-- The words that scripts have of their own. -/
def scriptWords : List String :=
  ["class", "const", "constructor", "extends", "get", "return", "set", "static", "this", "val"]

/-- The words of the writer are words of the language too. -/
theorem isWordText_scriptWord : ∀ w ∈ scriptWords, IsWordText w := by
  simp only [isWordText_iff]
  decide +kernel

/-- The phrases without brackets that scripts have of their own. -/
def scriptPhrases : List String := ["=", "= val", "= Object.freeze", "throw new Error"]

theorem clean_scriptPhrase : ∀ s ∈ scriptPhrases, Clean Apart s := by
  have hphrases : ∀ s ∈ scriptPhrases, ((tokenize s).toOption.any fun t =>
      !t.tokens.isEmpty && Token.spelling t.tokens == s && (signs t.tokens).isEmpty) =
          true := by
    decide +kernel
  intro s hs
  have h := hphrases s hs
  cases ht : tokenize s with
  | error fault => rw [ht] at h; cases h
  | ok t =>
    rw [ht] at h
    obtain ⟨⟨hne, htext⟩, hsigns⟩ : (t.tokens ≠ [] ∧ Token.spelling t.tokens = s) ∧
        signs t.tokens = [] := by simpa [Except.toOption] using h
    refine clean_code ⟨t.tokens, hne, lexed_of_tokenize ht, ?_, htext.symm⟩
    unfold Balanced
    rw [hsigns]
    exact .nil

/-- Some characters that are in no word. -/
theorem not_isWordPart {c : Char} (hc : c ∈ ['"', '\\', '\n', '.']) :
    isWordPart c = false := by
  have hall : (['"', '\\', '\n', '.'].all fun c => !isWordPart c) = true := by decide +kernel
  exact (Bool.not_eq_true' _).mp (List.all_eq_true.mp hall c hc)

/-- A name is clean before what does not go on with it. -/
theorem clean_name {s : String} (h : IsWordText s) : Clean Apart s :=
  (clean_word h).mono fun _ => nonWord_of_apart

theorem clean_blank : Clean Anything " " := clean_blanks (by decide)

theorem clean_newline : Clean Anything "\n" := clean_blanks (by decide)

theorem clean_semicolon : Clean Anything (";" ++ "\n") :=
  clean_newline.behind (clean_sign (by decide))

/-- Lines between curly brackets. -/
theorem clean_block {lines : String} (h : Clean Anything lines) :
    Clean Anything (Text.openBrace ++ ("\n" ++ lines) ++ Text.closeBrace) :=
  clean_group .curly (h.behind clean_newline).apart

/-- A parameter is written by its name, with its default value behind an equals sign. -/
theorem Param.clean_write {p : Param} (h : p.Sound) : Clean Apart p.write := by
  unfold Param.write
  cases hvalue : p.initial with
  | none => exact clean_name h.name
  | some value =>
    have hcode := clean_code (h.initial value hvalue)
    have hequals : Clean Anything (" " ++ "=" ++ " ") :=
      ((clean_scriptPhrase "=" (by decide)).behind clean_blank).before clean_blank (by decide)
    exact hcode.behind ((clean_name h.name).before hequals (by decide))

theorem clean_params {ps : List Param} (h : ∀ p ∈ ps, p.Sound) :
    Clean Apart (writeParams ps) := by
  refine clean_joined fun s hs => ?_
  obtain ⟨p, hp, rfl⟩ := List.mem_map.mp hs
  exact Param.clean_write (h p hp)

/-- Statements are clean line by line, with their comparisons made strict. -/
theorem clean_statements {ss : List String} (h : ∀ s ∈ ss, IsCodeText s) :
    Clean Anything (String.join (ss.map fun s => strictEquality (s ++ "\n"))) := by
  induction ss with
  | nil => exact clean_empty
  | cons s ss ih =>
    rw [List.map_cons, String.join_cons, strictEquality_line]
    have htail := ih fun t ht => h t (List.mem_cons_of_mem s ht)
    exact htail.behind (clean_strictEquality (h s List.mem_cons_self)).line

theorem clean_body {body : Option (List String)} (h : ∀ ss ∈ body, ∀ s ∈ ss, IsCodeText s) :
    Clean Anything (writeBody body) := by
  cases body with
  | none => exact clean_empty
  | some ss => exact clean_statements (h ss rfl)

/-- A function in its parts: a name, a list in brackets and lines in braces. -/
theorem writeFunction_eq (name : String) (ps : List Param) (lines : String) :
    writeFunction name ps lines = name ++ ("(" ++ writeParams ps ++ ")") ++ " " ++
      Text.braced ("\n" ++ lines) ++ "\n" := by
  rw [← String.toList_inj]
  simp [writeFunction]

/-- **A function is clean** if its parts are. -/
theorem clean_function {name : String} {ps : List Param} {lines : String}
    (hname : IsWordText name) (hps : ∀ p ∈ ps, p.Sound) (hlines : Clean Anything lines) :
    Clean Anything (writeFunction name ps lines) := by
  rw [writeFunction_eq]
  exact clean_newline.behind ((clean_block hlines).behind (clean_blank.behind
    ((clean_name hname).before_group .round (clean_params hps))))

/-- A word and a blank before a piece. -/
theorem Clean.behind_word {R : List Char → Prop} {s : String} (h : Clean R s) {w : String}
    (hw : IsWordText w) : Clean R (w ++ " " ++ s) :=
  h.behind ((clean_name hw).before clean_blank (by decide))

/-- A field or a property of the object at hand. -/
theorem clean_access {name : String} (h : IsWordText name) :
    Clean Apart ("this" ++ "." ++ name) := by
  have hpoint : Clean (fun r => ∃ d v, r = d :: v ∧ isWordStart d = true) "." :=
    clean_munch (fun r ⟨d, v, hr, hd⟩ => hr ▸ munch_point hd) fun g p => rfl
  have hthis : Clean NonWord "this" := clean_word (isWordText_scriptWord _ (by decide))
  obtain ⟨c, v, hchars, hc, hv⟩ := h
  -- A point is a token of its own only where no digit follows, so the name has to be at hand.
  refine (hthis.append hpoint ?_).append (clean_name ⟨c, v, hchars, hc, hv⟩) fun r _ => ?_
  · intro r _ d hd
    cases hd
    exact not_isWordPart (c := '.') (by decide)
  · exact ⟨c, v ++ r, by rw [hchars]; rfl, hc⟩

/-- The accessors of a property are functions without parameters and with one. -/
theorem writeProperty_eq (name : String) (getter setter : Bool) :
    writeProperty name getter setter =
      (if getter then
        "get" ++ " " ++ writeFunction name []
          ("return" ++ " " ++ ("this" ++ "." ++ name) ++ ";" ++ "\n")
      else "") ++
      (if setter then
        "set" ++ " " ++ writeFunction name [⟨default, "val", none⟩]
          ("this" ++ "." ++ name ++ " " ++ "= val" ++ ";" ++ "\n")
      else "") := by
  rw [← String.toList_inj]
  cases getter <;> cases setter <;> simp [writeProperty, writeFunction, writeParams,
    Param.write, Text.braced]

/-- A property is written by its name and words of the writer. -/
theorem clean_property {name : String} (h : IsWordText name) (getter setter : Bool) :
    Clean Anything (writeProperty name getter setter) := by
  have hget : Clean Anything (writeFunction name []
      ("return" ++ " " ++ ("this" ++ "." ++ name) ++ ";" ++ "\n")) := by
    refine clean_function h (by simp) ?_
    rw [String.append_assoc]
    have hreturn := (clean_access h).behind_word (isWordText_scriptWord "return" (by decide))
    exact hreturn.before clean_semicolon (by decide)
  have hset : Clean Anything (writeFunction name [⟨default, "val", none⟩]
      ("this" ++ "." ++ name ++ " " ++ "= val" ++ ";" ++ "\n")) := by
    refine clean_function h ?_ ?_
    · intro p hp
      obtain rfl := List.mem_singleton.mp hp
      exact ⟨isWordText_scriptWord _ (by decide), nofun⟩
    · rw [String.append_assoc]
      have hvalue := clean_scriptPhrase "= val" (by decide)
      have hassign := hvalue.behind ((clean_access h).before clean_blank (by decide))
      exact hassign.before clean_semicolon (by decide)
  rw [writeProperty_eq]
  refine Clean.behind ?_ ?_
  · split
    · exact hset.behind_word (isWordText_scriptWord _ (by decide))
    · exact clean_empty
  · split
    · exact hget.behind_word (isWordText_scriptWord _ (by decide))
    · exact clean_empty

/-- The line of a stub in its parts, one of which is a string. -/
theorem missingLine_eq (name : String) :
    missingLine name = "throw new Error" ++
      ("(" ++ ("\"" ++ ("Method '" ++ name ++ "' must be implemented") ++ "\"") ++ ")") ++
        ";" ++ "\n" := by
  have hopen : "throw new Error(\"Method '" =
      "throw new Error" ++ ("(" ++ ("\"" ++ "Method '")) := rfl
  have hclose : "' must be implemented\");\n" =
      "' must be implemented" ++ ("\"" ++ (")" ++ (";" ++ "\n"))) := rfl
  unfold missingLine
  simp only [String.append_assoc]
  rw [hopen, hclose]
  simp only [String.append_assoc]

/-- The name in the message is a word, so it does not end the string. -/
theorem clean_missingLine {name : String} (h : IsWordText name) :
    Clean Anything (missingLine name) := by
  -- A name has nothing in it that would end the literal early.
  have hplain : ∀ d, isWordPart d = true → d ≠ '"' ∧ d ≠ '\\' ∧ d ≠ '\n' := by
    intro d hd
    refine ⟨?_, ?_, ?_⟩ <;> rintro rfl <;> rw [not_isWordPart (by decide)] at hd <;> cases hd
  have hall : (("Method '".toList ++ "' must be implemented".toList).all fun d =>
      d != '"' && (d != '\\' && d != '\n')) = true := by decide
  have hfixed : ∀ d ∈ "Method '".toList ++ "' must be implemented".toList,
      d ≠ '"' ∧ d ≠ '\\' ∧ d ≠ '\n' := by
    intro d hd
    simpa using List.all_eq_true.mp hall d hd
  have hquotable : IsQuotable ("Method '" ++ name ++ "' must be implemented") := by
    obtain ⟨c, v, hchars, hc, hv⟩ := h
    rw [IsQuotable, String.toList_append, String.toList_append, hchars]
    refine ⟨⟨'M', by simp, by decide⟩, fun d hd => ?_⟩
    rcases List.mem_append.mp hd with hd | hd
    · rcases List.mem_append.mp hd with hd | hd
      · exact hfixed d (List.mem_append_left _ hd)
      · rcases List.mem_cons.mp hd with rfl | hd
        · exact hplain d (by simp [isWordPart, hc])
        · exact hplain d (hv d hd)
    · exact hfixed d (List.mem_append_right _ hd)
  have hthrow := clean_scriptPhrase "throw new Error" (by decide)
  rw [missingLine_eq]
  exact clean_newline.behind ((clean_sign (by decide)).behind
    (hthrow.before_group .round (clean_literal hquotable).apart))

/-- Of a field the first variable is written, as a static one. -/
theorem clean_field {ds : List String} (h : ∀ d ∈ ds, IsCodeText d) :
    Clean Anything (writeField ds) := by
  cases ds with
  | nil => exact clean_empty
  | cons first ds =>
    have hstatic := isWordText_scriptWord "static" (by decide)
    have hfirst := (clean_code (h first List.mem_cons_self)).behind_word hstatic
    exact hfirst.before clean_semicolon (by decide)

/-- A member of a class is written, and cleanly so unless it has an inline override. -/
theorem Member.clean_write {m : Member} (h : m.form.Sound)
    (hplain : ∀ name ps body, m.form = .method name ps body →
      Marker.inlineOverride.find? m.lead.annotations = none) (owner : String) :
    ∃ f, m.write? owner = .ok f ∧ Clean Anything f.text := by
  unfold Member.write?
  split
  · exact ⟨∅, rfl, clean_empty⟩
  · generalize hform : m.form = form at h
    cases h with
    | @method name ps body hname hps hbody =>
      refine ⟨_, rfl, ?_⟩
      have hlines : Clean Anything (methodLines m.lead.annotations body) := by
        rw [methodLines, hplain name ps body hform]
        exact clean_body hbody
      have hstatic : Clean Anything (if m.isStatic then "static" ++ " " else "") := by
        split
        · have hword := isWordText_scriptWord "static" (by decide)
          exact (clean_name hword).before clean_blank (by decide)
        · exact clean_empty
      exact (clean_function hname hps hlines).behind hstatic
    | constructor hps hbody =>
      have hname := isWordText_scriptWord "constructor" (by decide)
      exact ⟨_, rfl, clean_function hname hps (clean_body hbody)⟩
    | field hds => exact ⟨_, rfl, clean_field hds⟩
    | property hname getter setter => exact ⟨_, rfl, clean_property hname getter setter⟩
    | other kind => exact ⟨_, rfl, clean_empty⟩

/-- A stub throws an error with a message, or is a property. -/
theorem Member.clean_stub {m : Member} (h : m.form.Sound) : Clean Anything m.stub.text := by
  unfold Member.stub
  split
  · exact clean_empty
  · generalize m.form = form at h
    cases h with
    | method hname hps _ =>
      dsimp only
      split
      · exact clean_empty
      · exact clean_function hname hps (clean_missingLine hname)
    | constructor => exact clean_empty
    | field => exact clean_empty
    | property hname getter setter => exact clean_property hname getter setter
    | other => exact clean_empty

theorem clean_stubs {is : List Item} (h : ItemsSound is) :
    Clean Anything (writeStubs is).text := by
  induction is with
  | nil => exact clean_empty
  | cons i is ih =>
    cases h with
    | cons head tail =>
      rw [writeStubs, Fragment.text_append]
      refine (ih tail).behind ?_
      cases head with
      | member h => exact Member.clean_stub h
      | scope => exact clean_empty
      | type => exact clean_empty
      | enumeration => exact clean_empty
      | skipped => exact clean_empty

/-! ## Declarations -/

/-- A comment line for a declaration. -/
theorem clean_mark {kind name : String} (hkind : '\n' ∉ kind.toList) (hname : IsWordText name)
    (edge : String) (hedge : '\n' ∉ edge.toList) :
    Clean Anything ("//" ++ (edge ++ kind ++ ": " ++ name) ++ "\n") := by
  obtain ⟨c, v, hchars, hc, hv⟩ := hname
  have hline := not_isWordPart (c := '\n') (by decide)
  have hword : '\n' ∉ c :: v := by
    intro hmem
    rcases List.mem_cons.mp hmem with rfl | hmem
    · simp [isWordPart, hc] at hline
    · rw [hv _ hmem] at hline
      cases hline
  refine (clean_comment ?_).line
  simp [hkind, hedge, hchars, hword]

/-- The comments around a declaration take a line each. -/
theorem clean_bracketed {kind name : String} {f : Fragment} (hkind : '\n' ∉ kind.toList)
    (hname : IsWordText name) (hf : Clean Anything f.text) :
    Clean Anything (bracketed kind name f).text := by
  have htext : (bracketed kind name f).text =
      "//" ++ (" BEGIN C# " ++ kind ++ ": " ++ name) ++ "\n" ++ f.text ++
        ("//" ++ (" END C# " ++ kind ++ ": " ++ name) ++ "\n") := by
    rw [← String.toList_inj]
    simp [bracketed]
  rw [htext]
  exact (clean_mark hkind hname " END C# " (by decide)).behind
    (hf.behind (clean_mark hkind hname " BEGIN C# " (by decide)))

/-- A class is clean if its members are. -/
theorem clean_class {name : String} {base : Option String} {f : Fragment}
    (hname : IsWordText name) (hbase : ∀ b ∈ base, IsCodeText b) (hf : Clean Anything f.text) :
    Clean Anything (writeClass name base f).text := by
  have hclass := isWordText_scriptWord "class" (by decide)
  have hextends := isWordText_scriptWord "extends" (by decide)
  have hhead : Clean Apart ("class" ++ " " ++ name) := (clean_name hname).behind_word hclass
  have htext : ∀ head :
      String, (Fragment.ofText (head ++ " \x7b\n") ++ f ++ .ofText "\x7d\n").text =
        head ++ " " ++ (Text.openBrace ++ ("\n" ++ f.text) ++ Text.closeBrace) ++ "\n" := by
    intro head
    rw [← String.toList_inj]
    simp
  have hwhole : ∀ head : String, Clean Apart head →
      Clean Anything (head ++ " " ++ (Text.openBrace ++ ("\n" ++ f.text) ++ Text.closeBrace) ++
        "\n") := fun head h =>
    clean_newline.behind ((clean_block hf).behind (h.before clean_blank (by decide)))
  unfold writeClass
  rw [htext]
  refine hwhole _ ?_
  cases base with
  | none => exact hhead
  | some b =>
    have hb := (clean_code (hbase b rfl)).behind_word hextends
    have hjoin : Clean Apart ("class" ++ " " ++ name ++ " " ++ ("extends" ++ " " ++ b)) :=
      hb.behind (hhead.before clean_blank (by decide))
    have hsame : "class" ++ " " ++ name ++ " " ++ ("extends" ++ " " ++ b) =
        "class " ++ name ++ " extends " ++ b := by
      rw [← String.toList_inj]
      simp
    rw [hsame] at hjoin
    exact hjoin

/-- The members of an enumeration have commas between them. -/
theorem clean_enumeration {name : String} {ms : List EnumMember} (hname : IsWordText name)
    (hms : ∀ m ∈ ms, IsCodeText m.text) : Clean Anything (writeEnumeration name ms).text := by
  have htext :
      (writeEnumeration name ms).text = "const" ++ " " ++ name ++ " " ++ "= Object.freeze" ++
        ("(" ++ Text.braced (", ".intercalate (ms.map EnumMember.text)) ++ ")") ++
        ";" ++ "\n" := by
    rw [← String.toList_inj]
    simp [writeEnumeration]
  have hmembers : Clean Apart (", ".intercalate (ms.map EnumMember.text)) := by
    refine clean_joined fun s hs => ?_
    obtain ⟨m, hm, rfl⟩ := List.mem_map.mp hs
    exact clean_code (hms m hm)
  have hfreeze := clean_scriptPhrase "= Object.freeze" (by decide)
  have hconst := isWordText_scriptWord "const" (by decide)
  have hhead :=
    hfreeze.behind (((clean_name hname).behind_word hconst).before clean_blank (by decide))
  rw [htext]
  exact clean_newline.behind ((clean_sign (by decide)).behind
    (hhead.before_group .round (clean_group .curly hmembers).apart))

/-- Whether an item is a method that carries an inline override. -/
def Item.isOverridden : Item → Bool
  | .member ⟨lead, .method _ _ _⟩ => (Marker.inlineOverride.find? lead.annotations).isSome
  | _ => false

/-- The first base of a class. -/
def Item.firstBase? : Item → Option String
  | .type .classType _ _ bases _ => bases.head?
  | _ => none

/-- A method without an inline override, or a class whose first base is balanced, or any other
item. -/
structure Item.Plain (i : Item) : Prop where
  override : i.isOverridden = false
  base : ∀ b ∈ i.firstBase?, ∃ t, tokenize b = .ok t ∧ Balanced t.tokens

/-- What a class extends is code, if its first base is balanced. -/
theorem isCodeText_extendsTarget {bases : List String} (hbases : ∀ b ∈ bases, IsTypeText b)
    (hfirst : ∀ b ∈ bases.head?, ∃ t, tokenize b = .ok t ∧ Balanced t.tokens) :
    ∀ b ∈ extendsTarget bases, IsCodeText b := by
  intro b hb
  cases bases with
  | nil => cases hb
  | cons first bases =>
    obtain ⟨ts, hts, hlexed, rfl⟩ := hbases first List.mem_cons_self
    obtain ⟨t, ht, hbalanced⟩ := hfirst _ rfl
    -- The tokens that the base was read as are those that it is cut into again, elsewhere.
    obtain ⟨us, q, hus, hshift⟩ := hlexed.tokenize_spelling
    obtain rfl : t = ⟨us, "", q⟩ := Except.ok.inj (ht.symm.trans hus)
    simp only [extendsTarget, hlexed.trim_spelling] at hb
    split at hb
    · cases hb
    · cases hb
      refine ⟨ts, hts, hlexed, ?_, rfl⟩
      unfold Balanced at hbalanced ⊢
      rwa [hshift.alike.signs_eq]

mutual

/-- A declaration is written cleanly. -/
theorem Item.write?_clean : ∀ {i : Item}, Item.Sound i → (∀ j ∈ i.within, j.Plain) →
    ∃ f, i.write? ⟨[]⟩ = .ok f ∧ Clean Anything f.text
  | _, .member _, _ => ⟨∅, rfl, clean_empty⟩
  | _, .scope h, hplain => writeItems?_clean h fun j hj => hplain j (List.mem_cons_of_mem _ hj)
  | .type .classType lead name bases is, .type hname hbases h, hplain => by
    obtain ⟨f, hf, hclean⟩ := writeMembers?_clean name h fun j hj =>
      hplain j (List.mem_cons_of_mem _ hj)
    have hbase := isCodeText_extendsTarget hbases (hplain _ List.mem_cons_self).base
    rw [Item.write?_class, hf]
    split
    · exact ⟨∅, rfl, clean_empty⟩
    · exact ⟨_, rfl, clean_bracketed (by decide) hname (clean_class hname hbase hclean)⟩
  | .type .interfaceType lead name bases is, .type hname _ h, _ => by
    rw [Item.write?_interface]
    split
    · exact ⟨∅, rfl, clean_empty⟩
    · exact ⟨_, rfl,
        clean_bracketed (by decide) hname (clean_class hname nofun (clean_stubs h))⟩
  | .enumeration lead name ms, .enumeration hname hms, _ => by
    rw [Item.write?_enumeration]
    split
    · exact ⟨∅, rfl, clean_empty⟩
    · exact ⟨_, rfl, clean_bracketed (by decide) hname (clean_enumeration hname hms)⟩
  | _, .skipped, _ => ⟨∅, rfl, clean_empty⟩

/-- **Declarations are written cleanly**, one after the other. -/
theorem writeItems?_clean :
    ∀ {is : List Item}, ItemsSound is → (∀ j ∈ itemsWithin is, j.Plain) →
      ∃ f, writeItems? ⟨[]⟩ is = .ok f ∧ Clean Anything f.text
  | _, .nil, _ => ⟨∅, rfl, clean_empty⟩
  | _, .cons head tail, hplain => by
    obtain ⟨f, hf, hfirst⟩ := Item.write?_clean head fun j hj =>
      hplain j (List.mem_append_left _ hj)
    obtain ⟨g, hg, hrest⟩ := writeItems?_clean tail fun j hj =>
      hplain j (List.mem_append_right _ hj)
    exact ⟨f ++ g, writeItems?_cons_eq_ok.mpr ⟨f, g, hf, hg, rfl⟩, hrest.behind hfirst⟩

/-- The items of a class are written cleanly. -/
theorem writeMembers?_clean (owner : String) : ∀ {is : List Item}, ItemsSound is →
    (∀ j ∈ itemsWithin is, j.Plain) →
    ∃ f, writeMembers? ⟨[]⟩ owner is = .ok f ∧ Clean Anything f.text
  | _, .nil, _ => ⟨∅, rfl, clean_empty⟩
  | i :: is, .cons head tail, hplain => by
    obtain ⟨g, hg, hrest⟩ := writeMembers?_clean owner tail fun j hj =>
      hplain j (List.mem_append_right _ hj)
    have hplain' : ∀ j ∈ i.within, j.Plain := fun j hj => hplain j (List.mem_append_left _ hj)
    have hfirst : ∃ f, i.writeIn? ⟨[]⟩ owner = .ok f ∧ Clean Anything f.text := by
      cases head with
      | @member m h =>
        -- Without a replacement a member is written as it was read.
        show ∃ f, (m.replace ⟨[]⟩).write? owner = .ok f ∧ Clean Anything f.text
        rw [Member.replace_nil]
        refine Member.clean_write h (fun name ps body hform => ?_) owner
        obtain ⟨lead, form⟩ := m
        obtain rfl : form = .method name ps body := hform
        have hnone := (hplain' _ List.mem_cons_self).override
        exact Option.isNone_iff_eq_none.mp (Option.isSome_eq_false_iff.mp hnone)
      | scope h => exact Item.write?_clean (.scope h) hplain'
      | type hname hbases h => exact Item.write?_clean (.type hname hbases h) hplain'
      | enumeration hname hms => exact Item.write?_clean (.enumeration hname hms) hplain'
      | skipped => exact ⟨∅, rfl, clean_empty⟩
    obtain ⟨f, hf, hclean⟩ := hfirst
    exact ⟨f ++ g, writeMembers?_cons_eq_ok.mpr ⟨f, g, hf, hg, rfl⟩, hrest.behind hclean⟩

end

/-! ## The script of a source text -/

/-- **The script of a source text is cut into tokens whose brackets are well nested**, if no
method has an inline override and the brackets in what classes extend are well nested. -/
theorem parse_write_balanced {s : String} {u : CompilationUnit} (h : parse s = .ok u)
    (hoverride : ∀ i ∈ itemsWithin u.items, i.isOverridden = false)
    (hbase : ∀ i ∈ itemsWithin u.items, ∀ b ∈ i.firstBase?,
      ∃ t, tokenize b = .ok t ∧ Balanced t.tokens) :
    ∃ f t, u.write? ⟨[]⟩ = .ok f ∧ tokenize f.text = .ok t ∧ Balanced t.tokens := by
  obtain ⟨_, _, -, htold, -⟩ := passage_of_parse h
  obtain ⟨f, hf, hclean⟩ := writeItems?_clean htold.sound fun i hi =>
    ⟨hoverride i hi, hbase i hi⟩
  obtain ⟨t, ht, hbalanced⟩ := hclean.tokenize trivial
  exact ⟨f, t, hf, ht, hbalanced⟩

/-- A class with a base that has brackets, and a comparison with a
string that looks like one. -/
def comparingClass : String :=
  "class C:B<int[]>" ++ Text.braced ("void M()" ++ Text.braced "f(a!=\"\x7d\");")

theorem parse_write_balanced_class :
    ∃ u, parse comparingClass = .ok u ∧
      (∀ i ∈ itemsWithin u.items, i.isOverridden = false) ∧
      (∀ i ∈ itemsWithin u.items, ∀ b ∈ i.firstBase?,
        ∃ t, tokenize b = .ok t ∧ Balanced t.tokens) ∧
      ∃ f t, u.write? ⟨[]⟩ = .ok f ∧ tokenize f.text = .ok t ∧ Balanced t.tokens := by
  obtain ⟨u, hu⟩ := exists_parse_eq_ok (s := comparingClass) (by decide +kernel)
  have hitems : (parse comparingClass).toOption.map
      (fun u => ((itemsWithin u.items).map Item.isOverridden,
        (itemsWithin u.items).map Item.firstBase?)) =
      some ([false, false], [some "B<int[]>", none]) := by decide +kernel
  have hsigns : (tokenize "B<int[]>").toOption.map (fun t => signs t.tokens) =
      some [.opening .square, .closing .square] := by decide +kernel
  rw [hu] at hitems
  obtain ⟨hflags, hfirsts⟩ := Prod.mk.inj (Option.some.inj hitems)
  have hoverride : ∀ i ∈ itemsWithin u.items, i.isOverridden = false := by
    intro i hi
    have hmem := List.mem_map_of_mem (f := Item.isOverridden) hi
    rw [hflags] at hmem
    simpa using hmem
  have hbase : ∀ i ∈ itemsWithin u.items, ∀ b ∈ i.firstBase?,
      ∃ t, tokenize b = .ok t ∧ Balanced t.tokens := by
    intro i hi b hb
    have hmem := List.mem_map_of_mem (f := Item.firstBase?) hi
    rw [hfirsts, Option.mem_def.mp hb] at hmem
    obtain rfl : b = "B<int[]>" := by simpa using hmem
    cases ht : tokenize "B<int[]>" with
    | error fault => rw [ht] at hsigns; cases hsigns
    | ok t =>
      rw [ht] at hsigns
      refine ⟨t, rfl, ?_⟩
      unfold Balanced
      rw [show signs t.tokens = _ from Option.some.inj hsigns]
      exact .nest .square .nil .nil
  exact ⟨u, hu, hoverride, hbase, parse_write_balanced hu hoverride hbase⟩

end SharpScript
