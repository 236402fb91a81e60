import SharpScript.Json.Write
import SharpScript.Proofs.Json.Decoder
import Mathlib.Data.List.Nodup

/-! # Written values are documents

A value that is written and its text belong together by the grammar of JSON.

## Main Definitions

* `Value.Plain`: values of null, booleans, integers, texts, lists and dictionaries.

## Main Results

* `spelling_escape`: a character between double quotes is spelled;
* `Value.Plain.spells_write`: **a plain value is written as the grammar
  wants it**, at every level;
* `Value.Plain.render_eq`, `Value.Plain.document`: a plain value can be written, and its text
  is a document that stands for it.
-/

namespace SharpScript.Json

/-- A value that is built from null, booleans, integers, texts, lists, and dictionaries with
distinct texts as names. -/
inductive Value.Plain : Value → Prop
  | null : Plain .null
  | bool (b : Bool) : Plain (.bool b)
  | int (n : Int) : Plain (.int n)
  | text (s : String) : Plain (.text s)
  | list {vs : List Value} (values : ∀ v ∈ vs, Plain v) : Plain (.list vs)
  | object {es : List (String × Value)} (distinct : (es.map Prod.fst).Nodup)
      (values : ∀ e ∈ es, Plain e.2) : Plain (.object es)

/-! ## Integers -/

/-- The digits of a number are not empty, and the first one is zero for zero alone. -/
theorem natural_toDigits (n : Nat) : Natural (Nat.toDigits 10 n) where
  ne_nil := Nat.toDigits_ne_nil
  isDigit _ := Nat.isDigit_of_mem_toDigits (by decide) (by decide)
  zero := by
    induction n using Nat.strong_induction_on with
    | _ n ih =>
      intro hhead
      rcases Nat.lt_or_ge n 10 with hlt | hge
      · rw [Nat.toDigits_of_lt_base hlt] at hhead ⊢
        rw [Option.some.inj hhead]
      · -- The digits before the last one would be a zero.
        rw [Nat.toDigits_of_base_le (by decide) hge,
          List.head?_append_of_ne_nil _ Nat.toDigits_ne_nil] at hhead
        have hzero := Nat.ofDigitChars_toDigits (b := 10) (n := n / 10) (by decide) (by decide)
        rw [ih (n / 10) (by omega) hhead] at hzero
        have : n / 10 = 0 := hzero.symm
        omega

/-- **Integers** are spelled as they are written. -/
theorem spells_int (n : Int) : Spells (toString n).toList (.value (.int n)) := by
  have hvalue (m : Nat) : Nat.ofDigitChars 10 (Nat.toDigits 10 m) 0 = m :=
    Nat.ofDigitChars_toDigits (by decide) (by decide)
  rw [Int.toString_eq_repr]
  cases n with
  | ofNat m =>
    have h := Number.plus (.whole (natural_toDigits m))
    rw [hvalue] at h
    rw [Int.repr, Nat.toList_repr]
    exact .number h
  | negSucc m =>
    have h := Number.minus (.whole (natural_toDigits (m + 1)))
    rw [hvalue] at h
    rw [Int.repr, String.toList_append, Nat.toList_repr]
    exact .number h

/-! ## Texts -/

/-- A control character has a code of four digits, from which it is read back. -/
theorem hexCode?_hex : ∀ n < 0x20, ∃ a b c d, Text.hex 4 n = [a, b, c, d] ∧
    hexCode? a b c d = some n := by
  have hcode : ∀ n < 0x20, hexCode? (Text.hexDigit (n / 16 / 16 / 16 % 16))
      (Text.hexDigit (n / 16 / 16 % 16)) (Text.hexDigit (n / 16 % 16))
        (Text.hexDigit (n % 16)) = some n := by
    decide
  exact fun n hn => ⟨_, _, _, _, rfl, hcode n hn⟩

/-- A character between double quotes is spelled. -/
theorem spelling_escape (c : Char) : Spelling (escape c) c := by
  unfold escape
  have short {e d : Char} (hescape : shortEscape? e = some d) (h : (c == d) = true) :
      Spelling ['\\', e] c :=
    .short (hescape.trans (congrArg some (beq_iff_eq.1 h).symm))
  iterate 5
    split
    · next h => exact short rfl h
  split
  · next hcontrol =>
    obtain ⟨x, y, z, d, hhex, hcode⟩ := hexCode?_hex c.toNat hcontrol
    have h :=
      Spelling.unit hcode (fun h => by have := h.1; omega) (fun h => by have := h.1; omega)
    rw [Char.ofNat_toNat] at h
    rw [hhex]
    exact h
  · next hslash hquote _ _ _ hcontrol =>
    refine .self ?_
    simp only [isUnescaped, Bool.and_eq_true, decide_eq_true_eq, bne_iff_ne]
    exact ⟨⟨Nat.le_of_not_lt hcontrol, by simpa using hquote⟩, by simpa using hslash⟩

/-- Each character of a text is spelled by its escape. -/
theorem characters_flatMap_escape (s : List Char) : Characters (s.flatMap escape) s := by
  induction s with
  | nil => exact .nil
  | cons c s ih => exact .cons (spelling_escape c) ih

theorem toList_quoted (s : String) :
    (quoted s).toList = '"' :: (s.toList.flatMap escape ++ ['"']) :=
  String.toList_ofList

/-- **Texts** are spelled as they are written. -/
theorem spells_quoted (s : String) : Spells (quoted s).toList (.value (.text s)) := by
  have h := Spells.text (characters_flatMap_escape s.toList)
  rwa [String.ofList_toList, ← toList_quoted] at h

/-! ## Lists and dictionaries -/

theorem blanks_nil : Blanks [] := fun _ h => nomatch h

theorem blanks_newline_indent (level : Nat) : Blanks ('\n' :: (indent level).toList) := by
  intro c hc
  rw [indent, String.toList_ofList, List.mem_cons, List.mem_replicate] at hc
  rcases hc with rfl | ⟨-, rfl⟩ <;> rfl

theorem Value.writeAll_eq (level : Nat) (vs : List Value) :
    writeAll level vs = vs.map (write level) := by
  induction vs with
  | nil => rfl
  | cons v vs ih => rw [writeAll, ih, List.map_cons]

theorem Value.writeEntries_eq (level : Nat) (es : List (Key × Value)) :
    writeEntries level es = es.map fun e => quoted e.1.name ++ ": " ++ e.2.write level := by
  induction es with
  | nil => rfl
  | cons e es ih => rw [writeEntries, ih, List.map_cons]

section Lines

variable {α : Type} {item : α → Phrase} {items : List α → Phrase}

/-- Lines with commas between them spell a list, if each of them spells an item of it. -/
theorem spells_lines (last : ∀ {w x}, Spells w (item x) → Spells w (items [x]))
    (more : ∀ {w u x xs}, Spells w (item x) → Spells u (items xs) →
      Spells (w ++ ',' :: u) (items (x :: xs)))
    (line : α → String) {xs : List α} (hne : xs ≠ []) (level : Nat) {b : List Char}
    (hb : Blanks b) (hline : ∀ x ∈ xs, ∀ b b', Blanks b → Blanks b' →
      Spells (b ++ ((line x).toList ++ b')) (item x)) :
    Spells ('\n' :: ((",\n".intercalate ((xs.map line).map (indent level ++ ·))).toList ++ b))
      (items xs) := by
  induction xs with
  | nil => exact absurd rfl hne
  | cons x xs ih =>
    have hx := hline x List.mem_cons_self ('\n' :: (indent level).toList)
    cases xs with
    | nil =>
      have hitem := hx _ (blanks_newline_indent level) hb
      simpa using last hitem
    | cons y ys =>
      have hitem := hx _ (blanks_newline_indent level) blanks_nil
      have hitems := ih (List.cons_ne_nil y ys) fun z hz => hline z (List.mem_cons_of_mem _ hz)
      simpa using more hitem hitems

end Lines

/-! ## Values -/

theorem isEmpty_map {α : Type} {xs : List α} (line : α → String) (h : xs ≠ []) :
    (xs.map line).isEmpty = false := by
  simpa using h

/-- A list of lines between brackets, with the blanks that are put in. -/
theorem toList_enclose {lines : List String} (h : lines.isEmpty = false)
    (opening closing : String) (level : Nat) :
    (enclose opening closing level lines).toList = opening.toList ++
      ('\n' :: ((",\n".intercalate (lines.map (indent (level + 1) ++ ·))).toList ++
        '\n' :: (indent level).toList) ++ closing.toList) := by
  rw [enclose, if_neg (by simp [h])]
  simp

/-- An entry of a dictionary is spelled with its key, a colon and its value. -/
theorem spells_member {k : String} {v : Value} {text : List Char} (hv : Spells text (.value v))
    {b b' : List Char} (hb : Blanks b) (hb' : Blanks b') :
    Spells (b ++ ((quoted k).toList ++ ':' :: ' ' :: text ++ b')) (.member (.text k, v)) := by
  have h := Spells.member hb (characters_flatMap_escape k.toList) blanks_nil
    (.element (b := [' ']) (by simp [Blanks, isBlank]) hv hb')
  rw [String.ofList_toList] at h
  simpa [toList_quoted] using h

/-- Different names are different keys. -/
theorem nodup_keys {es : List (String × Value)} (h : (es.map Prod.fst).Nodup) :
    ((es.map fun e => (Key.text e.1, e.2)).map Prod.fst).Nodup := by
  have hkeys :
      (es.map fun e => (Key.text e.1, e.2)).map Prod.fst = (es.map Prod.fst).map .text := by
    simp only [List.map_map, Function.comp_def]
  rw [hkeys]
  exact List.Nodup.map (fun _ _ heq => Key.text.inj heq) h

/-- A plain value is written as the grammar wants it. -/
theorem Value.Plain.spells_write {v : Value} (h : v.Plain) (level : Nat) :
    Spells (v.write level).toList (.value v) := by
  induction h generalizing level with
  | null => simpa [write] using Spells.null
  | bool b =>
    cases b
    · simpa [write] using Spells.no
    · simpa [write] using Spells.yes
  | int n => exact spells_int n
  | text s => exact spells_quoted s
  | @list vs values ih =>
    rw [write, writeAll_eq]
    by_cases hne : vs = []
    · subst hne
      simpa [enclose] using Spells.noElement blanks_nil
    · have hlines := spells_lines .last .more _ hne (level + 1) (blanks_newline_indent level)
        fun v hv b b' hb hb' => .element hb (ih v hv (level + 1)) hb'
      rw [toList_enclose (isEmpty_map _ hne)]
      exact .list hlines
  | @object es distinct values ih =>
    rw [Value.object, write, writeEntries_eq]
    by_cases hne : es = []
    · subst hne
      simpa [enclose] using Spells.noMember blanks_nil
    · have hentries : (es.map fun e => (Key.text e.1, e.2)) ≠ [] := by simpa using hne
      have hlines := spells_lines .lastMember .moreMembers
        (fun e => quoted e.1.name ++ ": " ++ e.2.write (level + 1)) hentries (level + 1)
        (blanks_newline_indent level) fun e he b b' hb hb' => by
          obtain ⟨e', he', rfl⟩ := List.mem_map.1 he
          simpa [Key.name] using spells_member (k := e'.1) (ih e' he' (level + 1)) hb hb'
      rw [toList_enclose (isEmpty_map _ hentries)]
      have h := Spells.dict hlines
      rwa [merge_eq_self (nodup_keys distinct)] at h

/-- There is nothing in a plain value that cannot be written. -/
theorem Value.Plain.foreign?_eq_none {v : Value} (h : v.Plain) : v.foreign? = none := by
  induction h with
  | null | bool | int | text => rfl
  | @list vs values ih =>
    rw [foreign?]
    clear values
    induction vs with
    | nil => rfl
    | cons v vs ihs =>
      rw [foreignAmong?, ih v List.mem_cons_self,
        ihs fun w hw => ih w (List.mem_cons_of_mem _ hw)]
      rfl
  | @object es distinct values ih =>
    rw [Value.object, foreign?]
    clear distinct values
    induction es with
    | nil => rfl
    | cons e es ihs =>
      rw [List.map_cons, foreignEntry?, ih e List.mem_cons_self,
        ihs fun e' he => ih e' (List.mem_cons_of_mem _ he)]
      rfl

/-- **A plain value is written.** -/
theorem Value.Plain.render_eq {v : Value} (h : v.Plain) : v.render = .ok (v.write 0) := by
  rw [render, h.foreign?_eq_none]

/-- The text of a plain value is a document for it. -/
theorem Value.Plain.document {v : Value} (h : v.Plain) : Document (v.write 0) v := by
  have helement := Spells.element blanks_nil (h.spells_write 0) blanks_nil
  rwa [List.nil_append, List.append_nil] at helement

end SharpScript.Json
