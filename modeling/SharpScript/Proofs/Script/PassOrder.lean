import SharpScript.Proofs.Script.StrictComparisons
import SharpScript.Proofs.Script.WholeWords

/-! # The order of the passes over a text

Words are replaced before comparisons are made strict.  The other order would do as well,
as long as words are replaced by words: a replacement changes words only, strict
comparisons change only what stands between them, and neither looks across the place
where a word starts or ends.

## Main Definitions

* `Text.IsStretch`, `Text.Alternates`: words and what stands between them, in turn;
* `Text.Stretchwise`: functions on texts that change each stretch on its
  own and keep what it is;
* `Replacement.MapsWords`: replacements of words by words.

## Main Results

* `Text.Stretchwise.comm`: two such functions may be applied in either order to a text if
  they may be to a stretch;
* `stretchwise_strictChars`, `Replacement.stretchwise_scan`: both passes are such functions;
* `Replacement.apply_strictEquality`: **words are replaced before comparisons are made strict
  or afterwards**, in a text and in the body of a function.
-/

namespace SharpScript

/-! ## Stretches -/

namespace Text

/-- One character or more, which are word characters if `word` holds and are none otherwise. -/
def IsStretch (word : Bool) (w : List Char) : Prop := w ≠ [] ∧ ∀ c ∈ w, isWord c = word

/-- Stretches of both sorts in turn.  The first one is a word if `word` holds. -/
inductive Alternates : (word : Bool) → List (List Char) → Prop
  | nil (word : Bool) : Alternates word []
  | cons {word : Bool} {w : List Char} {ws : List (List Char)} (hw : IsStretch word w)
      (hws : Alternates (!word) ws) : Alternates word (w :: ws)

/-- Every text consists of stretches. -/
theorem exists_alternates (cs : List Char) :
    ∃ word ws, Alternates word ws ∧ ws.flatten = cs := by
  induction cs with
  | nil => exact ⟨true, [], .nil true, rfl⟩
  | cons c cs ih =>
    obtain ⟨word, ws, hws, rfl⟩ := ih
    have hsingle : IsStretch (isWord c) [c] := ⟨List.cons_ne_nil _ _, by simp⟩
    cases hws with
    | nil => exact ⟨isWord c, [[c]], .cons hsingle (.nil _), rfl⟩
    | @cons _ w ws hw hws =>
      by_cases hc : isWord c = word
      · refine ⟨word, (c :: w) :: ws, .cons ⟨List.cons_ne_nil _ _, ?_⟩ hws, rfl⟩
        exact List.forall_mem_cons.mpr ⟨hc, hw.2⟩
      · obtain rfl : word = !isWord c := Bool.eq_not.mpr (Ne.symm hc)
        exact ⟨isWord c, [c] :: w :: ws, .cons hsingle (.cons hw hws), rfl⟩

theorem exists_pieces (cs : List Char) : ∃ ps : List (List Char), ps.flatten = cs ∧
    (∀ p ∈ ps, IsRun p ∨ IsOther p) ∧ ps.IsChain fun p q => ¬(IsRun p ∧ IsRun q) := by
  obtain ⟨hjoin, hpiece, hlongest⟩ := isPieces_pieces (String.ofList cs)
  refine ⟨(pieces (String.ofList cs)).map String.toList, ?_, fun p hp => ?_, ?_⟩
  · rw [← List.flatMap_def, ← String.toList_join, hjoin, String.toList_ofList]
  · obtain ⟨w, hw, rfl⟩ := List.mem_map.mp hp
    exact hpiece w hw
  · rwa [List.isChain_map]

/-- A function on texts that changes each stretch on its own and keeps what it is. -/
structure Stretchwise (f : List Char → List Char) : Prop where
  nil : f [] = []
  split : ∀ u v, boundary u.getLast? v.head? = true → f (u ++ v) = f u ++ f v
  keep : ∀ word w, IsStretch word w → IsStretch word (f w)

namespace Stretchwise

variable {f g : List Char → List Char} {word : Bool} {ws : List (List Char)}

/-- Where one stretch follows another, there is a boundary. -/
theorem boundary_of_alternates {w v : List Char} (hw : IsStretch word w)
    (h : Alternates (!word) (v :: ws)) :
    boundary w.getLast? (v :: ws).flatten.head? = true := by
  cases h with
  | cons hv _ =>
    obtain ⟨c, v, rfl⟩ := List.exists_cons_of_ne_nil hv.1
    have hlast := hw.2 _ (List.getLast_mem hw.1)
    have hhead := hv.2 c List.mem_cons_self
    rw [List.getLast?_eq_some_getLast hw.1]
    cases word <;> simp [boundary, hlast, hhead]

theorem flatten_eq (hf : Stretchwise f) (h : Alternates word ws) :
    f ws.flatten = (ws.map f).flatten := by
  induction h with
  | nil => exact hf.nil
  | @cons word w ws hw hws ih =>
    cases ws with
    | nil => simp
    | cons v ws =>
      rw [List.flatten_cons, hf.split _ _ (boundary_of_alternates hw hws), ih]
      rfl

theorem alternates (hf : Stretchwise f) (h : Alternates word ws) :
    Alternates word (ws.map f) := by
  induction h with
  | nil => exact .nil _
  | cons hw _ ih => exact .cons (hf.keep _ _ hw) ih

/-- **Functions that change each stretch on its own may be applied in either order if they may
be to each stretch.** -/
theorem comm (hf : Stretchwise f) (hg : Stretchwise g)
    (h : ∀ word w, IsStretch word w → f (g w) = g (f w)) (cs : List Char) :
    f (g cs) = g (f cs) := by
  obtain ⟨word, ws, hws, rfl⟩ := exists_alternates cs
  have hmaps : (ws.map g).map f = (ws.map f).map g := by
    clear hf hg
    induction hws with
    | nil => rfl
    | cons hw _ ih => simp only [List.map_cons, h _ _ hw, ih]
  calc f (g ws.flatten)
      = f (ws.map g).flatten := by rw [hg.flatten_eq hws]
    _ = ((ws.map g).map f).flatten := hf.flatten_eq (hg.alternates hws)
    _ = ((ws.map f).map g).flatten := by rw [hmaps]
    _ = g (ws.map f).flatten := (hg.flatten_eq (hf.alternates hws)).symm
    _ = g (f ws.flatten) := by rw [hf.flatten_eq hws]

end Stretchwise

end Text

open Text

/-! ## Strict comparisons -/

/-- A word has no comparison in it. -/
theorem strictChars_word {w : List Char} (h : ∀ c ∈ w, isWord c = true) :
    strictChars w = w := by
  have hnot : ∀ c, isWord c = false → c ∉ w := by
    intro c hc hmem
    rw [h c hmem] at hc
    cases hc
  exact strictChars_of_notMem (hnot '=' (by decide)) (hnot '!' (by decide))

theorem stretchwise_strictChars : Stretchwise strictChars where
  nil := rfl
  split u v hboundary := by
    refine strictChars_append fun hhead => ?_
    -- What starts with `=` is no word, so there is a word before it.
    have hlast : u.getLast?.any isWord = true := by
      have hequals : isWord '=' = false := by decide
      simpa [boundary, hhead, hequals] using hboundary
    constructor <;> intro h <;> rw [h] at hlast <;> exact absurd hlast (by decide)
  keep word w hw := by
    refine ⟨fun hnil => hw.1 ?_, fun c hc => hw.2 c (mem_strictChars.mp hc)⟩
    rw [← List.head?_eq_none_iff, ← head?_strictChars, hnil]
    rfl

namespace Replacement

variable {r : Replacement} {before : Option Char} {u w cs : List Char}

/-! ## Replaced words -/

/-- Words are replaced by words. -/
def MapsWords (r : Replacement) : Prop :=
  ∀ old new, r.new? old = some new → IsRun old.toList ∧ IsRun new.toList

instance (r : Replacement) : Decidable r.MapsWords :=
  decidable_of_iff (∀ p ∈ r.pairs, IsRun p.1.toList ∧
      ∀ new ∈ r.new? p.1, IsRun new.toList) <| by
    constructor
    · intro h old new hnew
      obtain ⟨p, hp, rfl⟩ := isSome_new?_iff.mp (Option.isSome_of_eq_some hnew)
      exact ⟨(h p hp).1, (h p hp).2 new hnew⟩
    · intro h p hp
      obtain ⟨new, hnew⟩ := Option.isSome_iff_exists.mp (isSome_new?_iff.mpr ⟨p, hp, rfl⟩)
      exact ⟨(h p.1 new hnew).1, fun new' hnew' => (h p.1 new' hnew').2⟩

theorem MapsWords.oldWords (hr : r.MapsWords) : r.OldWords := by
  intro old hold
  obtain ⟨new, hnew⟩ := Option.isSome_iff_exists.mp hold
  exact (hr old new hnew).1

/-- Texts may be put together where no word is divided. -/
theorem scan_append (hr : r.OldWords)
    (hseam : u.getLast?.any isWord = true → cs.head?.any isWord = false) :
    r.scan none 0 (u ++ cs) = r.scan none 0 u ++ r.scan none 0 cs := by
  obtain ⟨ps, rfl, hps, hpschain⟩ := exists_pieces u
  obtain ⟨qs, rfl, hqs, hqschain⟩ := exists_pieces cs
  have hchain : (ps ++ qs).IsChain fun p q => ¬(IsRun p ∧ IsRun q) := by
    refine List.isChain_append.mpr ⟨hpschain, hqschain, ?_⟩
    rintro p hp q hq ⟨hprun, hqrun⟩
    obtain ⟨ps, rfl⟩ := List.getLast?_eq_some_iff.mp hp
    obtain ⟨qs, rfl⟩ := List.head?_eq_some_iff.mp hq
    obtain ⟨c, q, rfl⟩ := List.exists_cons_of_ne_nil hqrun.1
    have hlast : (ps ++ [p]).flatten.getLast?.any isWord = true := by
      rw [List.flatten_append, List.flatten_singleton, List.getLast?_append]
      exact hprun.getLast_isWord _
    have hhead := hqrun.2 c List.mem_cons_self
    have := hseam hlast
    simp [hhead] at this
  rw [← List.flatten_append,
    scan_pieces hr (List.forall_mem_append.mpr ⟨hps, hqs⟩) hchain fun _ _ _ => rfl,
    scan_pieces hr hps hpschain fun _ _ _ => rfl, scan_pieces hr hqs hqschain fun _ _ _ => rfl,
    List.flatMap_append]

/-- What stands between words is kept. -/
theorem scan_gap (hr : r.OldWords) (hw : ∀ c ∈ w, isWord c = false) :
    r.scan before 0 w = w := by
  induction w generalizing before with
  | nil => rw [scan, matchAt?_other hr rfl]
  | cons c w ih =>
    obtain ⟨hc, hw⟩ := List.forall_mem_cons.mp hw
    rw [scan, matchAt?_other hr (by simpa using hc)]
    exact congrArg (c :: ·) (ih hw)

theorem scan_word (hr : r.OldWords) (hw : IsRun w) : r.scan none 0 w = r.lookUp w := by
  have hrun : r.scan none 0 (w ++ []) = r.lookUp w ++ r.scan w.getLast? 0 [] :=
    scan_run hr hw rfl rfl
  have hrest : r.scan w.getLast? 0 [] = [] := scan_gap hr nofun
  rwa [hrest, List.append_nil, List.append_nil] at hrun

theorem MapsWords.isRun_lookUp (hr : r.MapsWords) (hw : IsRun w) : IsRun (r.lookUp w) := by
  unfold lookUp
  cases hnew : r.new? (String.ofList w) with
  | none => exact hw
  | some new => exact (hr _ new hnew).2

theorem stretchwise_scan (hr : r.MapsWords) : Stretchwise (r.scan none 0) where
  nil := scan_gap hr.oldWords nofun
  split u v hboundary := by
    refine scan_append hr.oldWords fun hlast => ?_
    simpa [boundary, hlast] using hboundary
  keep word w hw := by
    cases word with
    | true =>
      rw [scan_word hr.oldWords hw]
      exact hr.isRun_lookUp hw
    | false => rwa [scan_gap hr.oldWords hw.2]

/-- A replacement changes words, and strict comparisons change what stands between them. -/
theorem scan_strictChars (hr : r.MapsWords) (cs : List Char) :
    strictChars (r.scan none 0 cs) = r.scan none 0 (strictChars cs) := by
  refine stretchwise_strictChars.comm (stretchwise_scan hr) (fun word w hw => ?_) cs
  cases word with
  | true =>
    have hnew := (stretchwise_scan hr).keep true w hw
    rw [strictChars_word hw.2, strictChars_word hnew.2]
  | false =>
    have hnew := stretchwise_strictChars.keep false w hw
    rw [scan_gap hr.oldWords hw.2, scan_gap hr.oldWords hnew.2]

/-! ## Texts and bodies -/

theorem strictEquality_apply (hr : r.MapsWords) (s : String) :
    strictEquality (r.apply s) = r.apply (strictEquality s) := by
  apply String.toList_injective
  rw [toList_strictEquality, apply, apply, String.toList_ofList, String.toList_ofList,
    toList_strictEquality, scan_strictChars hr]

theorem apply_append (hr : r.OldWords) {s t : String}
    (hseam : s.toList.getLast?.any isWord = true → t.toList.head?.any isWord = false) :
    r.apply (s ++ t) = r.apply s ++ r.apply t := by
  rw [apply, apply, apply, ← String.ofList_append, String.toList_append, scan_append hr hseam]

/-- A line end is no part of a word. -/
theorem apply_line (hr : r.OldWords) (s : String) :
    r.apply (s ++ "\n") = r.apply s ++ "\n" := by
  have hgap : ∀ c ∈ "\n".toList, isWord c = false := by
    intro c hc
    rw [List.mem_singleton.mp hc]
    decide
  have hbreak : r.apply "\n" = "\n" := by rw [apply, scan_gap hr hgap, String.ofList_toList]
  rw [apply_append hr fun _ => by decide, hbreak]

/-- Lines may be taken one by one or all at once. -/
theorem apply_join (hr : r.OldWords) {ss : List String}
    (h : ∀ s ∈ ss, s.toList.getLast? = some '\n') :
    r.apply (String.join ss) = String.join (ss.map r.apply) := by
  induction ss with
  | nil => exact congrArg String.ofList (scan_gap (w := []) hr nofun)
  | cons s ss ih =>
    obtain ⟨hs, hss⟩ := List.forall_mem_cons.mp h
    have hword : s.toList.getLast?.any isWord = false := by
      rw [hs]
      decide
    rw [List.map_cons, String.join_cons, String.join_cons,
      apply_append hr fun hlast => absurd hlast (ne_true_of_eq_false hword), ih hss]

/-- **Words are replaced before comparisons are made strict or afterwards.**  For replacements
of words by words the text is the same, and so are the lines of a body: those of its replaced
statements are its own lines, each of them replaced or all at once. -/
theorem apply_strictEquality (hr : r.MapsWords) :
    (∀ s : String, strictEquality (r.apply s) = r.apply (strictEquality s)) ∧
      ∀ body : Option (List String),
        writeBody (body.map (·.map r.apply)) =
          String.join ((body.getD []).map fun s => r.apply (strictEquality (s ++ "\n"))) ∧
        writeBody (body.map (·.map r.apply)) = r.apply (writeBody body) := by
  refine ⟨strictEquality_apply hr, fun body => ?_⟩
  have hstatements : writeBody (body.map (·.map r.apply)) =
      String.join ((body.getD []).map fun s => r.apply (strictEquality (s ++ "\n"))) := by
    have hline :
        ∀ s, strictEquality (r.apply s ++ "\n") = r.apply (strictEquality (s ++ "\n")) := by
      intro s
      rw [← apply_line hr.oldWords, strictEquality_apply hr]
    cases body with
    | none => rfl
    | some ss =>
      rw [Option.map_some, writeBody, List.map_map]
      simp only [Function.comp_def, hline, Option.getD_some]
  refine ⟨hstatements, hstatements.trans ?_⟩
  have hlines : ∀ t ∈ (body.getD []).map fun s => strictEquality (s ++ "\n"),
      t.toList.getLast? = some '\n' := by
    intro t ht
    obtain ⟨s, -, rfl⟩ := List.mem_map.mp ht
    rw [toList_strictEquality, getLast?_strictChars, getLast?_line]
  have hwrite : writeBody body =
      String.join ((body.getD []).map fun s => strictEquality (s ++ "\n")) := by
    cases body <;> rfl
  rw [hwrite, apply_join hr.oldWords hlines, List.map_map]
  rfl

/-- A sign is given for a word, but a later pair gives a word for it. -/
theorem apply_strictEquality_mixed :
    MapsWords ⟨[("a", "="), ("b", "a"), ("a", "c2")]⟩ ∧
      strictEquality
        ((⟨[("a", "="), ("b", "a"), ("a", "c2")]⟩ : Replacement).apply "a==b!=ab===a") =
        (⟨[("a", "="), ("b", "a"), ("a", "c2")]⟩ : Replacement).apply
        (strictEquality "a==b!=ab===a") ∧
      writeBody (some (["a!=b", "=a"].map
          (⟨[("a", "="), ("b", "a"), ("a", "c2")]⟩ : Replacement).apply)) = "c2!==a\n=c2\n" ∧
      writeBody (some (["a!=b", "=a"].map
          (⟨[("a", "="), ("b", "a"), ("a", "c2")]⟩ : Replacement).apply)) =
        (⟨[("a", "="), ("b", "a"), ("a", "c2")]⟩ : Replacement).apply
          (writeBody (some ["a!=b", "=a"])) := by
  have hwords : MapsWords ⟨[("a", "="), ("b", "a"), ("a", "c2")]⟩ := by decide +kernel
  obtain ⟨htext, hbody⟩ := apply_strictEquality hwords
  exact ⟨hwords, htext _, by decide +kernel, (hbody (some ["a!=b", "=a"])).2⟩

end Replacement

end SharpScript
