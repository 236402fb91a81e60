import Mathlib.Data.List.SplitBy
import SharpScript.Script.Replacement

/-! # What a replacement does to a text

A replacement is written as pairs in some order, and it is applied by a search from left to
right.  Neither shows in the result.  Of the pairs only the map counts that they stand for, and
where all old words are words, the text is that of its words and other characters, with each
word looked up in the map.

## Main Definitions

* `Replacement.new?`: the map that the pairs stand for;
* `Replacement.Best`: the old word that is replaced at a place, in terms of this map;
* `Text.IsPieces`, `Text.pieces`: the longest words of a text and the characters between them.

## Main Results

* `Replacement.best?_eq_some_iff`: the search finds the old word that `Replacement.Best`
  describes, of which there is at most one;
* `Replacement.apply_sameMap`: **pairs that stand for the same map change every text alike**;
* `Replacement.scan_run`, `Replacement.scan_pieces`: a word is looked up as a whole, and so
  are the words of a text;
* `Replacement.apply_pieces`: **whole words are replaced, all at once**.
-/

namespace SharpScript

/-! ## Words and other characters -/

namespace Text

/-- One word character or more. -/
def IsRun (w : List Char) : Prop := w ≠ [] ∧ ∀ c ∈ w, isWord c = true

instance (w : List Char) : Decidable (IsRun w) :=
  decidable_of_iff ((!w.isEmpty && w.all isWord) = true) (by simp [IsRun])

/-- A character that is no word character. -/
def IsOther (w : List Char) : Prop := ∃ c, w = [c] ∧ isWord c = false

/-- The text consists of words and of single characters that are no word characters.  A word is
as long as can be: no other word stands behind it. -/
structure IsPieces (s : String) (ps : List String) : Prop where
  join : String.join ps = s
  piece : ∀ p ∈ ps, IsRun p.toList ∨ IsOther p.toList
  longest : ps.IsChain fun p q => ¬(IsRun p.toList ∧ IsRun q.toList)

/-- The words of a text and the characters between them. -/
def pieces (s : String) : List String :=
  (s.toList.splitBy fun a b => isWord a && isWord b).map String.ofList

theorem IsRun.getLast_isWord {w : List Char} (h : IsRun w) (before : Option Char) :
    (w.getLast?.or before).any isWord = true := by
  rw [List.getLast?_eq_some_getLast h.1]
  exact h.2 _ (List.getLast_mem h.1)

/-- What is split off is a word or another character. -/
theorem isRun_or_isOther {w : List Char} (hw : w ≠ [])
    (hchain : w.IsChain fun a b => (isWord a && isWord b) = true) : IsRun w ∨ IsOther w := by
  induction w with
  | nil => exact absurd rfl hw
  | cons a w ih =>
    cases w with
    | nil =>
      cases ha : isWord a with
      | true => exact .inl ⟨hw, by simpa using ha⟩
      | false => exact .inr ⟨a, rfl, ha⟩
    | cons b w =>
      obtain ⟨hab, htail⟩ := List.isChain_cons_cons.mp hchain
      obtain ⟨ha, hb⟩ := Bool.and_eq_true_iff.mp hab
      rcases ih (List.cons_ne_nil _ _) htail with hrun | ⟨c, hc, hother⟩
      · exact .inl ⟨hw, List.forall_mem_cons.mpr ⟨ha, hrun.2⟩⟩
      · obtain ⟨rfl, -⟩ := List.cons.inj hc
        rw [hother] at hb
        cases hb

theorem isPieces_pieces (s : String) : IsPieces s (pieces s) where
  join := by
    apply String.toList_injective
    rw [pieces, String.toList_join, List.flatMap_def, List.map_map]
    have hid : String.toList ∘ String.ofList = id := funext fun _ => String.toList_ofList
    rw [hid, List.map_id, List.flatten_splitBy]
  piece := by
    intro p hp
    obtain ⟨w, hw, rfl⟩ := List.mem_map.mp hp
    rw [String.toList_ofList]
    exact isRun_or_isOther (List.ne_nil_of_mem_splitBy hw) (List.isChain_of_mem_splitBy hw)
  longest := by
    rw [pieces, List.isChain_map]
    refine (List.isChain_getLast_head_splitBy _ _).imp ?_
    rintro v w ⟨hv, hw, hsplit⟩ ⟨hvrun, hwrun⟩
    rw [String.toList_ofList] at hvrun hwrun
    rw [hvrun.2 _ (List.getLast_mem hv), hwrun.2 _ (List.head_mem hw)] at hsplit
    cases hsplit

end Text

namespace Replacement

open Text

/-! ## The map that the pairs stand for -/

/-- What replaces `old`.  The last pair for it counts. -/
def new? (r : Replacement) (old : String) : Option String := r.pairs.reverse.lookup old

theorem isSome_new?_iff {r : Replacement} {old : String} :
    (r.new? old).isSome = true ↔ ∃ p ∈ r.pairs, old = p.1 := by
  simp [new?, List.lookup_isSome_iff]

theorem new?_concat (ps : List (String × String)) (p : String × String) (old : String) :
    (⟨ps ++ [p]⟩ : Replacement).new? old =
      if old = p.1 then some p.2 else (⟨ps⟩ : Replacement).new? old := by
  obtain ⟨k, v⟩ := p
  simp only [new?, List.reverse_append, List.reverse_singleton, List.singleton_append,
    List.lookup_cons]
  by_cases h : old = k
  · rw [if_pos h, beq_iff_eq.mpr h]
  · rw [if_neg h, beq_false_of_ne h]

theorem best?_concat (ps : List (String × String)) (p : String × String) (before : Option Char)
    (cs : List Char) : (⟨ps ++ [p]⟩ : Replacement).best? before cs =
      if standsAt p.1.toList before cs then
        longer ((⟨ps⟩ : Replacement).best? before cs) (p.1.toList, p.2.toList)
      else (⟨ps⟩ : Replacement).best? before cs := by
  simp only [best?, List.map_append, List.map_singleton, List.filter_append, List.foldl_append]
  by_cases h : standsAt p.1.toList before cs <;> simp [h]

section Search

variable {r r' : Replacement} {before : Option Char} {cs : List Char}
  {m m' : List Char × List Char}

/-- The old word `m.1` is replaced by `m.2` at the head of `cs`: it stands there, and every
other old word that does is shorter. -/
structure Best (r : Replacement) (before : Option Char) (cs : List Char)
    (m : List Char × List Char) : Prop where
  new : r.new? (String.ofList m.1) = some (String.ofList m.2)
  stands : standsAt m.1 before cs = true
  longest : ∀ old, (r.new? old).isSome = true → standsAt old.toList before cs = true →
    old.toList.length ≤ m.1.length

theorem isPrefix_of_standsAt {old : List Char} (h : standsAt old before cs = true) :
    old <+: cs :=
  List.isPrefixOf_iff_prefix.mp (Bool.and_eq_true_iff.mp h).1

/-- Of the old words at a place, only one is longest. -/
theorem Best.unique (h : r.Best before cs m) (h' : r.Best before cs m') : m = m' := by
  have hlength : ∀ {m m'}, r.Best before cs m → r.Best before cs m' →
      m.1.length ≤ m'.1.length := by
    intro m m' h h'
    have := h'.longest (String.ofList m.1) (by rw [h.new]; rfl)
      (by rw [String.toList_ofList]; exact h.stands)
    rwa [String.toList_ofList] at this
  have hold : m.1 = m'.1 :=
    (List.prefix_of_prefix_length_le (isPrefix_of_standsAt h.stands)
      (isPrefix_of_standsAt h'.stands) (hlength h h')).eq_of_length (Nat.le_antisymm
      (hlength h h') (hlength h' h))
  have hnew : some (String.ofList m.2) = some (String.ofList m'.2) := by
    rw [← h.new, ← h'.new, hold]
  exact Prod.ext hold (String.ofList_injective (Option.some.inj hnew))

section Concat

variable {ps : List (String × String)} {p : String × String}

theorem isSome_new?_concat {old : String}
    (h : ((⟨ps ++ [p]⟩ : Replacement).new? old).isSome = true) :
    old = p.1 ∨ ((⟨ps⟩ : Replacement).new? old).isSome = true := by
  obtain ⟨q, hq, rfl⟩ := isSome_new?_iff.mp h
  rcases List.mem_append.mp hq with hq | hq
  · exact .inr (isSome_new?_iff.mpr ⟨q, hq, rfl⟩)
  · exact .inl (congrArg Prod.fst (List.mem_singleton.mp hq))

/-- The last pair is the one that counts if it stands here and no other old word that does is
longer. -/
theorem best_concat (hp : standsAt p.1.toList before cs = true)
    (h : ∀ old, ((⟨ps⟩ : Replacement).new? old).isSome = true →
      standsAt old.toList before cs = true → old.toList.length ≤ p.1.toList.length) :
    (⟨ps ++ [p]⟩ : Replacement).Best before cs (p.1.toList, p.2.toList) where
  new := by rw [new?_concat, String.ofList_toList, if_pos rfl, String.ofList_toList]
  stands := hp
  longest := by
    intro old hold hstands
    obtain rfl | hold := isSome_new?_concat hold
    · exact le_refl _
    · exact h old hold hstands

/-- A further pair makes no difference if it does not stand here, or is shorter. -/
theorem Best.concat (h : (⟨ps⟩ : Replacement).Best before cs m)
    (hp : standsAt p.1.toList before cs = true → p.1.toList.length < m.1.length) :
    (⟨ps ++ [p]⟩ : Replacement).Best before cs m where
  new := by
    have hne : String.ofList m.1 ≠ p.1 := by
      intro heq
      have hold : p.1.toList = m.1 := by rw [← heq, String.toList_ofList]
      rw [hold] at hp
      exact absurd (hp h.stands) (lt_irrefl _)
    rw [new?_concat, if_neg hne]
    exact h.new
  stands := h.stands
  longest := by
    intro old hold hstands
    obtain rfl | hold := isSome_new?_concat hold
    · exact (hp hstands).le
    · exact h.longest old hold hstands

end Concat

/-- The search finds the old word that is replaced, or there is none. -/
theorem best?_spec (r : Replacement) (before : Option Char) (cs : List Char) :
    (r.best? before cs).elim
      (∀ old, (r.new? old).isSome = true → standsAt old.toList before cs = false)
      (r.Best before cs) := by
  obtain ⟨ps⟩ := r
  induction ps using List.reverseRecOn with
  | nil =>
    intro old hold
    cases hold
  | append_singleton ps p ih =>
    rw [best?_concat]
    cases hbest : (⟨ps⟩ : Replacement).best? before cs with
    | none =>
      rw [hbest] at ih
      split
      · rename_i hstands
        refine best_concat hstands fun old hold hold' => ?_
        rw [ih old hold] at hold'
        cases hold'
      · rename_i hstands
        intro old hold
        obtain rfl | hold := isSome_new?_concat hold
        · exact eq_false_of_ne_true hstands
        · exact ih old hold
    | some m =>
      rw [hbest] at ih
      split
      · rename_i hstands
        rw [longer]
        split
        · rename_i hle
          exact best_concat hstands fun old hold hold' => (ih.longest old hold hold').trans hle
        · rename_i hlt
          exact Best.concat ih fun _ => Nat.lt_of_not_le hlt
      · rename_i hstands
        exact Best.concat ih fun h => absurd h hstands

theorem best?_eq_some_iff : r.best? before cs = some m ↔ r.Best before cs m := by
  have hspec := r.best?_spec before cs
  constructor
  · intro h
    rw [h] at hspec
    exact hspec
  · intro h
    cases hbest : r.best? before cs with
    | none =>
      rw [hbest] at hspec
      have hnot := hspec (String.ofList m.1) (by rw [h.new]; rfl)
      rw [String.toList_ofList, h.stands] at hnot
      cases hnot
    | some m' =>
      rw [hbest] at hspec
      rw [Best.unique hspec h]

theorem best?_eq_none
    (h : ∀ old, (r.new? old).isSome = true → standsAt old.toList before cs = false) :
    r.best? before cs = none := by
  cases hbest : r.best? before cs with
  | none => rfl
  | some m =>
    have hm := best?_eq_some_iff.mp hbest
    have hnot := h (String.ofList m.1) (by rw [hm.new]; rfl)
    rw [String.toList_ofList, hm.stands] at hnot
    cases hnot

/-! ## The order of the pairs -/

/-- The pairs stand for the same map. -/
def SameMap (r r' : Replacement) : Prop := ∀ old, r.new? old = r'.new? old

theorem SameMap.best (h : SameMap r r') (hbest : r.Best before cs m) :
    r'.Best before cs m where
  new := by rw [← h, hbest.new]
  stands := hbest.stands
  longest old hold := hbest.longest old (by rwa [h old])

theorem SameMap.symm (h : SameMap r r') : SameMap r' r := fun old => (h old).symm

theorem SameMap.matchAt?_eq (h : SameMap r r') (before : Option Char) (cs : List Char) :
    r.matchAt? before cs = r'.matchAt? before cs := by
  have hbest : r.best? before cs = r'.best? before cs := by
    ext m
    rw [best?_eq_some_iff, best?_eq_some_iff]
    exact ⟨h.best, h.symm.best⟩
  rw [matchAt?, matchAt?, hbest]

theorem SameMap.scan_eq (h : SameMap r r') (before : Option Char) (skip : Nat)
    (cs : List Char) :
    r.scan before skip cs = r'.scan before skip cs := by
  induction cs generalizing before skip with
  | nil => rw [scan, scan, h.matchAt?_eq]
  | cons c cs ih =>
    cases skip with
    | succ skip => exact ih (some c) skip
    | zero =>
      rw [scan, scan, h.matchAt?_eq]
      simp only [ih]

end Search

/-- **Pairs that stand for the same map change every text alike**, whatever their old words are
and in whatever order they are given. -/
theorem apply_sameMap {r r' : Replacement} (h : SameMap r r') (s : String) :
    r.apply s = r'.apply s := by
  rw [apply, apply, h.scan_eq]

/-- An old word that is given twice, an empty one and one that is no word. -/
theorem apply_sameMap_mixed :
    SameMap ⟨[("a", "x"), ("", "-"), ("a.", "y"), ("a", "z")]⟩
      ⟨[("a.", "y"), ("a", "z"), ("", "-")]⟩ ∧
        (⟨[("a", "x"), ("", "-"), ("a.", "y"), ("a", "z")]⟩ : Replacement).apply "a.b, a ba" =
        (⟨[("a.", "y"), ("a", "z"), ("", "-")]⟩ : Replacement).apply "a.b, a ba" := by
  have hsame : SameMap ⟨[("a", "x"), ("", "-"), ("a.", "y"), ("a", "z")]⟩
      ⟨[("a.", "y"), ("a", "z"), ("", "-")]⟩ := by
    intro old
    simp only [new?, List.reverse_cons, List.reverse_nil, List.nil_append, List.cons_append,
      List.lookup_cons]
    by_cases ha : old = "a"
    · subst ha
      rfl
    · rw [beq_false_of_ne ha]
      by_cases hempty : old = ""
      · subst hempty
        rfl
      · rw [beq_false_of_ne hempty]
  exact ⟨hsame, apply_sameMap hsame _⟩

/-! ## Whole words -/

section Words

variable {r : Replacement} {before : Option Char} {cs v w : List Char} {c : Char}

/-- All old words are words. -/
def OldWords (r : Replacement) : Prop := ∀ old, (r.new? old).isSome = true → IsRun old.toList

/-- A word with its replacement looked up. -/
def lookUp (r : Replacement) (w : List Char) : List Char :=
  ((r.new? (String.ofList w)).map String.toList).getD w

/-- A word that stands where another one does, of which no word character
follows, is that one. -/
theorem eq_of_standsAt (hv : IsRun v) (hw : IsRun w) (hcs : cs.head?.any isWord = false)
    (h : standsAt v before (w ++ cs) = true) : v = w := by
  obtain ⟨hhead, hboundary⟩ := Bool.and_eq_true_iff.mp h
  obtain ⟨rest, hrest⟩ := List.isPrefixOf_iff_prefix.mp hhead
  rw [← hrest, List.drop_left, boundary, hv.getLast_isWord] at hboundary
  rcases List.append_eq_append_iff.mp hrest with ⟨us, rfl, rfl⟩ | ⟨us, rfl, rfl⟩
  · -- The word goes on behind `v`, where there is no boundary then.
    cases us with
    | nil => exact (List.append_nil v).symm
    | cons u us =>
      have hu : isWord u = true := hw.2 u (List.mem_append_right v List.mem_cons_self)
      simp [hu] at hboundary
  · cases us with
    | nil => exact List.append_nil w
    | cons u us =>
      have hu : isWord u = true := hv.2 u (List.mem_append_right w List.mem_cons_self)
      simp [hu] at hcs

/-- A word is looked up as a whole. -/
theorem best?_run (hr : r.OldWords) (hw : IsRun w) (hcs : cs.head?.any isWord = false) :
    r.best? before (w ++ cs) = (r.new? (String.ofList w)).map fun new => (w, new.toList) := by
  cases hnew : r.new? (String.ofList w) with
  | none =>
    refine best?_eq_none fun old hold => eq_false_of_ne_true fun hstands => ?_
    rw [← eq_of_standsAt (hr old hold) hw hcs hstands, String.ofList_toList] at hnew
    rw [hnew] at hold
    cases hold
  | some new =>
    refine best?_eq_some_iff.mpr
      ⟨by rw [hnew, String.ofList_toList], ?_, fun old hold hstands => ?_⟩
    · have hhead : w.isPrefixOf (w ++ cs) = true :=
        List.isPrefixOf_iff_prefix.mpr (List.prefix_append w cs)
      rw [standsAt, hhead, List.drop_left, boundary, hw.getLast_isWord, hcs]
      rfl
    · exact (congrArg List.length (eq_of_standsAt (hr old hold) hw hcs hstands)).le

/-- Nothing is replaced where no word starts. -/
theorem matchAt?_other (hr : r.OldWords) (hcs : cs.head?.any isWord = false) :
    r.matchAt? before cs = none := by
  have hbest : r.best? before cs = none := by
    refine best?_eq_none fun old hold => eq_false_of_ne_true fun hstands => ?_
    obtain ⟨rest, rfl⟩ := isPrefix_of_standsAt hstands
    obtain ⟨hne, hword⟩ := hr old hold
    obtain ⟨u, us, hus⟩ := List.exists_cons_of_ne_nil hne
    rw [hus] at hcs hword
    simp [hword u List.mem_cons_self] at hcs
  rw [matchAt?, hbest, ite_self]

/-- Nothing is replaced inside a word. -/
theorem matchAt?_inside (hbefore : before.any isWord = true) (hc : isWord c = true) :
    r.matchAt? before (c :: cs) = none := by
  have hboundary : boundary before (c :: cs).head? = false := by
    simp [boundary, hbefore, hc]
  rw [matchAt?, if_neg (ne_true_of_eq_false hboundary)]

/-- What has been replaced is passed over. -/
theorem scan_skip (r : Replacement) (before : Option Char) (w cs : List Char) :
    r.scan before w.length (w ++ cs) = r.scan (w.getLast?.or before) 0 cs := by
  induction w generalizing before with
  | nil => rfl
  | cons c w ih =>
    rw [List.length_cons, List.cons_append, scan, ih, List.getLast?_cons]
    cases w.getLast? <;> rfl

/-- Inside a word, characters are kept. -/
theorem scan_inside (hbefore : before.any isWord = true) (hw : ∀ c ∈ w, isWord c = true) :
    r.scan before 0 (w ++ cs) = w ++ r.scan (w.getLast?.or before) 0 cs := by
  induction w generalizing before with
  | nil => rfl
  | cons c w ih =>
    obtain ⟨hc, hw⟩ := List.forall_mem_cons.mp hw
    rw [List.cons_append, scan, matchAt?_inside hbefore hc]
    dsimp only
    have hrest : r.scan (some c) 0 (w ++ cs) = w ++ r.scan (w.getLast?.or (some c)) 0 cs :=
      ih hc hw
    rw [hrest, List.getLast?_cons]
    cases w.getLast? <;> rfl

/-- A word is replaced by what it is looked up as. -/
theorem scan_run (hr : r.OldWords) (hw : IsRun w) (hbefore : before.any isWord = false)
    (hcs : cs.head?.any isWord = false) :
    r.scan before 0 (w ++ cs) = r.lookUp w ++ r.scan w.getLast? 0 cs := by
  have hmatch : r.matchAt? before (w ++ cs) =
      (r.new? (String.ofList w)).map fun new => (w, new.toList) := by
    have hboundary : boundary before (w ++ cs).head? = true := by
      obtain ⟨u, us, rfl⟩ := List.exists_cons_of_ne_nil hw.1
      simp [boundary, hbefore, hw.2 u List.mem_cons_self]
    rw [matchAt?, if_pos hboundary, best?_run hr hw hcs]
  obtain ⟨u, us, rfl⟩ := List.exists_cons_of_ne_nil hw.1
  have hlast : us.getLast?.or (some u) = (u :: us).getLast? := by
    rw [List.getLast?_cons]
    cases us.getLast? <;> rfl
  rw [List.cons_append] at hmatch ⊢
  rw [scan, hmatch, lookUp, ← hlast]
  cases r.new? (String.ofList (u :: us)) with
  | none =>
    obtain ⟨hu, hus⟩ := List.forall_mem_cons.mp hw.2
    exact congrArg (u :: ·) (scan_inside hu hus)
  | some new => exact congrArg (new.toList ++ ·) (scan_skip r (some u) us cs)

/-- The words of a text are looked up one by one. -/
theorem scan_pieces (hr : r.OldWords) {ps : List (List Char)}
    (hpiece : ∀ p ∈ ps, IsRun p ∨ IsOther p)
    (hlongest : ps.IsChain fun p q => ¬(IsRun p ∧ IsRun q))
    (hbefore : ∀ p ∈ ps.head?, IsRun p → before.any isWord = false) :
    r.scan before 0 ps.flatten = ps.flatMap r.lookUp := by
  induction ps generalizing before with
  | nil =>
    rw [List.flatten_nil, scan, matchAt?_other hr rfl]
    rfl
  | cons p ps ih =>
    obtain ⟨hp, hps⟩ := List.forall_mem_cons.mp hpiece
    have hnext : ∀ q ∈ ps.head?, ¬(IsRun p ∧ IsRun q) := (List.isChain_cons.mp hlongest).1
    rw [List.flatten_cons, List.flatMap_cons]
    rcases hp with hrun | ⟨c, rfl, hc⟩
    · -- Behind a word comes another character, or nothing.
      have hcs : ps.flatten.head?.any isWord = false := by
        cases ps with
        | nil => rfl
        | cons q ps =>
          rcases hps q List.mem_cons_self with hq | ⟨c, rfl, hc⟩
          · exact absurd ⟨hrun, hq⟩ (hnext q rfl)
          · simpa using hc
      rw [scan_run hr hrun (hbefore p rfl hrun) hcs,
        ih hps hlongest.tail fun q hq hqrun => absurd ⟨hrun, hqrun⟩ (hnext q hq)]
    · have hkept : r.lookUp [c] = [c] := by
        cases hnew : r.new? (String.ofList [c]) with
        | none => rw [lookUp, hnew]; rfl
        | some new =>
          have hword := (hr (String.ofList [c]) (by rw [hnew]; rfl)).2 c (by simp)
          rw [hc] at hword
          cases hword
      rw [List.singleton_append, scan, matchAt?_other hr (by simpa using hc), hkept]
      exact congrArg (c :: ·) (ih hps hlongest.tail fun _ _ _ => hc)

end Words

/-- **Whole words are replaced, all at once.**  Where a map has words for its old words, a
replacement that stands for it, in whatever order it is written, looks each word of the text up
and keeps all other characters. -/
theorem apply_pieces {r : Replacement} {m : String → Option String}
    (hm : ∀ old, r.new? old = m old) (hwords : ∀ old, (m old).isSome = true → IsRun old.toList)
    (s : String) :
    IsPieces s (pieces s) ∧
      r.apply s = String.join ((pieces s).map fun w => (m w).getD w) := by
  have hpieces := isPieces_pieces s
  have hr : r.OldWords := fun old hold => hwords old (by rwa [← hm old])
  have htext : s.toList = ((pieces s).map String.toList).flatten := by
    rw [← List.flatMap_def, ← String.toList_join, hpieces.join]
  have hscan : r.scan none 0 s.toList = ((pieces s).map String.toList).flatMap r.lookUp := by
    rw [htext]
    refine scan_pieces hr (fun p hp => ?_) ?_ fun _ _ _ => rfl
    · obtain ⟨w, hw, rfl⟩ := List.mem_map.mp hp
      exact hpieces.piece w hw
    · rw [List.isChain_map]
      exact hpieces.longest
  have hlookUp : ∀ w : String, r.lookUp w.toList = ((m w).getD w).toList := by
    intro w
    rw [lookUp, String.ofList_toList, hm w]
    cases m w <;> rfl
  refine ⟨hpieces, String.toList_injective ?_⟩
  rw [apply, String.toList_ofList, hscan, String.toList_join, List.flatMap_map,
    List.flatMap_map]
  simp only [hlookUp]

/-- Old words that begin or end as others do, and a new word that is an old one. -/
theorem apply_pieces_overlap :
    (∀ old, ((⟨[("Foo", "Bar"), ("FooBar", ""), ("Bar", "Foo")]⟩ : Replacement).new?
        old).isSome = true → IsRun old.toList) ∧
      IsPieces "Foo+FooBar.Bar2 Bar" (pieces "Foo+FooBar.Bar2 Bar") ∧
      (⟨[("Foo", "Bar"), ("FooBar", ""), ("Bar", "Foo")]⟩ : Replacement).apply
        "Foo+FooBar.Bar2 Bar" = "Bar+.Bar2 Foo" := by
  have hwords : ∀ old, ((⟨[("Foo", "Bar"), ("FooBar", ""), ("Bar", "Foo")]⟩ : Replacement).new?
      old).isSome = true → IsRun old.toList := by
    intro old hold
    obtain ⟨p, hp, rfl⟩ := isSome_new?_iff.mp hold
    have hruns : ∀ p ∈ [("Foo", "Bar"), ("FooBar", ""), ("Bar", "Foo")], IsRun p.1.toList := by
      simp only [List.forall_mem_cons]
      exact ⟨by decide, by decide, by decide, nofun⟩
    exact hruns p hp
  obtain ⟨hpieces, happly⟩ := apply_pieces (fun _ => rfl) hwords "Foo+FooBar.Bar2 Bar"
  exact ⟨hwords, hpieces, happly.trans (by decide +kernel)⟩

end Replacement

end SharpScript
