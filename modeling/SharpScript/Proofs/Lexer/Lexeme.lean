import SharpScript.Proofs.Lexer.Cut
import SharpScript.Text.Trim
import SharpScript.Token.Display

/-! # What lexemes look like

A lexeme starts and ends with a character that is no blank of any kind, so trimming the
source text of some tokens changes nothing.  Its label and its characters determine the kind
and the text of a token.

## Main Definitions

* `LastIn`: what the last character counted by a length satisfies;
* `Shape`, `Solid`: what a lexeme of each kind looks like, and texts
  without blanks at their ends.

## Main Results

* `Munch.shape`, `Shape.solid`: every lexeme has the shape of its kind, and its ends are solid;
* `trim_eq_self`: a text with solid ends is trimmed to itself;
* `WellShaped.eq_of_label`: a label and a lexeme determine the kind of a token and its text.
-/

namespace SharpScript.Lexer

open Text (isDigit isLetter isSpace)

/-! ## The last character of a length -/

/-- The last character counted by the length `g` satisfies `p`. -/
def LastIn (p : Char → Prop) (g : List Char → Nat) : Prop :=
  ∀ cs, 0 < g cs → ∃ c, cs[g cs - 1]? = some c ∧ p c

/-- The last character is of a sort if it is of a smaller one. -/
theorem LastIn.mono {p q : Char → Prop} {g : List Char → Nat} (h : LastIn p g)
    (hpq : ∀ c, p c → q c) : LastIn q g := by
  intro cs hpos
  obtain ⟨c, hc, hp⟩ := h cs hpos
  exact ⟨c, hc, hpq c hp⟩

/-- The last character of a run is of the sort that is run over. -/
theorem lastIn_run (p : Char → Bool) : LastIn (fun c => p c = true) (run p) := by
  intro cs hpos
  have hlt : run p cs - 1 < (cs.takeWhile p).length := by
    unfold run at hpos ⊢
    omega
  refine ⟨(cs.takeWhile p)[run p cs - 1], ?_, List.mem_takeWhile_imp (List.getElem_mem hlt)⟩
  rw [(List.takeWhile_prefix p).getElem hlt]
  exact List.getElem?_eq_getElem _

/-- The last character of two lengths behind one another is that of the second one, if it is
not empty. -/
theorem LastIn.andThen {p : Char → Prop} {g h : List Char → Nat} (hg : LastIn p g)
    (hh : LastIn p h) : LastIn p (andThen g h) := by
  intro cs hpos
  unfold Lexer.andThen at hpos ⊢
  by_cases hzero : h (cs.drop (g cs)) = 0
  · rw [hzero] at hpos ⊢
    exact hg cs hpos
  · obtain ⟨c, hc, hp⟩ := hh (cs.drop (g cs)) (by omega)
    refine ⟨c, ?_, hp⟩
    rw [List.getElem?_drop] at hc
    rw [← hc]
    congr 1
    omega

/-- The last character of a run behind a fixed start. -/
theorem WordRun.lastIn {g : List Char → Nat} {p : Char → Prop} {f : Char → Bool}
    {Q : List Char → Prop} (hg : WordRun Q f g) (hQ : ∀ q, Q q → ∃ v c, q = v ++ [c] ∧ p c)
    (hf : ∀ c, f c = true → p c) : LastIn p g := by
  intro cs hpos
  by_cases hcs : ∃ q, Q q ∧ q <+: cs
  · obtain ⟨q, hq, r, rfl⟩ := hcs
    rw [hg.counts q r hq] at hpos ⊢
    by_cases hzero : run f r = 0
    · obtain ⟨v, c, rfl, hc⟩ := hQ q hq
      exact ⟨c, by simp [hzero], hc⟩
    · obtain ⟨c, hc, hp⟩ := lastIn_run f r (by omega)
      refine ⟨c, ?_, hf c hp⟩
      rw [List.getElem?_append_right (by omega), ← hc]
      congr 1
      omega
  · rw [hg.zero cs fun q hq h => hcs ⟨q, hq, h⟩] at hpos
    exact absurd hpos (Nat.lt_irrefl 0)

/-- The characters of numbers are those of words. -/
theorem isWordPart_of_isDigit {c : Char} (h : isDigit c = true) : isWordPart c = true := by
  simp [isWordPart, h]

theorem isWordPart_of_isDigitPart {c : Char} (h : isDigitPart c = true) :
    isWordPart c = true := by
  unfold isDigitPart at h
  rcases Bool.or_eq_true_iff.mp h with h | h
  · exact isWordPart_of_isDigit h
  · simp [isWordPart, isWordStart, h]

theorem isWordPart_of_isSuffix {c : Char} (h : isSuffix c = true) : isWordPart c = true := by
  have hall : (['l', 'L', 'u', 'U', 'f', 'F', 'd', 'D', 'm', 'M'].all isWordPart) = true := by
    decide +kernel
  exact List.all_eq_true.mp hall c (by simpa [isSuffix] using h)

theorem lastIn_fractionLength : LastIn (fun c => isWordPart c = true) fractionLength := by
  refine fractionLength_wordRun.lastIn ?_ fun _ => isWordPart_of_isDigitPart
  rintro _ ⟨d, hd, rfl⟩
  exact ⟨['.'], d, rfl, isWordPart_of_isDigit hd⟩

theorem lastIn_exponentLength : LastIn (fun c => isWordPart c = true) exponentLength := by
  refine exponentLength_wordRun.lastIn ?_ fun _ => isWordPart_of_isDigit
  rintro _ ⟨e, d, -, hd, rfl | rfl | rfl⟩
  · exact ⟨[e], d, rfl, isWordPart_of_isDigit hd⟩
  · exact ⟨[e, '+'], d, rfl, isWordPart_of_isDigit hd⟩
  · exact ⟨[e, '-'], d, rfl, isWordPart_of_isDigit hd⟩

theorem lastIn_decimalLength : LastIn (fun c => isWordPart c = true) decimalLength :=
  (((lastIn_run isDigitPart).mono fun _ => isWordPart_of_isDigitPart).andThen
    lastIn_fractionLength).andThen lastIn_exponentLength |>.andThen
      ((lastIn_run isSuffix).mono fun _ => isWordPart_of_isSuffix)

/-- **A number ends with a character of a word.** -/
theorem lastIn_numberLength : LastIn (fun c => isWordPart c = true) numberLength := by
  intro cs hpos
  by_cases hcs : ∃ b, isBase b = true ∧ ['0', b] <+: cs
  · obtain ⟨b, hb, ds, rfl⟩ := hcs
    have hbase : (['x', 'X', 'b', 'B'].all isWordPart) = true := by decide +kernel
    rw [List.cons_append, List.singleton_append, numberLength_of_base hb] at hpos ⊢
    by_cases hzero : run isWordPart ds = 0
    · exact ⟨b, by simp [hzero], List.all_eq_true.mp hbase b (by simpa [isBase] using hb)⟩
    · obtain ⟨c, hc, hp⟩ := lastIn_run isWordPart ds (by omega)
      refine ⟨c, ?_, hp⟩
      have hsub : 2 + run isWordPart ds - 1 = run isWordPart ds - 1 + 2 := by omega
      rw [hsub, List.getElem?_cons_succ, List.getElem?_cons_succ, hc]
  · rw [numberLength_of_not_base fun b hb h => hcs ⟨b, hb, h⟩] at hpos ⊢
    exact lastIn_decimalLength cs hpos

/-! ## The last character of a literal -/

/-- A literal ends with its quote. -/
theorem quotedRest_last {q : Char} {cs : List Char} {n : Nat} (h : quotedRest q cs = some n) :
    cs[n - 1]? = some q := by
  fun_induction quotedRest q cs generalizing n with
  | case1 => cases h
  | case2 d cs ih =>
    obtain ⟨m, hm, rfl⟩ := Option.map_eq_some_iff.mp h
    have := quotedRest_pos hm
    rw [show m + 2 - 1 = m - 1 + 2 by omega]
    exact ih hm
  | case3 => cases h
  | case4 c cs _ _ hq =>
    cases h
    simpa using hq
  | case5 c cs _ _ hq ih =>
    obtain ⟨m, hm, rfl⟩ := Option.map_eq_some_iff.mp h
    have := quotedRest_pos hm
    rw [show m + 1 - 1 = m - 1 + 1 by omega]
    exact ih hm

theorem verbatimRest_last {cs : List Char} {n : Nat} (h : verbatimRest cs = some n) :
    cs[n - 1]? = some '"' := by
  fun_induction verbatimRest cs generalizing n with
  | case1 => cases h
  | case2 cs ih =>
    obtain ⟨m, hm, rfl⟩ := Option.map_eq_some_iff.mp h
    have := verbatimRest_pos hm
    rw [show m + 2 - 1 = m - 1 + 2 by omega]
    exact ih hm
  | case3 =>
    cases h
    rfl
  | case4 c cs _ _ ih =>
    obtain ⟨m, hm, rfl⟩ := Option.map_eq_some_iff.mp h
    have := verbatimRest_pos hm
    rw [show m + 1 - 1 = m - 1 + 1 by omega]
    exact ih hm

theorem rawRest_last {k : Nat} (hk : 0 < k) {cs : List Char} {n : Nat}
    (h : rawRest k cs = some n) : cs[n - 1]? = some '"' := by
  fun_induction rawRest k cs generalizing n with
  | case1 => cases h
  | case2 c cs hpre =>
    cases h
    obtain ⟨r, hr⟩ := List.isPrefixOf_iff_prefix.mp hpre
    rw [← hr, List.getElem?_append_left (by rw [List.length_replicate]; omega)]
    exact List.getElem?_replicate_of_lt (by omega)
  | case3 c cs _ ih =>
    obtain ⟨m, hm, rfl⟩ := Option.map_eq_some_iff.mp h
    have := rawRest_pos hk hm
    rw [show m + 1 - 1 = m - 1 + 1 by omega]
    exact ih hm

theorem interpolatedRest_last {v : Bool} {depth skip n m : Nat} {cs : List Char}
    (h : interpolatedRest v depth skip n cs = .ok m) : cs[m - n - 1]? = some '"' := by
  have hnext : ∀ {depth skip n : Nat} {c : Char} {cs : List Char},
      interpolatedRest v depth skip (n + 1) cs = .ok m → cs[m - (n + 1) - 1]? = some '"' →
      (c :: cs)[m - n - 1]? = some '"' := by
    intro depth skip n c cs h hlast
    have := lt_interpolatedRest h
    rw [show m - n - 1 = m - (n + 1) - 1 + 1 by omega]
    exact hlast
  fun_induction interpolatedRest v depth skip n cs <;> grind

/-- **A string ends with a quote**, whatever its form is. -/
theorem stringRest_last {marks rest : List Char} {n : Nat}
    (h : stringRest marks rest = .ok n) :
    (marks ++ '"' :: rest)[n - 1]? = some '"' := by
  have hlt := lt_stringRest h
  have hinside : ∀ m, rest[m]? = some '"' → n - 1 = marks.length + 1 + m →
      (marks ++ '"' :: rest)[n - 1]? = some '"' := by
    intro m hm hn
    rw [hn, List.getElem?_append_right (by omega),
      show marks.length + 1 + m - marks.length = m + 1 by omega]
    exact hm
  unfold stringRest at h
  split at h
  · split at h
    · rename_i m hm
      have hpos := rawRest_pos (by omega) hm
      have hlast := rawRest_last (by omega) hm
      rw [List.getElem?_drop] at hlast
      cases h
      exact hinside _ hlast (by omega)
    · cases h
  · split at h
    · exact hinside _ (interpolatedRest_last h) (by omega)
    · split at h
      · rename_i m hm
        cases h
        split at hm
        · have hpos := verbatimRest_pos hm
          exact hinside _ (verbatimRest_last hm) (by omega)
        · have hpos := quotedRest_pos hm
          exact hinside _ (quotedRest_last hm) (by omega)
      · cases h

/-! ## The shapes of lexemes -/

/-- A character that is blank for no one. -/
def IsSolid (c : Char) : Prop := isSpace c = false

/-- The text `w` starts and ends with solid characters. -/
def Solid (w : List Char) : Prop :=
  (∃ c, w.head? = some c ∧ IsSolid c) ∧ ∃ c, w.getLast? = some c ∧ IsSolid c

/-- What a lexeme of each kind looks like. -/
inductive Shape : Kind → List Char → Prop
  | literal {k : Kind} {w : List Char} (hk : k.isLiteral = true) (hw : Solid w) : Shape k w
  | word {c : Char} {v : List Char} (hc : isWordStart c = true)
      (hv : ∀ d ∈ v, isWordPart d = true) : Shape (wordKind (c :: v)) (c :: v)
  | escaped {c : Char} {v : List Char} (hc : isWordStart c = true)
      (hv : ∀ d ∈ v, isWordPart d = true) : Shape (.identifier true) ('@' :: c :: v)
  | operator {op : String} (hop : op ∈ operators) : Shape .operator op.toList

/-- The last character of a lexeme, by its place in the text. -/
theorem getLast?_of_getElem? {w r : List Char} {c : Char} (hw : w ≠ [])
    (h : (w ++ r)[w.length - 1]? = some c) : w.getLast? = some c := by
  have hpos := List.length_pos_of_ne_nil hw
  rwa [List.getElem?_append_left (by omega), ← List.getLast?_eq_getElem?] at h

/-- A set of characters is a list of codes, so that a property of all of them can be computed.
-/
theorem codes_of_has {s : Text.CharSet} {c : Char} (h : s.has c = true) :
    c.toNat ∈ s.ranges.flatMap fun r => List.range' r.1 (r.2 + 1 - r.1) := by
  obtain ⟨r, hr, hlow, hhigh⟩ := (s.has_iff c).mp h
  refine List.mem_flatMap.mpr ⟨r, hr, List.mem_range'_1.mpr ⟨hlow, by omega⟩⟩

/-- No character of a word is a blank. -/
theorem isSolid_of_isWordPart {c : Char} (h : isWordPart c = true) : IsSolid c := by
  have hcodes : ∀ n ∈ Text.spaces.ranges.flatMap fun r => List.range' r.1 (r.2 + 1 - r.1),
      isWordPart (Char.ofNat n) = false := by decide +kernel
  by_contra hc
  have hmem := codes_of_has (Bool.not_eq_false _ ▸ hc : isSpace c = true)
  rw [← Char.ofNat_toNat c, hcodes _ hmem] at h
  cases h

theorem isSolid_of_isMark {c : Char} (h : isMark c = true) : IsSolid c := by
  unfold isMark at h
  rcases Bool.or_eq_true_iff.mp h with h | h <;> rw [beq_iff_eq.mp h] <;> rfl

/-- A string begins with a mark or a quote and ends with a quote. -/
theorem solid_string {w r : List Char} (hs : startsString (w ++ r) = true)
    (h : stringLength (w ++ r) = .ok w.length) : Solid w := by
  obtain ⟨marks, rest, heq, hmarks, -⟩ := startsString_iff.mp hs
  rw [heq, stringLength_eq hmarks] at h
  have hlt := lt_stringRest h
  have hw : w ≠ [] := List.ne_nil_of_length_pos (by omega)
  refine ⟨?_, '"', getLast?_of_getElem? hw (heq ▸ stringRest_last h), rfl⟩
  obtain ⟨c, v, rfl⟩ := List.exists_cons_of_ne_nil hw
  refine ⟨c, rfl, ?_⟩
  cases marks with
  | nil =>
    obtain rfl : c = '"' := (List.cons.inj heq).1
    rfl
  | cons d marks =>
    obtain rfl : c = d := (List.cons.inj heq).1
    exact isSolid_of_isMark (hmarks c List.mem_cons_self)

/-- A character literal has a quote at both ends. -/
theorem solid_character {v r : List Char} (h : characterLength (v ++ r) = .ok (v.length + 1)) :
    Solid ('\'' :: v) := by
  unfold characterLength at h
  split at h
  · rename_i n hn
    have hpos := quotedRest_pos hn
    have hlen : 1 + n = v.length + 1 := by simpa using h
    refine ⟨⟨_, rfl, rfl⟩, '\'', ?_, rfl⟩
    refine getLast?_of_getElem? (r := r) (List.cons_ne_nil _ _) ?_
    rw [List.length_cons, show v.length + 1 - 1 = n - 1 + 1 by omega]
    exact quotedRest_last hn
  · cases h

/-- A number begins with a digit or a point and ends with a character of a word. -/
theorem solid_number {w r : List Char} (hs : startsNumber (w ++ r) = true)
    (h : numberLength (w ++ r) = w.length) (hw : w ≠ []) : Solid w := by
  have hpos := List.length_pos_of_ne_nil hw
  obtain ⟨d, hd, hpart⟩ := lastIn_numberLength (w ++ r) (by omega)
  rw [h] at hd
  refine ⟨?_, d, getLast?_of_getElem? hw hd, isSolid_of_isWordPart hpart⟩
  obtain ⟨c, v, rfl⟩ := List.exists_cons_of_ne_nil hw
  refine ⟨c, rfl, ?_⟩
  rw [List.cons_append] at hs
  unfold startsNumber at hs
  split at hs
  · rename_i heq
    rw [(List.cons.inj heq).1]
    rfl
  · obtain ⟨d, ds, heq, hd⟩ := digitNext_iff.mp hs
    rw [(List.cons.inj heq).1]
    exact isSolid_of_isWordPart (isWordPart_of_isDigit hd)

/-- A run that is as long as a text has run over each character of it. -/
theorem run_eq_length {p : Char → Bool} {v r : List Char} (h : run p (v ++ r) = v.length) :
    ∀ d ∈ v, p d = true := by
  intro d hd
  rw [← takeWhile_of_run_eq h] at hd
  exact List.mem_takeWhile_imp hd

/-- A word, an escaped word, or an operator. -/
theorem shape_wordOrOperator {k : Kind} {c : Char} {v r : List Char}
    (h : wordOrOperator c (v ++ r) = .ok (.token k (v.length + 1))) : Shape k (c :: v) := by
  unfold wordOrOperator at h
  split at h
  · rename_i hc
    obtain ⟨rfl, hlen⟩ : wordKind ((c :: (v ++ r)).takeWhile isWordPart) = k ∧
        1 + run isWordPart (v ++ r) = v.length + 1 := by simpa using h
    have hrun : run isWordPart (v ++ r) = v.length := by omega
    have hpart : isWordPart c = true := by simp [isWordPart, hc]
    rw [List.takeWhile_cons_of_pos hpart, takeWhile_of_run_eq hrun]
    exact .word hc (run_eq_length hrun)
  · split at h
    · rename_i hat
      obtain ⟨rfl, hlen⟩ : Kind.identifier true = k ∧
          1 + run isWordPart (v ++ r) = v.length + 1 := by simpa using h
      have hrun : run isWordPart (v ++ r) = v.length := by omega
      rw [Bool.and_eq_true, beq_iff_eq, Option.any_eq_true] at hat
      obtain ⟨rfl, d, hd, hstart⟩ := hat
      cases v with
      | nil =>
        obtain ⟨s, rfl⟩ := List.head?_eq_some_iff.mp hd
        rw [List.nil_append, run_cons, if_pos (by simp [isWordPart, hstart])] at hrun
        cases hrun
      | cons e v =>
        obtain rfl : e = d := by simpa using hd
        exact .escaped hstart fun x hx => run_eq_length hrun x (List.mem_cons_of_mem _ hx)
    · split at h
      · rename_i n hn
        obtain ⟨rfl, rfl⟩ : Kind.operator = k ∧ n = v.length + 1 := by simpa using h
        obtain ⟨op, hop, hlen⟩ := Option.map_eq_some_iff.mp hn
        have hmem := List.mem_of_find?_eq_some hop
        have hpre := List.find?_some hop
        have hcount : op.toList.length = (c :: v).length := by
          rw [String.length_toList, hlen]; rfl
        have heq : op.toList = c :: v :=
          (List.prefix_of_prefix_length_le (List.isPrefixOf_iff_prefix.mp hpre)
            (List.prefix_append (c :: v) r) hcount.le).eq_of_length hcount
        rw [← heq]
        exact .operator hmem
      · cases h

/-- Every lexeme has the shape of its kind. -/
theorem Munch.shape {k : Kind} {w r : List Char} (h : Munch k w r) : Shape k w := by
  obtain ⟨c, v, rfl, hpiece⟩ := h
  obtain ⟨-, hhead⟩ := piece_eq_token_iff.mp (hpiece false)
  unfold tokenHead at hhead
  split at hhead
  · rename_i hs
    cases hlen : stringLength (c :: (v ++ r)) with
    | error snag => rw [hlen] at hhead; cases hhead
    | ok n =>
      rw [hlen] at hhead
      obtain ⟨rfl, rfl⟩ : Kind.string = k ∧ n = (c :: v).length := by simpa using hhead
      exact .literal rfl (solid_string hs hlen)
  · split at hhead
    · rename_i hc
      rw [beq_iff_eq.mp hc]
      cases hlen : characterLength (v ++ r) with
      | error snag => rw [hlen] at hhead; cases hhead
      | ok n =>
        rw [hlen] at hhead
        obtain ⟨rfl, rfl⟩ : Kind.character = k ∧ n = (c :: v).length := by simpa using hhead
        exact .literal rfl (solid_character hlen)
    · split at hhead
      · rename_i hs
        obtain ⟨rfl, hlen⟩ :
            Kind.number = k ∧ numberLength (c :: (v ++ r)) = (c :: v).length := by
          simpa [pure, Except.pure] using hhead
        exact .literal rfl (solid_number hs hlen (List.cons_ne_nil c v))
      · exact shape_wordOrOperator hhead

/-- **No lexeme begins or ends with a blank.** -/
theorem Shape.solid {k : Kind} {w : List Char} (h : Shape k w) : Solid w := by
  have hword : ∀ {c : Char} {v : List Char}, isWordStart c = true →
      (∀ d ∈ v, isWordPart d = true) → ∀ d ∈ c :: v, IsSolid d := by
    intro c v hc hv d hd
    apply isSolid_of_isWordPart
    rcases List.mem_cons.mp hd with rfl | hd
    · simp [isWordPart, hc]
    · exact hv d hd
  cases h with
  | literal _ hw => exact hw
  | word hc hv =>
    have hall := hword hc hv
    exact ⟨⟨_, rfl, hall _ List.mem_cons_self⟩, _, List.getLast?_eq_some_getLast (by simp),
      hall _ (List.getLast_mem _)⟩
  | escaped hc hv =>
    refine ⟨⟨_, rfl, rfl⟩, _, List.getLast?_eq_some_getLast (by simp), ?_⟩
    rw [List.getLast_cons (by simp)]
    exact hword hc hv _ (List.getLast_mem _)
  | operator hop =>
    have hall : ∀ op ∈ operators, op.toList.head?.any (fun c => !isSpace c) = true ∧
        op.toList.getLast?.any (fun c => !isSpace c) = true := by decide
    obtain ⟨hhead, hlast⟩ := hall _ hop
    simpa [Solid, IsSolid, Option.any_eq_true] using And.intro hhead hlast

/-! ## Trimming -/

/-- Nothing is trimmed off a text that ends with no blank. -/
theorem dropRight_of_solid {cs : List Char} {c : Char} (h : cs.getLast? = some c)
    (hc : IsSolid c) : Text.dropRight cs = cs := by
  induction cs with
  | nil => cases h
  | cons d cs ih =>
    cases cs with
    | nil =>
      obtain rfl : d = c := by simpa using h
      have : isSpace d = false := hc
      simp [Text.dropRight, this]
    | cons e cs =>
      rw [List.getLast?_cons_cons] at h
      rw [Text.dropRight, ih h]

/-- A text with solid ends is trimmed to itself. -/
theorem trim_eq_self {s : String} (h : Solid s.toList) : Text.trim s = s := by
  obtain ⟨⟨c, hc, hsolid⟩, d, hd, hlast⟩ := h
  obtain ⟨cs, hcs⟩ := List.head?_eq_some_iff.mp hc
  have hc' : isSpace c = false := hsolid
  have hdrop : s.toList.dropWhile isSpace = s.toList := by
    rw [hcs, List.dropWhile_cons_of_neg (by simp [hc'])]
  rw [Text.trim, hdrop, dropRight_of_solid hd hlast, String.ofList_toList]

/-! ## What a token's label and lexeme say -/

/-- The lexeme of a token is the text that it was made from. -/
theorem lexeme_token {k : Kind} {w : List Char} (h : Shape k w) (g : List Char) (p : Place) :
    (token k w g p).lexeme = String.ofList w := by
  cases h with
  | escaped hc hv =>
    rw [String.ofList_cons]
    rfl
  | literal hk _ => cases k <;> first | rfl | cases hk
  | word =>
    unfold wordKind
    split <;> rfl
  | operator => rfl

/-- A keyword is one of the list. -/
theorem Shape.keyword_mem {w : List Char} (h : Shape .keyword w) :
    String.ofList w ∈ keywords := by
  generalize hk : Kind.keyword = k at h
  cases h with
  | literal h => subst hk; cases h
  | word =>
    unfold wordKind at hk
    split at hk
    · rename_i hmem
      exact List.contains_iff_mem.mp hmem
    · cases hk
  | escaped => cases hk
  | operator => cases hk

/-- The characters of a word, behind the mark of one that is escaped. -/
theorem Shape.word_chars {k : Kind} {w : List Char} (h : Shape k w) (hk : k.isWord = true) :
    ∃ c v, (if k = .identifier true then w = '@' :: c :: v else w = c :: v) ∧
      isWordStart c = true ∧ ∀ d ∈ v, isWordPart d = true := by
  cases h with
  | literal h => cases k <;> cases h <;> cases hk
  | @word c v hc hv =>
    refine ⟨c, v, ?_, hc, hv⟩
    unfold wordKind
    split <;> rfl
  | @escaped c v hc hv => exact ⟨c, v, rfl, hc, hv⟩
  | operator => cases hk

/-- A token whose lexeme has the shape of its kind. -/
def WellShaped (t : Token) : Prop := Shape t.kind t.lexeme.toList

/-- A token that is made from a lexeme has its shape. -/
theorem wellShaped_token {k : Kind} {w : List Char} (h : Shape k w) (g : List Char)
    (p : Place) :
    WellShaped (token k w g p) := by
  rw [WellShaped, lexeme_token h, String.toList_ofList]
  exact h

theorem WellShaped.label_mem {t : Token} (h : WellShaped t) (hk : t.kind = .keyword) :
    t.label ∈ keywords := by
  have hlexeme : t.lexeme = t.label := by simp [Token.lexeme, Token.label, hk]
  unfold WellShaped at h
  rw [hk] at h
  rw [← hlexeme, ← String.ofList_toList (s := t.lexeme)]
  exact h.keyword_mem

/-- The labels of the kinds other than keywords. -/
theorem label_not_mem_keywords {t : Token} (h : t.kind ≠ .keyword) : t.label ∉ keywords := by
  cases hk : t.kind with
  | keyword => exact absurd hk h
  | _ => simp only [Token.label, hk]; decide

/-- The text of a word is made of the characters of words. -/
theorem WellShaped.word_text {t : Token} (h : WellShaped t) (hk : t.kind.isWord = true) :
    ∃ c v, t.text.toList = c :: v ∧ isWordStart c = true ∧ ∀ d ∈ v, isWordPart d = true := by
  obtain ⟨c, v, hw, hc, hv⟩ := Shape.word_chars h hk
  refine ⟨c, v, ?_, hc, hv⟩
  split at hw
  · rename_i hescaped
    simpa [Token.lexeme, hescaped] using hw
  · rename_i hescaped
    rw [← hw, Token.lexeme]
    split
    · exact absurd ‹_› hescaped
    · rfl

/-- Whether a text starts as a word does. -/
def startsWord (s : String) : Bool := s.toList.head?.any isWordStart

/-- The text of a word begins as a word does. -/
theorem WellShaped.startsWord {t : Token} (h : WellShaped t) (hk : t.kind.isWord = true) :
    Lexer.startsWord t.text = true := by
  obtain ⟨c, v, hchars, hc, -⟩ := h.word_text hk
  simp [Lexer.startsWord, hchars, hc]

/-- What reads as a sign is an operator. -/
theorem WellShaped.isOperator_of_reads {t : Token} (h : WellShaped t) {w : String}
    (hread : t.reads w = true) (hw : Lexer.startsWord w = false) :
    t.kind = .operator ∧ t.text = w := by
  obtain ⟨htext, hliteral⟩ : t.text = w ∧ t.kind.isLiteral = false := by
    simpa [Token.reads] using hread
  have hword : t.kind.isWord = false := by
    rw [← Bool.not_eq_true]
    intro hk
    rw [← htext, h.startsWord hk] at hw
    cases hw
  refine ⟨?_, htext⟩
  revert hword hliteral
  cases t.kind <;> simp [Kind.isWord, Kind.isLiteral]

/-- An identifier is escaped just if its lexeme has the mark. -/
theorem WellShaped.lexeme_head {t : Token} (h : WellShaped t) {b : Bool}
    (hk : t.kind = .identifier b) : t.lexeme.toList.head? = some '@' ↔ b = true := by
  cases b with
  | true => simp [Token.lexeme, hk]
  | false =>
    unfold WellShaped at h
    rw [hk] at h
    obtain ⟨c, v, hv : t.lexeme.toList = c :: v, hc, -⟩ := h.word_chars rfl
    have hat : isWordStart '@' = false := by decide
    simp only [hv, List.head?_cons, Option.some.injEq, Bool.false_eq_true, iff_false]
    rintro rfl
    rw [hat] at hc
    cases hc

/-- **A label and a lexeme determine the kind of a token and its text.** -/
theorem WellShaped.eq_of_label {t u : Token} (ht : WellShaped t) (hu : WellShaped u)
    (hlabel : t.label = u.label) (hlexeme : t.lexeme = u.lexeme) :
    t.kind = u.kind ∧ t.text = u.text := by
  have hkeyword : t.kind = .keyword ↔ u.kind = .keyword := by
    constructor
    · intro h
      by_contra h'
      exact label_not_mem_keywords h' (hlabel ▸ ht.label_mem h)
    · intro h
      by_contra h'
      exact label_not_mem_keywords h' (hlabel ▸ hu.label_mem h)
  have hkind : t.kind = u.kind := by
    cases hk : t.kind with
    | keyword => exact (hkeyword.mp hk).symm
    | identifier b =>
      cases hk' : u.kind with
      | identifier b' =>
        have hb := ht.lexeme_head hk
        rw [hlexeme, hu.lexeme_head hk'] at hb
        rw [Bool.eq_iff_iff.mpr hb]
      | keyword => exact absurd (hkeyword.mpr hk') (by simp [hk])
      | _ => simp [Token.label, hk, hk'] at hlabel
    | _ =>
      cases hk' : u.kind with
      | keyword => exact absurd (hkeyword.mpr hk') (by simp [hk])
      | _ => simp_all [Token.label]
  refine ⟨hkind, ?_⟩
  unfold Token.lexeme at hlexeme
  rw [hkind] at hlexeme
  split at hlexeme
  · exact String.append_right_inj _ |>.mp hlexeme
  · exact hlexeme

end SharpScript.Lexer
