import SharpScript.Proofs.Json.Grammar
import Mathlib.Data.List.TakeWhile

/-! # Decoding JSON

A decoder for the documents of JSON.  It reads a document from left to
right and never goes back.

## Main Definitions

* `number?`, `readChar`, `readValue`: what stands at the front of a text;
* `decode`: the value of a document.

## Main Results

* `Spells.read`: **what the grammar allows is read**, before every text that does
  not go on with a number;
* `readValue_sound`: **what is read is allowed by the grammar**;
* `decode_eq_some_iff`: the decoder accepts the documents and nothing else, so a
  document stands for one value.

## Design Notes

A list and a dictionary differ in their brackets and in what stands between the commas, so they
share `separated` and its two lemmas.  The budget of a reader bounds the nesting and the number
of parts, and the length of the document is enough for both.
-/

namespace SharpScript.Json

/-! ## Runs of characters -/

/-- A run ends where the characters of its sort end. -/
theorem takeWhile_dropWhile_append {p : Char → Bool} {w t : List Char}
    (hw : ∀ c ∈ w, p c = true) (ht : ∀ c ∈ t.head?, p c = false) :
    (w ++ t).takeWhile p = w ∧ (w ++ t).dropWhile p = t := by
  rw [List.takeWhile_append_of_pos hw, List.dropWhile_append_of_pos hw]
  cases t with
  | nil => simp
  | cons c t => simp [ht c rfl]

/-! ## Numbers -/

/-- Whether there is a digit and nothing else. -/
def isDigits (w : List Char) : Bool := !w.isEmpty && w.all Char.isDigit

/-- Whether digits have no superfluous zero. -/
def isNatural (w : List Char) : Bool := isDigits w && (w.head? != some '0' || w == ['0'])

/-- What stands behind a sign. -/
def dropSign : List Char → List Char
  | [] => []
  | c :: w => if c == '+' || c == '-' then w else c :: w

/-- Whether a number ends in an exponent. -/
def isExponent : List Char → Bool
  | [] => false
  | c :: w => (c == 'e' || c == 'E') && isDigits (dropSign w)

/-- Whether a number has a fraction, an exponent or both. -/
def isScale : List Char → Bool
  | [] => false
  | c :: w =>
    if c == '.' then
      isDigits (w.takeWhile Char.isDigit) &&
        ((w.dropWhile Char.isDigit).isEmpty || isExponent (w.dropWhile Char.isDigit))
    else isExponent (c :: w)

/-- The value of a number without a sign. -/
def magnitude? (w : List Char) : Option Value :=
  if isNatural (w.takeWhile Char.isDigit) then
    if (w.dropWhile Char.isDigit).isEmpty then
      some (.int (Nat.ofDigitChars 10 (w.takeWhile Char.isDigit) 0))
    else if isScale (w.dropWhile Char.isDigit) then some (.foreign "float")
    else none
  else none

/-- The value of a number. -/
def number? : List Char → Option Value
  | [] => none
  | c :: w => if c == '-' then (magnitude? w).map Value.negate else magnitude? (c :: w)

section Digits

variable {w t e : List Char}

/-- Each test for a part of a number decides the part of the grammar. -/
theorem isDigits_iff : isDigits w = true ↔ Digits w := by
  simp only [isDigits, Bool.and_eq_true, Bool.not_eq_true', List.isEmpty_eq_false_iff,
    List.all_eq_true]
  exact ⟨fun h => ⟨h.1, h.2⟩, fun h => ⟨h.ne_nil, h.isDigit⟩⟩

theorem isNatural_iff : isNatural w = true ↔ Natural w := by
  simp only [isNatural, Bool.and_eq_true, isDigits_iff, Bool.or_eq_true,
    bne_iff_ne, beq_iff_eq]
  exact ⟨fun h => ⟨h.1, fun hz => h.2.resolve_left (not_not.2 hz)⟩,
    fun h => ⟨h.toDigits, Classical.or_iff_not_imp_left.2 fun hz => h.zero (not_not.1 hz)⟩⟩

/-- A run of digits is taken whole. -/
theorem Digits.takeWhile_dropWhile (h : Digits w) :
    w.takeWhile Char.isDigit = w ∧ w.dropWhile Char.isDigit = [] := by
  simpa using takeWhile_dropWhile_append (t := []) h.isDigit (by simp)

/-- A sign before digits is dropped, and nothing else is. -/
theorem dropSign_eq {sign : List Char} (hsign : sign ∈ [[], ['+'], ['-']]) (h : Digits w) :
    dropSign (sign ++ w) = w := by
  obtain ⟨c, w, rfl⟩ := List.exists_cons_of_ne_nil h.ne_nil
  have hc : c.isDigit = true := h.isDigit c List.mem_cons_self
  have hplus : c ≠ '+' := fun heq => absurd hc (heq ▸ by decide)
  have hminus : c ≠ '-' := fun heq => absurd hc (heq ▸ by decide)
  simp only [List.mem_cons, List.not_mem_nil, or_false] at hsign
  rcases hsign with rfl | rfl | rfl <;> simp [dropSign, hplus, hminus]

/-- What is dropped is a sign or nothing. -/
theorem exists_dropSign (w : List Char) :
    ∃ sign ∈ [[], ['+'], ['-']], w = sign ++ dropSign w := by
  cases w with
  | nil => exact ⟨[], by simp, rfl⟩
  | cons c w =>
    by_cases hplus : c = '+'
    · exact ⟨['+'], by simp, by simp [dropSign, hplus]⟩
    · by_cases hminus : c = '-'
      · exact ⟨['-'], by simp, by simp [dropSign, hminus]⟩
      · exact ⟨[], by simp, by simp [dropSign, hplus, hminus]⟩

theorem isExponent_iff : isExponent e = true ↔ Exponent e := by
  constructor
  · intro h
    cases e with
    | nil => cases h
    | cons c w =>
      rw [isExponent, Bool.and_eq_true, isDigits_iff] at h
      obtain ⟨sign, hsign, hw⟩ := exists_dropSign w
      rw [hw]
      exact .mk (by simpa using h.1) hsign h.2
  · rintro ⟨hmark, hsign, digits⟩
    rw [isExponent, dropSign_eq hsign digits, isDigits_iff.2 digits, Bool.and_true]
    simpa using hmark

/-- An exponent begins with its letter, so the digits before it end there. -/
theorem Exponent.head? (h : Exponent e) : ∃ c ∈ e.head?, c = 'e' ∨ c = 'E' := by
  obtain @⟨mark, sign, w, hmark, -, -⟩ := h
  exact ⟨mark, rfl, by simpa using hmark⟩

theorem Exponent.noDigit (h : Exponent e) : ∀ c ∈ e.head?, c.isDigit = false := by
  intro c hc
  obtain ⟨c', hc', hmark⟩ := h.head?
  obtain rfl : c = c' := Option.some.inj (hc.symm.trans hc')
  rcases hmark with rfl | rfl <;> rfl

/-- A fraction, an exponent or both, and nothing behind them. -/
theorem isScale_iff : isScale t = true ↔ Scale t := by
  constructor
  · intro h
    cases t with
    | nil => cases h
    | cons c w =>
      rw [isScale] at h
      split at h
      · next hc =>
        obtain rfl : c = '.' := by simpa using hc
        rw [Bool.and_eq_true, Bool.or_eq_true, isDigits_iff, isExponent_iff,
          List.isEmpty_iff] at h
        have hw := List.takeWhile_append_dropWhile (p := Char.isDigit) (l := w)
        rcases h.2 with hnil | hexp
        · rw [hnil, List.append_nil] at hw
          exact .fraction (hw ▸ h.1)
        · rw [← hw]
          exact .both h.1 hexp
      · exact .exponent (isExponent_iff.1 h)
  · intro h
    cases h with
    | fraction digits =>
      simp [isScale, digits.takeWhile_dropWhile, isDigits_iff.2 digits]
    | exponent exponent =>
      obtain ⟨c, hc, hmark⟩ := exponent.head?
      cases t with
      | nil => cases hc
      | cons c' w =>
        obtain rfl : c' = c := Option.some.inj hc
        rw [isScale, if_neg (by rcases hmark with rfl | rfl <;> decide), isExponent_iff]
        exact exponent
    | both digits exponent =>
      have hsplit := takeWhile_dropWhile_append digits.isDigit exponent.noDigit
      simp [isScale, hsplit, isDigits_iff.2 digits, isExponent_iff.2 exponent]

/-- A scale begins with no digit, so the digits before it end there. -/
theorem Scale.noDigit (h : Scale t) : ∀ c ∈ t.head?, c.isDigit = false := by
  cases h with
  | fraction digits | both digits exponent => simp
  | exponent exponent => exact exponent.noDigit

theorem Scale.ne_nil (h : Scale t) : t ≠ [] := by
  cases h with
  | fraction digits | both digits exponent => simp
  | exponent exponent =>
    rintro rfl
    obtain ⟨c, hc, -⟩ := exponent.head?
    cases hc

/-- **A number without its sign is decided**, with the value that it has. -/
theorem magnitude?_eq_some_iff {v : Value} : magnitude? w = some v ↔ Magnitude w v := by
  constructor
  · intro h
    have hw := List.takeWhile_append_dropWhile (p := Char.isDigit) (l := w)
    rw [magnitude?] at h
    split at h
    · next hnat =>
      have natural := isNatural_iff.1 hnat
      split at h
      · next hnil =>
        rw [List.isEmpty_iff.1 hnil, List.append_nil] at hw
        cases h
        rw [hw] at natural ⊢
        exact .whole natural
      · split at h
        · next hscale =>
          cases h
          rw [← hw]
          exact .scaled natural (isScale_iff.1 hscale)
        · cases h
    · cases h
  · intro h
    cases h with
    | whole natural =>
      simp [magnitude?, natural.takeWhile_dropWhile, isNatural_iff.2 natural]
    | scaled natural scale =>
      have hsplit := takeWhile_dropWhile_append natural.isDigit scale.noDigit
      simp [magnitude?, hsplit, isNatural_iff.2 natural, isScale_iff.2 scale, scale.ne_nil]

theorem Magnitude.head? {v : Value} (h : Magnitude w v) : ∃ c ∈ w.head?, c.isDigit = true := by
  have natural {w : List Char} (h : Natural w) (t : List Char) :
      ∃ c ∈ (w ++ t).head?, c.isDigit = true := by
    obtain ⟨c, w, rfl⟩ := List.exists_cons_of_ne_nil h.ne_nil
    exact ⟨c, rfl, h.isDigit c List.mem_cons_self⟩
  cases h with
  | whole h => simpa using natural h []
  | @scaled w t h _ => exact natural h t

/-- **A number is decided**, with the value that it has. -/
theorem number?_eq_some_iff {v : Value} : number? w = some v ↔ Number w v := by
  constructor
  · intro h
    cases w with
    | nil => cases h
    | cons c w =>
      rw [number?] at h
      split at h
      · next hc =>
        obtain rfl : c = '-' := by simpa using hc
        obtain ⟨v, hv, rfl⟩ := Option.map_eq_some_iff.1 h
        exact .minus (magnitude?_eq_some_iff.1 hv)
      · exact .plus (magnitude?_eq_some_iff.1 h)
  · intro h
    cases h with
    | plus magnitude =>
      obtain ⟨c, hc, hdigit⟩ := magnitude.head?
      cases w with
      | nil => cases hc
      | cons c' w =>
        obtain rfl : c' = c := Option.some.inj hc
        rw [number?, if_neg (by rintro hminus; simp [beq_iff_eq.1 hminus] at hdigit),
          magnitude?_eq_some_iff]
        exact magnitude
    | minus magnitude => simp [number?, magnitude?_eq_some_iff.2 magnitude]

/-- Whether a character can be part of a number. -/
def isNumeric (c : Char) : Bool := c.isDigit || ['-', '+', '.', 'e', 'E'].contains c

/-- All characters of a number are of the set that the reader takes, so a number is taken
whole. -/
theorem isNumeric_of_isDigit {c : Char} (h : c.isDigit = true) : isNumeric c = true := by
  simp [isNumeric, h]

theorem Exponent.isNumeric (h : Exponent e) : ∀ c ∈ e, isNumeric c = true := by
  obtain @⟨mark, sign, w, hmark, hsign, digits⟩ := h
  intro c hc
  simp only [List.mem_cons, List.not_mem_nil, or_false, List.mem_append] at hmark hsign hc
  rcases hc with rfl | hc | hc
  · rcases hmark with rfl | rfl <;> rfl
  · rcases hsign with rfl | rfl | rfl <;> simp at hc <;> subst hc <;> rfl
  · exact isNumeric_of_isDigit (digits.isDigit c hc)

theorem Scale.isNumeric (h : Scale t) : ∀ c ∈ t, isNumeric c = true := by
  have point : Json.isNumeric '.' = true := rfl
  cases h with
  | fraction digits =>
    exact List.forall_mem_cons.2 ⟨point,
      fun c hc => isNumeric_of_isDigit (digits.isDigit c hc)⟩
  | exponent exponent => exact exponent.isNumeric
  | both digits exponent =>
    exact List.forall_mem_cons.2 ⟨point, List.forall_mem_append.2
      ⟨fun c hc => isNumeric_of_isDigit (digits.isDigit c hc), exponent.isNumeric⟩⟩

theorem Magnitude.isNumeric {v : Value} (h : Magnitude w v) : ∀ c ∈ w, isNumeric c = true := by
  cases h with
  | whole natural => exact fun c hc => isNumeric_of_isDigit (natural.isDigit c hc)
  | scaled natural scale =>
    exact List.forall_mem_append.2
      ⟨fun c hc => isNumeric_of_isDigit (natural.isDigit c hc), scale.isNumeric⟩

theorem Number.isNumeric {v : Value} (h : Number w v) : ∀ c ∈ w, isNumeric c = true := by
  cases h with
  | plus magnitude => exact magnitude.isNumeric
  | minus magnitude => exact List.forall_mem_cons.2 ⟨rfl, magnitude.isNumeric⟩

/-- A number begins with a digit or with a minus sign. -/
theorem Number.exists_cons {v : Value} (h : Number w v) :
    ∃ c u, w = c :: u ∧ (c = '-' ∨ c.isDigit = true) := by
  cases h with
  | plus magnitude =>
    obtain ⟨c, hc, hdigit⟩ := magnitude.head?
    obtain ⟨u, rfl⟩ := List.head?_eq_some_iff.1 hc
    exact ⟨c, u, rfl, .inr hdigit⟩
  | minus magnitude => exact ⟨_, _, rfl, .inl rfl⟩

end Digits

/-! ## Texts -/

/-- The code unit that is spelled at the front, and what follows. -/
def readUnit : List Char → Option (Nat × List Char)
  | '\\' :: 'u' :: a :: b :: c :: d :: cs => (hexCode? a b c d).map (·, cs)
  | _ => none

/-- The character that is spelled at the front without code units, and what follows. -/
def readShort : List Char → Option (Char × List Char)
  | [] => none
  | '\\' :: e :: cs => (shortEscape? e).map (·, cs)
  | c :: cs => if isUnescaped c then some (c, cs) else none

/-- The character that is spelled at the front, and what follows. -/
def readChar (cs : List Char) : Option (Char × List Char) :=
  match readUnit cs with
  | none => readShort cs
  | some (n, cs) =>
    if IsHigh n then
      match readUnit cs with
      | none => none
      | some (n', cs) => if IsLow n' then some (pairChar n n', cs) else none
    else if IsLow n then none
    else some (Char.ofNat n, cs)

/-- The characters up to the next double quote, and what follows it. -/
def readChars : Nat → List Char → Option (List Char × List Char)
  | 0, _ => none
  | n + 1, cs =>
    if cs.head? = some '"' then some ([], cs.tail)
    else do
      let (c, cs) ← readChar cs
      let (s, cs) ← readChars n cs
      return (c :: s, cs)

section Texts

variable {u w s cs rest : List Char} {c : Char} {n : Nat}

/-- An escape by four hexadecimal digits is read whatever comes behind it. -/
theorem readUnit_of_hexCode? {a b c d : Char} (h : hexCode? a b c d = some n) :
    readUnit ('\\' :: 'u' :: a :: b :: c :: d :: cs) = some (n, cs) := by
  rw [readUnit, h]
  rfl

/-- Such an escape is read only where one stands. -/
theorem readUnit_eq_some_iff : readUnit cs = some (n, rest) ↔
    ∃ a b c d, cs = '\\' :: 'u' :: a :: b :: c :: d :: rest ∧ hexCode? a b c d = some n := by
  constructor
  · intro h
    unfold readUnit at h
    split at h
    · next a b c d cs =>
      obtain ⟨m, hm, heq⟩ := Option.map_eq_some_iff.1 h
      rw [Prod.mk.injEq] at heq
      exact ⟨a, b, c, d, by rw [heq.2], heq.1 ▸ hm⟩
    · cases h
  · rintro ⟨a, b, c, d, rfl, hcode⟩
    exact readUnit_of_hexCode? hcode

/-- A character that stands for itself, or an escape of one letter. -/
theorem readShort_eq_some_iff : readShort cs = some (c, rest) ↔
    (∃ e, cs = '\\' :: e :: rest ∧ shortEscape? e = some c) ∨
      cs = c :: rest ∧ isUnescaped c = true := by
  constructor
  · intro h
    unfold readShort at h
    split at h
    · cases h
    · next e cs =>
      obtain ⟨d, hd, heq⟩ := Option.map_eq_some_iff.1 h
      rw [Prod.mk.injEq] at heq
      exact .inl ⟨e, by rw [heq.2], heq.1 ▸ hd⟩
    · split at h
      · next hunescaped =>
        rw [Option.some.injEq, Prod.mk.injEq] at h
        exact .inr ⟨by rw [h.1, h.2], h.1 ▸ hunescaped⟩
      · cases h
  · rintro (⟨e, rfl, hescape⟩ | ⟨rfl, hunescaped⟩)
    · rw [readShort, hescape]
      rfl
    · have hslash : c ≠ '\\' := by
        rintro rfl
        cases hunescaped
      simp [readShort, hslash, hunescaped]

/-- **Every spelling of a character is read as it**, whatever comes behind it. -/
theorem Spelling.readChar (h : Spelling u c) (rest : List Char) :
    readChar (u ++ rest) = some (c, rest) := by
  unfold Json.readChar
  cases h with
  | self unescaped =>
    have hunit : readUnit ([c] ++ rest) = none := by
      refine Option.eq_none_iff_forall_ne_some.2 fun r hr => ?_
      obtain ⟨_, _, _, _, heq, -⟩ := readUnit_eq_some_iff.1 hr
      obtain rfl : c = '\\' := (List.cons.inj heq).1
      cases unescaped
    rw [hunit]
    exact readShort_eq_some_iff.2 (.inr ⟨rfl, unescaped⟩)
  | @short e c escape =>
    have hunit : readUnit (['\\', e] ++ rest) = none := by
      refine Option.eq_none_iff_forall_ne_some.2 fun r hr => ?_
      obtain ⟨_, _, _, _, heq, -⟩ := readUnit_eq_some_iff.1 hr
      obtain rfl : e = 'u' := (List.cons.inj (List.cons.inj heq).2).1
      cases escape
    rw [hunit]
    exact readShort_eq_some_iff.2 (.inl ⟨e, rfl, escape⟩)
  | unit code high low => simp [readUnit_of_hexCode? code, high, low]
  | pair code high code' low =>
    simp [readUnit_of_hexCode? code, high, readUnit_of_hexCode? code', low]

/-- What is read as a character is a spelling of it. -/
theorem readChar_sound (h : readChar cs = some (c, rest)) :
    ∃ u, cs = u ++ rest ∧ Spelling u c := by
  unfold readChar at h
  split at h
  · rcases readShort_eq_some_iff.1 h with ⟨e, rfl, hescape⟩ | ⟨rfl, hunescaped⟩
    · exact ⟨_, rfl, .short hescape⟩
    · exact ⟨_, rfl, .self hunescaped⟩
  · next n cs' hunit =>
    obtain ⟨a, b, c, d, rfl, hcode⟩ := readUnit_eq_some_iff.1 hunit
    split at h
    · next high =>
      split at h
      · cases h
      · next n' cs'' hunit' =>
        obtain ⟨a', b', c', d', rfl, hcode'⟩ := readUnit_eq_some_iff.1 hunit'
        split at h
        · next low =>
          rw [Option.some.injEq, Prod.mk.injEq] at h
          rw [← h.1, ← h.2]
          exact ⟨_, rfl, .pair hcode high hcode' low⟩
        · cases h
    · next high =>
      split at h
      · cases h
      · next low =>
        rw [Option.some.injEq, Prod.mk.injEq] at h
        rw [← h.1, ← h.2]
        exact ⟨_, rfl, .unit hcode high low⟩

/-- The spelling of a character is not empty, and it does not begin with a double quote. -/
theorem Spelling.exists_cons (h : Spelling u c) : ∃ d v, u = d :: v ∧ d ≠ '"' := by
  cases h with
  | self unescaped =>
    refine ⟨_, _, rfl, ?_⟩
    rintro rfl
    cases unescaped
  | short | unit | pair => exact ⟨_, _, rfl, by decide⟩

/-- Characters are read up to the quote behind them, if there is fuel for each. -/
theorem Characters.readChars (h : Characters w s) (hn : w.length < n) (rest : List Char) :
    readChars n (w ++ '"' :: rest) = some (s, rest) := by
  induction h generalizing n with
  | nil =>
    cases n with
    | zero => exact absurd hn (Nat.not_lt_zero _)
    | succ n => rfl
  | @cons u w s c first others ih =>
    cases n with
    | zero => exact absurd hn (Nat.not_lt_zero _)
    | succ n =>
      have hfirst := first.readChar (w ++ '"' :: rest)
      obtain ⟨d, v, rfl, hd⟩ := first.exists_cons
      have hothers := ih (n := n) (by simp at hn; omega)
      rw [List.append_assoc, Json.readChars, if_neg (by simpa using hd), hfirst]
      simp [hothers]

/-- What is read up to a quote is a spelling of the text. -/
theorem readChars_sound (h : readChars n cs = some (s, rest)) :
    ∃ w, cs = w ++ '"' :: rest ∧ Characters w s := by
  induction n generalizing cs s with
  | zero => cases h
  | succ n ih =>
    rw [readChars] at h
    split at h
    · next hquote =>
      obtain ⟨cs, rfl⟩ := List.head?_eq_some_iff.1 hquote
      cases h
      exact ⟨[], rfl, .nil⟩
    · obtain ⟨⟨c, cs'⟩, hfirst, h⟩ := Option.bind_eq_some_iff.1 h
      obtain ⟨⟨s', cs''⟩, hothers, h⟩ := Option.bind_eq_some_iff.1 h
      cases h
      obtain ⟨u, rfl, first⟩ := readChar_sound hfirst
      obtain ⟨w, rfl, others⟩ := ih hothers
      exact ⟨u ++ w, (List.append_assoc ..).symm, .cons first others⟩

end Texts

/-! ## Values -/

/-- What follows a character that stands at the front. -/
def after? (c : Char) : List Char → Option (List Char)
  | [] => none
  | d :: cs => if d = c then some cs else none

/-- What follows the blanks at the front. -/
def skipBlanks (cs : List Char) : List Char := cs.dropWhile isBlank

/-- The value of one of the three words. -/
def readWord : List Char → Option (Value × List Char)
  | 'n' :: 'u' :: 'l' :: 'l' :: cs => some (.null, cs)
  | 't' :: 'r' :: 'u' :: 'e' :: cs => some (.bool true, cs)
  | 'f' :: 'a' :: 'l' :: 's' :: 'e' :: cs => some (.bool false, cs)
  | _ => none

section Readers

variable {α : Type} (read : List Char → Option (α × List Char))

/-- What is read between blanks. -/
def padded (cs : List Char) : Option (α × List Char) := do
  let (x, cs) ← read (skipBlanks cs)
  return (x, skipBlanks cs)

/-- What is read between commas. -/
def separated : Nat → List Char → Option (List α × List Char)
  | 0, _ => none
  | n + 1, cs => do
    let (x, cs) ← read cs
    match after? ',' cs with
    | none => return ([x], cs)
    | some cs =>
      let (xs, cs) ← separated n cs
      return (x :: xs, cs)

/-- What is read between commas up to a bracket, where there may be nothing but blanks. -/
def enclosed (close : Char) (n : Nat) (cs : List Char) : Option (List α × List Char) :=
  match after? close (skipBlanks cs) with
  | some cs => some ([], cs)
  | none => do
    let (xs, cs) ← separated read n cs
    let cs ← after? close cs
    return (xs, cs)

end Readers

/-- A name and its value. -/
def readMember (n : Nat) (read : List Char → Option (Value × List Char)) (cs : List Char) :
    Option ((Key × Value) × List Char) := do
  let cs ← after? '"' (skipBlanks cs)
  let (s, cs) ← readChars n cs
  let cs ← after? ':' (skipBlanks cs)
  let (v, cs) ← padded read cs
  return ((.text (String.ofList s), v), cs)

/-- The value at the front, and what follows. -/
def readValue : Nat → List Char → Option (Value × List Char)
  | 0, _ => none
  | _ + 1, [] => none
  | n + 1, c :: cs =>
    if c = '"' then
      (readChars n cs).map fun r => (.text (String.ofList r.1), r.2)
    else if c = '[' then
      (enclosed (padded (readValue n)) ']' n cs).map fun r => (.list r.1, r.2)
    else if c = '{' then
      (enclosed (readMember n (readValue n)) '}' n cs).map fun r => (.dict (merge r.1), r.2)
    else if c = '-' ∨ c.isDigit then
      (number? ((c :: cs).takeWhile isNumeric)).map (·, (c :: cs).dropWhile isNumeric)
    else readWord (c :: cs)

/-- The value of a document. -/
def decode (text : String) : Option Value :=
  match padded (readValue (text.length + 1)) text.toList with
  | some (v, []) => some v
  | _ => none

/-! ## What the grammar allows is read -/

/-- A character is taken off just where it stands. -/
theorem after?_eq_some_iff {c : Char} {cs rest : List Char} :
    after? c cs = some rest ↔ cs = c :: rest := by
  cases cs with
  | nil => simp [after?]
  | cons d cs => by_cases h : d = c <;> simp [after?, h]

@[simp] theorem after?_cons_self (c : Char) (cs : List Char) : after? c (c :: cs) = some cs :=
  if_pos rfl

/-- What can stand behind a value with its blanks. -/
def Stops (rest : List Char) : Prop :=
  ∀ c ∈ rest.head?, isBlank c = false ∧ isNumeric c = false

/-- A number ends before the signs that come behind a value. -/
theorem stops_cons {c : Char} (h : c ∈ [',', ']', '}']) (cs : List Char) :
    Stops (c :: cs) := by
  intro d hd
  obtain rfl : c = d := Option.some.inj hd
  simp only [List.mem_cons, List.not_mem_nil, or_false] at h
  rcases h with rfl | rfl | rfl <;> decide

/-- Blanks are skipped, and nothing else is. -/
theorem skipBlanks_append {b cs : List Char} (hb : Blanks b)
    (hcs : ∀ c ∈ cs.head?, isBlank c = false) : skipBlanks (b ++ cs) = cs :=
  (takeWhile_dropWhile_append hb hcs).2

section Complete

variable {α : Type} {read : List Char → Option (α × List Char)} {x : α} {xs : List α}
  {cs rest : List Char} {n : Nat} {c close : Char}

/-- The last value has no comma behind it. -/
theorem separated_last (h : read cs = some (x, c :: rest)) (hc : c ≠ ',') :
    separated read (n + 1) cs = some ([x], c :: rest) := by
  simp [separated, h, after?, hc]

/-- A value with a comma behind it is followed by further ones. -/
theorem separated_more {more : List Char} (h : read cs = some (x, ',' :: more))
    (hmore : separated read n more = some (xs, rest)) :
    separated read (n + 1) cs = some (x :: xs, rest) := by
  simp [separated, h, hmore]

/-- An empty list may hold blanks. -/
theorem enclosed_blanks {b : List Char} (hb : Blanks b) (close : Char)
    (hclose : isBlank close = false) :
    enclosed read close n (b ++ close :: rest) = some ([], rest) := by
  have hskip : skipBlanks (b ++ close :: rest) = close :: rest :=
    skipBlanks_append hb (by simpa using hclose)
  simp [enclosed, hskip]

/-- A list that is not empty is read value by value. -/
theorem enclosed_separated (h : separated read n cs = some (xs, close :: rest))
    (hnot : after? close (skipBlanks cs) = none) :
    enclosed read close n cs = some (xs, rest) := by
  simp [enclosed, hnot, h]

end Complete

/-- How a part of a document begins: with blanks, unless it is a value, and then with a
character that is no bracket at the end of something. -/
theorem Spells.begins {w : List Char} {p : Phrase} (h : Spells w p) :
    ∃ b c u, w = b ++ c :: u ∧ Blanks b ∧ isBlank c = false ∧ c ≠ ']' ∧ c ≠ '}' ∧
      ((∃ v, p = .value v) → b = []) := by
  have blanks : Blanks [] := fun _ h => nomatch h
  induction h with
  | null | yes | no | text | noElement | list | noMember | dict =>
    exact ⟨[], _, _, rfl, blanks, rfl, by decide, by decide, fun _ => rfl⟩
  | number number =>
    obtain ⟨c, u, rfl, hc⟩ := number.exists_cons
    have hblank : isBlank c = false ∧ c ≠ ']' ∧ c ≠ '}' := by
      rcases hc with rfl | hdigit
      · decide
      · have hne {d : Char} (hd : d.isDigit = false) : c ≠ d := by
          rintro rfl
          exact absurd hdigit (Bool.eq_false_iff.1 hd)
        refine ⟨?_, hne rfl, hne rfl⟩
        simp [isBlank, hne (d := ' ') rfl, hne (d := '\t') rfl, hne (d := '\n') rfl,
          hne (d := '\r') rfl]
    exact ⟨[], c, u, rfl, blanks, hblank.1, hblank.2.1, hblank.2.2, fun _ => rfl⟩
  | @element b w b' v before value after ih =>
    obtain ⟨b₀, c, u, rfl, -, hc, hlist, hdict, hnil⟩ := ih
    obtain rfl := hnil ⟨v, rfl⟩
    exact ⟨b, c, u ++ b', by simp, before, hc, hlist, hdict, fun ⟨_, h⟩ => nomatch h⟩
  | @last w v element ih | @lastMember w e member ih =>
    obtain ⟨b, c, u, rfl, hb, hc, hlist, hdict, -⟩ := ih
    exact ⟨b, c, u, rfl, hb, hc, hlist, hdict, fun ⟨_, h⟩ => nomatch h⟩
  | @more w u v vs element elements ih _ | @moreMembers w u v vs member members ih _ =>
    obtain ⟨b, c, u', rfl, hb, hc, hlist, hdict, -⟩ := ih
    exact ⟨b, c, u' ++ ',' :: u, by simp, hb, hc, hlist, hdict, fun ⟨_, h⟩ => nomatch h⟩
  | @member b w b' u s v before name after element ih =>
    exact ⟨b, '"', _, rfl, before, rfl, by decide, by decide, fun ⟨_, h⟩ => nomatch h⟩

/-- A value begins with a character that is no blank, so blanks before it are skipped and none
of it. -/
theorem Spells.begins_value {w : List Char} {v : Value} (h : Spells w (.value v)) :
    ∃ c u, w = c :: u ∧ isBlank c = false := by
  obtain ⟨b, c, u, rfl, -, hc, -, -, hnil⟩ := h.begins
  obtain rfl := hnil ⟨v, rfl⟩
  exact ⟨c, u, rfl, hc⟩

/-- What is spelled by a phrase is not the end of something. -/
theorem Spells.after?_eq_none {w : List Char} {p : Phrase} (h : Spells w p) {close : Char}
    (hclose : close ∈ [']', '}']) (rest : List Char) :
    after? close (skipBlanks (w ++ rest)) = none := by
  obtain ⟨b, c, u, rfl, hb, hc, hlist, hdict, -⟩ := h.begins
  have hskip : skipBlanks (b ++ (c :: (u ++ rest))) = c :: (u ++ rest) :=
    skipBlanks_append hb (by simpa using hc)
  have hne : c ≠ close := by
    simp only [List.mem_cons, List.not_mem_nil, or_false] at hclose
    rcases hclose with rfl | rfl
    · exact hlist
    · exact hdict
  rw [List.append_assoc, List.cons_append, hskip, after?, if_neg hne]

/-- Blanks are no part of a number, so a number ends where they begin. -/
theorem Blanks.not_isNumeric_head {b rest : List Char} (hb : Blanks b) (hrest : Stops rest) :
    ∀ c ∈ (b ++ rest).head?, isNumeric c = false := by
  cases b with
  | nil => exact fun c hc => (hrest c hc).2
  | cons c b =>
    intro d hd
    obtain rfl : c = d := Option.some.inj hd
    have hblank := hb c List.mem_cons_self
    simp only [isBlank, Bool.or_eq_true, beq_iff_eq] at hblank
    rcases hblank with ((rfl | rfl) | rfl) | rfl <;> rfl

/-- That a phrase is read where `w` stands, before all that can follow it. -/
def Phrase.Read (w : List Char) : Phrase → Prop
  | .value v => ∀ n rest, w.length ≤ n → (∀ c ∈ rest.head?, isNumeric c = false) →
      readValue (n + 1) (w ++ rest) = some (v, rest)
  | .element v => ∀ n rest, w.length ≤ n → Stops rest →
      padded (readValue (n + 1)) (w ++ rest) = some (v, rest)
  | .elements vs => ∀ m n rest, w.length ≤ m → w.length ≤ n →
      separated (padded (readValue (m + 1))) (n + 1) (w ++ ']' :: rest) =
      some (vs, ']' :: rest)
  | .member e => ∀ n rest, w.length ≤ n → Stops rest →
      readMember (n + 1) (readValue (n + 1)) (w ++ rest) = some (e, rest)
  | .members es => ∀ m n rest, w.length ≤ m → w.length ≤ n →
      separated (readMember (m + 1) (readValue (m + 1))) (n + 1) (w ++ '}' :: rest) =
        some (es, '}' :: rest)

/-- A number is read as a value, up to the first character that cannot be part of one. -/
theorem Number.readValue {w : List Char} {v : Value} (h : Number w v) (n : Nat)
    {rest : List Char} (hrest : ∀ c ∈ rest.head?, Json.isNumeric c = false) :
    readValue (n + 1) (w ++ rest) = some (v, rest) := by
  have hsplit := takeWhile_dropWhile_append h.isNumeric hrest
  have hnumber := number?_eq_some_iff.2 h
  obtain ⟨c, u, rfl, hc⟩ := h.exists_cons
  have hne {d : Char} (hminus : d ≠ '-') (hd : d.isDigit = false) : c ≠ d := by
    rintro rfl
    rcases hc with rfl | hc
    · exact hminus rfl
    · exact absurd hc (Bool.eq_false_iff.1 hd)
  rw [List.cons_append] at hsplit ⊢
  rw [Json.readValue, if_neg (hne (by decide) rfl), if_neg (hne (by decide) rfl),
    if_neg (hne (by decide) rfl), if_pos hc, hsplit.1, hsplit.2, hnumber]
  rfl

/-- What the grammar allows is read. -/
theorem Spells.read {w : List Char} {p : Phrase} (h : Spells w p) : p.Read w := by
  induction h with
  | null | yes | no => exact fun n rest _ _ => rfl
  | number number => exact fun n rest _ hrest => number.readValue n hrest
  | text characters =>
    intro n rest hn _
    have hchars := characters.readChars (n := n) (by simp at hn; omega) rest
    simp [readValue, hchars]
  | noElement blanks =>
    intro n rest _ _
    simp [readValue, enclosed_blanks blanks ']' rfl]
  | @list w vs elements ih =>
    intro n rest hn _
    simp only [List.length_cons, List.length_append] at hn
    obtain ⟨n, rfl⟩ : ∃ k, n = k + 1 := ⟨n - 1, by omega⟩
    have hread := enclosed_separated (ih n n rest (by omega) (by omega))
      (elements.after?_eq_none (by simp) _)
    simp [readValue, hread]
  | noMember blanks =>
    intro n rest _ _
    simp [readValue, enclosed_blanks blanks '}' rfl, merge]
  | @dict w es members ih =>
    intro n rest hn _
    simp only [List.length_cons, List.length_append] at hn
    obtain ⟨n, rfl⟩ : ∃ k, n = k + 1 := ⟨n - 1, by omega⟩
    have hread := enclosed_separated (ih n n rest (by omega) (by omega))
      (members.after?_eq_none (by simp) _)
    simp [readValue, hread]
  | @element b w b' v before value after ih =>
    intro n rest hn hrest
    have hbefore : skipBlanks (b ++ (w ++ (b' ++ rest))) = w ++ (b' ++ rest) := by
      obtain ⟨c, u, rfl, hc⟩ := value.begins_value
      exact skipBlanks_append before (by simpa using hc)
    have hafter : skipBlanks (b' ++ rest) = rest :=
      skipBlanks_append after fun c hc => (hrest c hc).1
    have hread := ih n (b' ++ rest) (by simp at hn; omega) (after.not_isNumeric_head hrest)
    simp [padded, hbefore, hread, hafter]
  | last element ih =>
    exact fun m n rest hm _ => separated_last (ih m _ hm (stops_cons (by simp) _)) (by decide)
  | lastMember member ih =>
    exact fun m n rest hm _ => separated_last (ih m _ hm (stops_cons (by simp) _)) (by decide)
  | more element elements ih ihs | moreMembers member members ih ihs =>
    intro m n rest hm hn
    simp only [List.length_cons, List.length_append] at hm hn
    obtain ⟨n, rfl⟩ : ∃ k, n = k + 1 := ⟨n - 1, by omega⟩
    rw [List.append_assoc, List.cons_append]
    exact separated_more (ih m _ (by omega) (stops_cons (by simp) _))
      (ihs m n rest (by omega) (by omega))
  | @member b w b' u s v before name after element ih =>
    intro n rest hn hrest
    simp only [List.length_cons, List.length_append] at hn
    have hquote : skipBlanks (b ++ '"' :: (w ++ '"' :: (b' ++ ':' :: (u ++ rest)))) =
        '"' :: (w ++ '"' :: (b' ++ ':' :: (u ++ rest))) :=
      skipBlanks_append before (by simp; rfl)
    have hname := name.readChars (n := n + 1) (by omega) (b' ++ ':' :: (u ++ rest))
    have hcolon : skipBlanks (b' ++ ':' :: (u ++ rest)) = ':' :: (u ++ rest) :=
      skipBlanks_append after (by simp; rfl)
    have hvalue := ih n rest (by omega) hrest
    simp [readMember, hquote, hname, hcolon, hvalue]

/-! ## What is read is allowed by the grammar -/

section Sound

variable {α : Type} {read : List Char → Option (α × List Char)} {x : α} {xs : List α}
  {cs rest : List Char} {n : Nat}

/-- What is skipped are blanks. -/
theorem exists_blanks (cs : List Char) : ∃ b, Blanks b ∧ cs = b ++ skipBlanks cs :=
  ⟨cs.takeWhile isBlank, fun _ => List.mem_takeWhile_imp, List.takeWhile_append_dropWhile.symm⟩

/-- What stands between commas belongs to a list, if each of its parts
belongs to an item of it. -/
theorem separated_sound {item : α → Phrase} {items : List α → Phrase}
    (last : ∀ {w x}, Spells w (item x) → Spells w (items [x]))
    (more : ∀ {w u x xs}, Spells w (item x) → Spells u (items xs) →
      Spells (w ++ ',' :: u) (items (x :: xs)))
    (sound : ∀ {cs x rest}, read cs = some (x, rest) → ∃ w, cs = w ++ rest ∧ Spells w (item x))
    (h : separated read n cs = some (xs, rest)) :
    ∃ w, cs = w ++ rest ∧ Spells w (items xs) := by
  induction n generalizing cs xs with
  | zero => cases h
  | succ n ih =>
    rw [separated] at h
    obtain ⟨⟨x, cs'⟩, hread, hmore⟩ := Option.bind_eq_some_iff.1 h
    obtain ⟨w, rfl, hitem⟩ := sound hread
    dsimp only at hmore
    split at hmore
    · cases hmore
      exact ⟨w, rfl, last hitem⟩
    · next cs'' hcomma =>
      obtain rfl := after?_eq_some_iff.1 hcomma
      obtain ⟨⟨xs', cs'⟩, hread', hpair⟩ := Option.bind_eq_some_iff.1 hmore
      cases hpair
      obtain ⟨u, rfl, hitems⟩ := ih hread'
      exact ⟨w ++ ',' :: u, by simp, more hitem hitems⟩

/-- A list that is read is empty, or holds values with commas between them. -/
theorem enclosed_sound {close : Char} (h : enclosed read close n cs = some (xs, rest)) :
    (∃ b, cs = b ++ close :: rest ∧ Blanks b ∧ xs = []) ∨
      separated read n cs = some (xs, close :: rest) := by
  rw [enclosed] at h
  split at h
  · next cs' hclose =>
    cases h
    obtain ⟨b, hb, hcs⟩ := exists_blanks cs
    exact .inl ⟨b, by rw [← after?_eq_some_iff.1 hclose]; exact hcs, hb, rfl⟩
  · obtain ⟨⟨xs', cs'⟩, hread, hmore⟩ := Option.bind_eq_some_iff.1 h
    obtain ⟨cs'', hclose, hpair⟩ := Option.bind_eq_some_iff.1 hmore
    cases hpair
    rw [← after?_eq_some_iff.1 hclose]
    exact .inr hread

end Sound

section Sound

variable {cs rest : List Char} {v : Value} {n : Nat}

/-- Each of the three words is a value. -/
theorem readWord_sound (h : readWord cs = some (v, rest)) :
    ∃ w, cs = w ++ rest ∧ Spells w (.value v) := by
  unfold readWord at h
  split at h
  · cases h
    exact ⟨_, rfl, .null⟩
  · cases h
    exact ⟨_, rfl, .yes⟩
  · cases h
    exact ⟨_, rfl, .no⟩
  · cases h

/-- A value with blanks around it is an element. -/
theorem padded_sound {read : List Char → Option (Value × List Char)}
    (sound : ∀ {cs v rest}, read cs = some (v, rest) → ∃ w, cs = w ++ rest ∧
      Spells w (.value v))
    (h : padded read cs = some (v, rest)) : ∃ w, cs = w ++ rest ∧ Spells w (.element v) := by
  obtain ⟨⟨v', cs'⟩, hread, hpair⟩ := Option.bind_eq_some_iff.1 h
  cases hpair
  obtain ⟨w, hw, hvalue⟩ := sound hread
  obtain ⟨b, hb, hcs⟩ := exists_blanks cs
  obtain ⟨b', hb', hcs'⟩ := exists_blanks cs'
  refine ⟨b ++ (w ++ b'), ?_, .element hb hvalue hb'⟩
  rw [List.append_assoc, List.append_assoc, ← hcs', ← hw]
  exact hcs

/-- A text, a colon and a value are a member. -/
theorem readMember_sound {e : Key × Value} {read : List Char → Option (Value × List Char)}
    (sound : ∀ {cs v rest}, read cs = some (v, rest) → ∃ w, cs = w ++ rest ∧
      Spells w (.value v))
    (h : readMember n read cs = some (e, rest)) :
    ∃ w, cs = w ++ rest ∧ Spells w (.member e) := by
  obtain ⟨cs₁, hquote, h₁⟩ := Option.bind_eq_some_iff.1 h
  obtain ⟨⟨s, cs₂⟩, hchars, h₂⟩ := Option.bind_eq_some_iff.1 h₁
  obtain ⟨cs₃, hcolon, h₃⟩ := Option.bind_eq_some_iff.1 h₂
  obtain ⟨⟨v, cs₄⟩, hvalue, hpair⟩ := Option.bind_eq_some_iff.1 h₃
  cases hpair
  obtain ⟨b, hb, hcs⟩ := exists_blanks cs
  obtain ⟨w, rfl, hname⟩ := readChars_sound hchars
  obtain ⟨b', hb', hcs₂⟩ := exists_blanks cs₂
  obtain ⟨u, rfl, helement⟩ := padded_sound sound hvalue
  refine ⟨b ++ '"' :: (w ++ '"' :: (b' ++ ':' :: u)), ?_, .member hb hname hb' helement⟩
  rw [after?_eq_some_iff] at hquote hcolon
  rw [hcs, hquote, hcs₂, hcolon]
  simp

/-- What is read is allowed by the grammar. -/
theorem readValue_sound (h : readValue n cs = some (v, rest)) :
    ∃ w, cs = w ++ rest ∧ Spells w (.value v) := by
  induction n generalizing cs v rest with
  | zero => cases h
  | succ n ih =>
    cases cs with
    | nil => cases h
    | cons c cs =>
      rw [readValue] at h
      split at h
      · next hc =>
        obtain ⟨⟨s, cs'⟩, hchars, hpair⟩ := Option.map_eq_some_iff.1 h
        cases hpair
        obtain ⟨w, rfl, hw⟩ := readChars_sound hchars
        exact ⟨'"' :: (w ++ ['"']), by simp [hc], .text hw⟩
      split at h
      · next hc =>
        obtain ⟨⟨vs, cs'⟩, hread, hpair⟩ := Option.map_eq_some_iff.1 h
        cases hpair
        rcases enclosed_sound hread with ⟨b, rfl, hb, rfl⟩ | hread
        · exact ⟨'[' :: (b ++ [']']), by simp [hc], .noElement hb⟩
        · obtain ⟨w, rfl, hw⟩ := separated_sound .last .more (padded_sound ih) hread
          exact ⟨'[' :: (w ++ [']']), by simp [hc], .list hw⟩
      split at h
      · next hc =>
        obtain ⟨⟨es, cs'⟩, hread, hpair⟩ := Option.map_eq_some_iff.1 h
        cases hpair
        rcases enclosed_sound hread with ⟨b, rfl, hb, rfl⟩ | hread
        · exact ⟨'{' :: (b ++ ['}']), by simp [hc], .noMember hb⟩
        · obtain ⟨w, rfl, hw⟩ :=
            separated_sound .lastMember .moreMembers (readMember_sound ih) hread
          exact ⟨'{' :: (w ++ ['}']), by simp [hc], .dict hw⟩
      split at h
      · obtain ⟨v', hnumber, hpair⟩ := Option.map_eq_some_iff.1 h
        cases hpair
        exact ⟨_, List.takeWhile_append_dropWhile.symm,
          .number (number?_eq_some_iff.1 hnumber)⟩
      · exact readWord_sound h

end Sound

/-- **The decoder accepts the documents and nothing else.**  So a document
stands for one value. -/
theorem decode_eq_some_iff {text : String} {v : Value} :
    decode text = some v ↔ Document text v := by
  constructor
  · intro h
    unfold decode at h
    split at h
    · next v' hread =>
      cases h
      obtain ⟨w, hw, helement⟩ := padded_sound readValue_sound hread
      rw [List.append_nil] at hw
      rw [Document, hw]
      exact helement
    · cases h
  · intro h
    have hread : padded (readValue (text.length + 1)) (text.toList ++ []) = some (v, []) :=
      h.read text.length [] (String.length_toList ..).le fun _ hc => nomatch hc
    rw [List.append_nil] at hread
    rw [decode, hread]

end SharpScript.Json
