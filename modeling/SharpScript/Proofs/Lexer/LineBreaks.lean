import SharpScript.Proofs.Lexer.Slice
import SharpScript.Token.Display

/-! # Texts on lines of their own

Where a text stands, and what trivia comes before it, moves its rows and its faults and changes
nothing else about them.  Behind a line break a text is therefore listed as if it stood alone,
with its offsets and its lines counted from there.

## Main Definitions

* `Place.moved`, `TokenRow.moved`, `Fault.moved`: the same a number of
  characters and lines further on;
* `Lexer.Relocates`: a change of places that the characters read go along with.

## Main Results

* `rows_pieces_relocated`: the rows of a text that is relocated, and its fault;
* `rows_tokenize_append`: the rows of a text behind a text and a line break, and its fault;
* `tokenize_local`: **tokenization is local across line breaks**.
-/

namespace SharpScript

/-- The place `n` characters and `k` lines further on. -/
def Place.moved (n k : Nat) (p : Place) : Place :=
  { p with offset := p.offset + n, line := p.line + k }

/-- The row `n` characters and `k` lines further on. -/
def TokenRow.moved (n k : Nat) (r : TokenRow) : TokenRow :=
  { r with place := r.place.moved n k, stop := r.stop + n }

/-- The fault `n` characters and `k` lines further on. -/
def Fault.moved (n k : Nat) (f : Fault) : Fault := { f with place := f.place.moved n k }

/-- The row with the place that `f` gives, `n` characters further on. -/
def TokenRow.relocated (f : Place → Place) (n : Nat) (r : TokenRow) : TokenRow :=
  { r with place := f r.place, stop := r.stop + n }

/-- The fault at the place that `f` gives. -/
def Fault.relocated (f : Place → Place) (x : Fault) : Fault := { x with place := f x.place }

/-- The rows of a text, or its fault. -/
def Tokenized.listing (e : Except Fault Tokenized) : Except Fault (List TokenRow) :=
  e.map Tokenized.rows

theorem Place.step_moved (n k : Nat) (p : Place) (c : Char) :
    (p.moved n k).step c = (p.step c).moved n k := by
  simp only [Place.step, Place.moved, Place.mk.injEq, and_true]
  refine ⟨by omega, ?_⟩
  split <;> omega

theorem Place.after_moved (n k : Nat) (p : Place) (cs : List Char) :
    (p.moved n k).after cs = (p.after cs).moved n k := by
  induction cs generalizing p with
  | nil => rfl
  | cons c cs ih => rw [Place.after_cons, Place.after_cons, Place.step_moved, ih]

theorem Place.line_after (p : Place) (cs : List Char) :
    (p.after cs).line = p.line + cs.count '\n' := by
  induction cs generalizing p with
  | nil => rfl
  | cons c cs ih =>
    rw [Place.after_cons, ih, List.count_cons]
    simp only [Place.step]
    split <;> omega

/-- Behind a line break, a place depends on the number of characters and
lines before it alone. -/
theorem Place.step_newline (cs : List Char) :
    (Place.start.after cs).step '\n' =
      Place.start.moved (cs.length + 1) (1 + cs.count '\n') := by
  have hline := Place.line_after .start cs
  have hoffset := Place.offset_after .start cs
  simp only [Place.start] at hline hoffset
  simp [Place.step, Place.moved, Place.start, hline, hoffset]
  omega

namespace Lexer

/-- The place map `f` puts a text `n` characters further on: it goes along with the characters
that are read, and what stands at the head of a text does not depend on it.  `I` says of which
places and texts behind them this holds. -/
structure Relocates (f : Place → Place) (n : Nat) (I : Place → List Char → Prop) : Prop where
  after : ∀ {p : Place} {w r : List Char}, I p (w ++ r) →
    (f p).after w = f (p.after w) ∧ I (p.after w) r
  offset : ∀ p : Place, (f p).offset = p.offset + n
  piece : ∀ {p : Place} {c : Char} {cs : List Char}, I p (c :: cs) →
    Lexer.piece (f p).bare c cs = Lexer.piece p.bare c cs

theorem row_token_relocated {f : Place → Place} {n : Nat} {p : Place}
    (hp : (f p).offset = p.offset + n) (k : Kind) (w g g' : List Char) :
    (token k w g' (f p)).row = (token k w g p).row.relocated f n := by
  have hstop : (token k w g' (f p)).stop = (token k w g p).stop + n := by
    show (f p).offset + _ = p.offset + _ + n
    rw [hp, Nat.add_right_comm]
    rfl
  exact congrArg (TokenRow.mk _ _ _) hstop

/-- A piece has a first character, and is behind it as long as the lexer says. -/
theorem drop_piece {bare : Bool} {c : Char} {cs : List Char} {q : Piece}
    (h : piece bare c cs = .ok q) {m : Nat} (hm : q = .trivia m ∨ ∃ k, q = .token k m) :
    (c :: cs).drop m = cs.drop (m - 1) := by
  have hpos : 0 < m := by
    rw [piece_eq] at h
    split at h
    · cases h
    · rename_i n htrivia
      cases h
      rcases hm with ⟨⟨⟩⟩ | ⟨k, ⟨⟩⟩
      exact (trivia_length htrivia).1
    · obtain ⟨k, n, rfl, hn, -⟩ := tokenHead_length h
      rcases hm with ⟨⟨⟩⟩ | ⟨k, ⟨⟩⟩
      exact hn
  rw [← Nat.succ_pred_eq_of_pos hpos]
  rfl

theorem rows_prepend (u : Token) (t : Tokenized) :
    ({ t with tokens := u :: t.tokens } : Tokenized).rows = u.row :: t.rows := rfl

/-- **The rows of a text that is relocated are relocated,** and so is its fault.  The trivia
before the text is not listed. -/
theorem rows_pieces_relocated {f : Place → Place} {n : Nat} {I : Place → List Char → Prop}
    (hf : Relocates f n I) {p : Place} (g g' : List Char) {skip : Nat} {cs : List Char}
    (hp : I p (cs.drop skip)) :
    Tokenized.listing (pieces (f p) g' skip cs) =
      ((Tokenized.listing (pieces p g skip cs)).map
        (List.map (TokenRow.relocated f n))).mapError (Fault.relocated f) := by
  induction cs generalizing p g g' skip with
  | nil =>
    have hoffset := hf.offset p
    cases skip <;> simp [pieces, Tokenized.listing, Tokenized.rows, TokenRow.finish,
      Except.map, Except.mapError, TokenRow.relocated, hoffset]
  | cons c cs ih =>
    cases skip with
    | succ skip => exact ih g g' hp
    | zero =>
      have hafter : ∀ m, (f p).after ((c :: cs).take m) = f (p.after ((c :: cs).take m)) ∧
          I (p.after ((c :: cs).take m)) ((c :: cs).drop m) := fun m =>
        hf.after ((List.take_append_drop m (c :: cs)).symm ▸ hp)
      rw [pieces, pieces, hf.piece hp]
      cases hpiece : piece p.bare c cs with
      | error snag =>
        show Except.error _ = Except.error _
        rw [Snag.fault, (hafter snag.offset).1]
        rfl
      | ok q =>
        cases q with
        | trivia m =>
          have hleft := (hafter m).2
          rw [drop_piece hpiece (.inl rfl)] at hleft
          simp only [(hafter m).1]
          exact ih _ _ hleft
        | token kind m =>
          have hleft := (hafter m).2
          rw [drop_piece hpiece (.inr ⟨kind, rfl⟩)] at hleft
          simp only [(hafter m).1]
          have hrest := ih [] [] hleft
          revert hrest
          cases pieces (f (p.after ((c :: cs).take m))) [] (m - 1) cs <;>
            cases pieces (p.after ((c :: cs).take m)) [] (m - 1) cs <;>
            simp only [Tokenized.listing, Except.map, Except.mapError, Except.ok.injEq,
              Except.error.injEq, reduceCtorEq, imp_self, rows_prepend, List.map_cons,
              List.cons.injEq]
          intro hrows
          exact ⟨row_token_relocated (hf.offset p) _ _ _ _, hrows⟩

theorem relocates_moved (n k : Nat) : Relocates (Place.moved n k) n fun _ _ => True where
  after _ := ⟨Place.after_moved n k _ _, trivial⟩
  offset _ := rfl
  piece _ := rfl

/-- The rows of a text that is moved are moved, and so is its fault. -/
theorem rows_pieces_moved (n k : Nat) (p : Place) (g g' : List Char) (cs : List Char) :
    Tokenized.listing (pieces (p.moved n k) g' 0 cs) =
      ((Tokenized.listing (pieces p g 0 cs)).map (List.map (TokenRow.moved n k))).mapError
        (Fault.moved n k) :=
  rows_pieces_relocated (relocates_moved n k) g g' trivial

theorem Cut.stop_eq {p : Place} {g cs : List Char} {t : Tokenized} (h : Cut p g cs t) :
    t.stop = p.after cs := by
  induction h with
  | nil p g => rfl
  | blank _ _ ih => exact ih
  | remark _ _ ih => rw [ih, Place.after_append]
  | token _ _ ih =>
    rw [Place.after_append]
    exact ih

end Lexer

open Lexer

/-- The rows of a text behind the text `s₁` and a line break, or its fault. -/
theorem rows_tokenize_append {s₁ : String} {t₁ : Tokenized} (h : tokenize s₁ = .ok t₁)
    (s₂ : String) :
    Tokenized.listing (tokenize (s₁ ++ "\n" ++ s₂)) =
      ((Tokenized.listing (tokenize s₂)).map fun rows => t₁.tokens.map Token.row ++
        rows.map (TokenRow.moved (s₁.length + 1) (1 + s₁.toList.count '\n'))).mapError
          (Fault.moved (s₁.length + 1) (1 + s₁.toList.count '\n')) := by
  have hcut := cut_of_pieces_eq h
  have hend : LineEnd ('\n' :: s₂.toList) := fun c hc => (Option.some.inj hc).symm
  have hchars : (s₁ ++ "\n" ++ s₂).toList = s₁.toList ++ '\n' :: s₂.toList := by simp
  have hplace :
      t₁.stop.step '\n' = Place.start.moved (s₁.length + 1) (1 + s₁.toList.count '\n') := by
    rw [hcut.stop_eq, Place.step_newline, String.length_toList]
  have hmoved := rows_pieces_moved (s₁.length + 1) (1 + s₁.toList.count '\n') .start []
    (t₁.gap.toList ++ ['\n']) s₂.toList
  rw [tokenize, tokenize, hchars, hcut.pieces_append (.inl hend),
    pieces_blank rfl, hplace]
  revert hmoved
  cases pieces (Place.start.moved (s₁.length + 1) (1 + s₁.toList.count '\n'))
      (t₁.gap.toList ++ ['\n']) 0 s₂.toList <;>
    cases pieces .start [] 0 s₂.toList <;>
    simp only [Tokenized.listing, Except.map, Except.mapError, Except.ok.injEq,
      Except.error.injEq, reduceCtorEq, imp_self]
  intro hrows
  rw [← hrows]
  simp [Tokenized.rows, prepend]

/-- **Tokenization is local across line breaks.**  Behind a text that is cut and a line break,
a text is cut if it is when it stands alone.  Its rows come behind those of the first text, and
its fault has the same wording; the offsets, lines and columns are those it has alone, counted
on from the line break. -/
theorem tokenize_local {s₁ : String} {t₁ : Tokenized} (h : tokenize s₁ = .ok t₁)
    (s₂ : String) :
    ((∃ t, tokenize (s₁ ++ "\n" ++ s₂) = .ok t) ↔ ∃ t₂, tokenize s₂ = .ok t₂) ∧
    (∀ t₂ t, tokenize s₂ = .ok t₂ → tokenize (s₁ ++ "\n" ++ s₂) = .ok t →
      t.rows = t₁.rows.dropLast ++ t₂.rows.map fun r =>
        { label := r.label
          text := r.text
          place := { r.place with
            offset := r.place.offset + (s₁.length + 1)
            line := r.place.line + (1 + s₁.toList.count '\n') }
          stop := r.stop + (s₁.length + 1) }) ∧
    (∀ f₂ f, tokenize s₂ = .error f₂ → tokenize (s₁ ++ "\n" ++ s₂) = .error f →
      f.flaw.message = f₂.flaw.message ∧
        f.place.line = f₂.place.line + (1 + s₁.toList.count '\n') ∧
        f.place.col = f₂.place.col) := by
  have hrows := rows_tokenize_append h s₂
  have hdrop : t₁.rows.dropLast = t₁.tokens.map Token.row := List.dropLast_concat
  rw [hdrop]
  cases h₂ : tokenize s₂ with
  | ok t₂ =>
    cases hboth : tokenize (s₁ ++ "\n" ++ s₂) with
    | error f => rw [h₂, hboth] at hrows; cases hrows
    | ok t =>
      rw [h₂, hboth] at hrows
      refine ⟨by simp, fun _ _ h₂ h => ?_, fun _ _ h => nomatch h⟩
      cases h₂
      cases h
      exact Except.ok.inj hrows
  | error f₂ =>
    cases hboth : tokenize (s₁ ++ "\n" ++ s₂) with
    | ok t => rw [h₂, hboth] at hrows; cases hrows
    | error f =>
      rw [h₂, hboth] at hrows
      obtain rfl : f = f₂.moved _ _ := Except.error.inj hrows
      refine ⟨by simp, by simp, fun _ _ h₂ h => ?_⟩
      cases h₂
      cases h
      exact ⟨rfl, rfl, rfl⟩

/-- A comment and a directive that the end of the first text cuts short
end at the line break. -/
theorem tokenize_local_comment :
    ∃ t₁ f₂, tokenize "x\n#if // y" = .ok t₁ ∧ tokenize "z \"" = .error f₂ ∧
      ∃ f, tokenize ("x\n#if // y" ++ "\n" ++ "z \"") = .error f ∧
        f.flaw.message = f₂.flaw.message ∧ f.place.line = f₂.place.line + 2 ∧
        f.place.col = f₂.place.col := by
  obtain ⟨t₁, h⟩ : ∃ t₁, tokenize "x\n#if // y" = .ok t₁ := ⟨_, rfl⟩
  exact ⟨t₁, _, h, rfl, _, rfl, (tokenize_local h "z \"").2.2 _ _ rfl rfl⟩

end SharpScript
