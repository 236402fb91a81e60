import SharpScript.Proofs.Citation

/-! # Lexemes with blanks between them

How a lexeme is read may depend on what follows it, but never on what follows a blank.  So the
lexemes of a text may be laid out anew, each behind blanks of any sort, and are cut as before.

## Main Definitions

* `spaced`: lexemes with a separator before each but the first.

## Main Results

* `Lexer.Cut.munch_alone`: a lexeme is read whole when nothing follows it;
* `Lexer.cut_spaced`: lexemes behind separators are cut one by one;
* `tokenize_spaced`: **tokens are self-delimiting**.
-/

namespace SharpScript

/-- The lexemes `ws` in order, with the separators `seps` between them. -/
def spaced (seps : List String) : List String → String
  | [] => ""
  | w :: ws => w ++ String.join (List.zipWith (· ++ ·) seps ws)

namespace Lexer

/-! ## Lexemes that stand alone -/

/-- A lexeme is read whole when nothing follows it, whatever follows it in its text. -/
theorem Cut.munch_alone {p : Place} {g cs : List Char} {t : Tokenized} (h : Cut p g cs t) :
    ∀ u ∈ t.tokens, Munch u.kind u.lexeme.toList [] := by
  induction h with
  | nil p g => exact fun u hu => nomatch hu
  | blank _ _ ih => exact ih
  | remark _ _ ih => exact ih
  | token hw _ ih =>
    rintro u (_ | ⟨_, hu⟩)
    · rw [lexeme_token hw.shape, String.toList_ofList]
      exact hw.milder (.shorter List.nil_prefix)
    · exact ih u hu

/-- A lexeme that is read whole alone is read whole before a text that stands apart. -/
theorem Munch.before_apart {k : Kind} {w r : List Char} (h : Munch k w []) (hr : Apart r) :
    Munch k w r :=
  h.milder (by simpa using Milder.append_apart hr [])

/-- The token that a lexeme becomes has the contents of the token that the lexeme is from. -/
theorem content_token_lexeme (u : Token) (g : List Char) (p : Place) :
    (token u.kind u.lexeme.toList g p).content = u.content := by
  obtain ⟨kind, text, gap, place⟩ := u
  cases kind with
  | identifier escaped => cases escaped <;> simp [token, Token.lexeme, Token.content]
  | _ => simp [token, Token.lexeme, Token.content]

/-! ## Lexemes behind separators -/

/-- Lexemes that each stand behind a separator are cut one by one, and stand apart from
what comes before them. -/
theorem cut_spaced {us : List Token} (hus : ∀ u ∈ us, Munch u.kind u.lexeme.toList [])
    {seps : List String} (hlength : seps.length = us.length)
    (hseps : ∀ sep ∈ seps, sep ≠ "" ∧ ∀ c ∈ sep.toList, isBlank c = true) (p : Place) :
    ∃ t, Cut p [] (String.join (List.zipWith (· ++ ·) seps (us.map Token.lexeme))).toList t ∧
      Apart (String.join (List.zipWith (· ++ ·) seps (us.map Token.lexeme))).toList ∧
      Alike us t.tokens := by
  induction us generalizing seps p with
  | nil =>
    obtain rfl := List.length_eq_zero_iff.mp hlength
    exact ⟨_, .nil p [], nofun, .refl []⟩
  | cons u us ih =>
    obtain ⟨sep, seps, rfl⟩ := List.exists_cons_of_length_eq_add_one hlength
    obtain ⟨hne, hblank⟩ := hseps sep List.mem_cons_self
    obtain ⟨t, hcut, hapart, halike⟩ := ih (fun v hv => hus v (List.mem_cons_of_mem u hv))
      (by simpa using hlength) (fun sep' h => hseps sep' (List.mem_cons_of_mem sep h))
      ((p.after sep.toList).after u.lexeme.toList)
    have hmunch := (hus u List.mem_cons_self).before_apart hapart
    have htext :
        (String.join
          (List.zipWith (· ++ ·) (sep :: seps) ((u :: us).map Token.lexeme))).toList =
          sep.toList ++
          (u.lexeme.toList ++
            (String.join (List.zipWith (· ++ ·) seps (us.map Token.lexeme))).toList) := by
      simp [String.join_cons]
    rw [htext]
    refine ⟨_, Cut.blanks hblank (.token hmunch hcut), apart_blanks hblank (.inl ?_), ?_⟩
    · simpa using hne
    · exact Alike.cons_iff.mpr ⟨(content_token_lexeme u _ _).symm, halike⟩

end Lexer

open Lexer

/-- The characters of the source text `s` from the start of a token to its end. -/
def Token.span (s : String) (u : Token) : String :=
  String.ofList (slice s.toList u.place.offset u.stop)

/-- What a token spans is its lexeme. -/
theorem map_span {s : String} {t : Tokenized} (h : tokenize s = .ok t) :
    t.tokens.map (Token.span s) = t.tokens.map Token.lexeme := by
  refine List.map_congr_left fun u hu => ?_
  obtain ⟨before, after, hsplit⟩ := List.append_of_mem hu
  have htokens : t.tokens = before ++ [u] ++ after := by simpa using hsplit
  have hslice : slice s.toList u.place.offset u.stop = (Token.spelling [u]).toList :=
    slice_eq_spelling h htokens rfl rfl
  rw [Token.span, hslice, String.ofList_toList]
  simp [Token.spelling]

/-- The label and the text of a row. -/
def TokenRow.content (r : TokenRow) : String × String := (r.label, r.text)

theorem contents_rows (t : Tokenized) :
    t.rows.map TokenRow.content = t.tokens.map (fun u => (u.label, u.text)) ++
      [("EOF", "")] := by
  simp [Tokenized.rows, TokenRow.finish, TokenRow.content, Token.row]

theorem Alike.labels_eq {ts us : List Token} (h : Alike ts us) :
    ts.map (fun u => (u.label, u.text)) = us.map fun u => (u.label, u.text) := by
  have hlabel : ∀ vs : List Token, vs.map (fun u => (u.label, u.text)) =
      (vs.map Token.content).map fun c => ((Token.mk c.1 c.2 "" .start).label, c.2) := by
    intro vs
    rw [List.map_map]
    rfl
  rw [hlabel ts, hlabel us, h]

/-- Lexemes with separators between them are cut into the tokens that they are from, and each
of these spans its lexeme. -/
theorem exists_tokenize_spaced (ts : List Token) (seps : List String)
    (hts : ∀ u ∈ ts, Munch u.kind u.lexeme.toList []) (hlength : seps.length = ts.length - 1)
    (hseps : ∀ sep ∈ seps, sep ≠ "" ∧ ∀ c ∈ sep.toList, isBlank c = true) :
    ∃ t, tokenize (spaced seps (ts.map Token.lexeme)) = .ok t ∧
      t.rows.map TokenRow.content = ts.map (fun u => (u.label, u.text)) ++ [("EOF", "")] ∧
      t.tokens.map (Token.span (spaced seps (ts.map Token.lexeme))) = ts.map Token.lexeme := by
  obtain ⟨t, ht, halike⟩ : ∃ t, tokenize (spaced seps (ts.map Token.lexeme)) = .ok t ∧
      Alike ts t.tokens := by
    cases ts with
    | nil => exact ⟨_, rfl, .refl []⟩
    | cons u us =>
      obtain ⟨t, hcut, hapart, halike⟩ := cut_spaced
        (fun v hv => hts v (List.mem_cons_of_mem u hv)) (by simpa using hlength) hseps
        (Place.start.after u.lexeme.toList)
      have hmunch := (hts u List.mem_cons_self).before_apart hapart
      have hwhole := Cut.token (p := .start) (g := []) hmunch hcut
      refine ⟨prepend [token u.kind u.lexeme.toList [] .start] t, ?_,
        Alike.cons_iff.mpr ⟨(content_token_lexeme u [] .start).symm, halike⟩⟩
      rw [tokenize, ← hwhole.pieces_eq]
      simp [spaced]
  exact ⟨t, ht,
    by rw [contents_rows, halike.labels_eq], (map_span ht).trans halike.lexemes_eq.symm⟩

/-- **Tokens are self-delimiting.**  What the tokens of a text span, laid out anew with blanks
of any sort between one token and the next, is cut into tokens with the same labels and texts,
and each of them spans what it did.  Alone, too, what a token spans is cut into that token. -/
theorem tokenize_spaced {s : String} {t : Tokenized} (h : tokenize s = .ok t)
    {seps : List String} (hlength : seps.length = t.tokens.length - 1)
    (hseps : ∀ sep ∈ seps, sep ≠ "" ∧ ∀ c ∈ sep.toList, isBlank c = true) :
    (∃ t', tokenize (spaced seps (t.tokens.map (Token.span s))) = .ok t' ∧
      t'.rows.map TokenRow.content = t.rows.map TokenRow.content ∧
      t'.tokens.map (Token.span (spaced seps (t.tokens.map (Token.span s)))) =
        t.tokens.map (Token.span s)) ∧
    ∀ u ∈ t.tokens, ∃ t', tokenize (u.span s) = .ok t' ∧
      t'.rows.map TokenRow.content = [(u.label, u.text), ("EOF", "")] ∧
      t'.tokens.map (Token.span (u.span s)) = [u.span s] := by
  have halone := (cut_of_pieces_eq h).munch_alone
  have hspan := map_span h
  constructor
  · rw [hspan, contents_rows]
    exact exists_tokenize_spaced t.tokens seps halone hlength hseps
  · intro u hu
    have hlexeme : u.span s = u.lexeme := List.map_inj_left.mp hspan u hu
    have hsingle := exists_tokenize_spaced [u] [] (by simpa using halone u hu) rfl nofun
    simpa [spaced, hlexeme] using hsingle

/-- An exponent, a doubled quote and a quote in a hole, which a cut at
another place would break. -/
def denseLexemes : List String :=
  ["1.5e3f", "<<=", "@\"x\"\"y\"", "$\"" ++ Text.braced "b[\"\x7d\"]" ++ "\""]

theorem tokenize_spaced_literals :
    ∃ t t', tokenize (String.join denseLexemes) = .ok t ∧
      t.tokens.map (Token.span (String.join denseLexemes)) = denseLexemes ∧
      tokenize (spaced ["\t", "\r\n", " "] denseLexemes) = .ok t' ∧
      t'.rows.map TokenRow.content = t.rows.map TokenRow.content := by
  obtain ⟨t, ht, hspans⟩ : ∃ t, tokenize (String.join denseLexemes) = .ok t ∧
      t.tokens.map (Token.span (String.join denseLexemes)) = denseLexemes :=
    ⟨_, rfl, by decide⟩
  have hlength : ["\t", "\r\n", " "].length = t.tokens.length - 1 := by
    rw [← List.length_map (f := Token.span _), hspans]
    rfl
  have hblank :
      ∀ sep ∈ ["\t", "\r\n", " "], sep ≠ "" ∧ ∀ c ∈ sep.toList, isBlank c = true := by
    simp [isBlank]
  obtain ⟨t', ht', hrows, -⟩ := (tokenize_spaced ht hlength hblank).1
  exact ⟨t, t', ht, hspans, hspans ▸ ht', hrows⟩

end SharpScript
