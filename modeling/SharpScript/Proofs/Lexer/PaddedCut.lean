import Mathlib.Data.List.Find
import SharpScript.Proofs.Lexer.Padding
import SharpScript.Proofs.Lexer.Spans
import SharpScript.Proofs.Parser.Nesting

/-! # Tokens of padded texts

Where equals signs are repeated, the operators that begin with neither `=` nor `>` stay
as they are.  Runs of those two signs may be cut into other operators than before, but
none of these is a bracket.

## Main Definitions

* `isLink`: the signs `=` and `>`;
* `Linked`: texts that are padded behind their leading links.

## Main Results

* `Munch.padded`, `Remark.padded`: tokens and remarks of a padded text;
* `pieces_links`: a run of links is cut into operators that are no brackets;
* `Cut.padded`: **a padded text is cut into tokens with the same brackets**.

## Design Notes

The text behind an operator need not be padded, since `<=` takes only one of the equals signs
that are repeated.  It is padded behind the links that it begins with, so `Linked` is what
every step of the lexer keeps.
-/

namespace SharpScript.Lexer

/-- The signs of operators such as `=`, `==`, `=>` and `>=`. -/
def isLink (c : Char) : Bool := c == '=' || c == '>'

theorem isLink_iff {c : Char} : isLink c = true ↔ c = '=' ∨ c = '>' := by
  simp [isLink]

/-- The texts are padded behind the links that they begin with. -/
def Linked (cs ds : List Char) : Prop := Padded (cs.dropWhile isLink) (ds.dropWhile isLink)

theorem Padded.linked {cs ds : List Char} (h : Padded cs ds) :
    Linked cs ds := h.dropWhile isLink

/-- The same bracket, or none, wherever the two lexemes stand. -/
def SameSign (k : Kind) (w : List Char) (k' : Kind) (w' : List Char) : Prop :=
  ∀ g p g' p', (token k w g p).sign? = (token k' w' g' p').sign?

theorem sameSign_refl (k : Kind) (w : List Char) : SameSign k w k w :=
  fun _ _ _ _ => Token.sign?_of_content rfl

theorem sameSign_of_kinds {k k' : Kind} (hk : k ≠ .operator) (hk' : k' ≠ .operator)
    (w w' : List Char) : SameSign k w k' w' := by
  intro g p g' p'
  rw [Token.sign?_of_kind (t := token k w g p) hk,
    Token.sign?_of_kind (t := token k' w' g' p') hk']

/-! ## Tokens -/

section Heads

variable {c : Char} {cs ds : List Char}

theorem startsString_padded (h : Padded cs ds) : startsString ds = startsString cs := by
  have hsplit : ∀ marks rest : List Char, marks ++ '"' :: rest = (marks ++ ['"']) ++ rest := by
    simp
  have hfree : ∀ {marks : List Char}, (∀ c ∈ marks, isMark c = true) →
      '=' ∉ marks ++ ['"'] := by
    intro marks hmarks hmem
    rcases List.mem_append.mp hmem with hmem | hmem
    · cases hmarks _ hmem
    · cases List.mem_singleton.mp hmem
  rw [Bool.eq_iff_iff, startsString_iff, startsString_iff]
  constructor
  · rintro ⟨marks, rest, rfl, hmarks, hlen⟩
    rw [hsplit] at h
    obtain ⟨x, rfl, -⟩ := h.of_append_padded (hfree hmarks)
    exact ⟨marks, x, (hsplit marks x).symm, hmarks, hlen⟩
  · rintro ⟨marks, rest, rfl, hmarks, hlen⟩
    rw [hsplit] at h
    obtain ⟨y, rfl, -⟩ := h.of_append (hfree hmarks)
    exact ⟨marks, y, (hsplit marks y).symm, hmarks, hlen⟩

theorem startsNumber_padded (c : Char) (h : Padded cs ds) :
    startsNumber (c :: ds) = startsNumber (c :: cs) := by
  by_cases hc : c = '.'
  · subst hc
    show digitNext ds = digitNext cs
    rw [digitNext, digitNext, h.head?_eq]
  · rw [startsNumber.eq_2 _ fun _ heq => hc (List.cons.inj heq).1,
      startsNumber.eq_2 _ fun _ heq => hc (List.cons.inj heq).1]
    rfl

theorem stringLength_padded (hs : startsString cs = true) (h : Padded cs ds) {n : Nat}
    (hn : stringLength cs = .ok n) :
    ∃ m, stringLength ds = .ok m ∧ Padded (cs.drop n) (ds.drop m) := by
  obtain ⟨marks, rest, rfl, hmarks, -⟩ := startsString_iff.mp hs
  have hfree : '=' ∉ marks := fun hmem => nomatch hmarks _ hmem
  obtain ⟨y, rfl, hy⟩ := h.of_append hfree
  obtain ⟨rest', rfl, hrest⟩ := hy.of_cons_of_ne (by decide)
  rw [stringLength_eq hmarks] at hn ⊢
  obtain ⟨m, hm, hdrop⟩ := stringRest_padded hrest marks n (by rw [hn]; rfl)
  cases hlength : stringRest marks rest' with
  | error snag => rw [hlength] at hm; cases hm
  | ok m' =>
    rw [hlength] at hm
    cases hm
    exact ⟨_, rfl, hdrop⟩

/-- The operator that stands at the head of a text. -/
theorem operator_of_length {n : Nat} (h : operatorLength? cs = some n) :
    ∃ op ∈ operators, op.toList <+: cs ∧ op.toList.length = n ∧ op.toList ≠ [] := by
  obtain ⟨op, hop, rfl⟩ := Option.map_eq_some_iff.mp h
  have hpre := List.find?_some hop
  rw [List.isPrefixOf_iff_prefix] at hpre
  have hpos : ∀ op ∈ operators, op.toList ≠ [] := by decide
  have hmem := List.mem_of_find?_eq_some hop
  exact ⟨op, hmem, hpre, String.length_toList, hpos op hmem⟩

theorem exists_operatorLength (op : String) (hop : op ∈ operators) (hpre : op.toList <+: cs) :
    ∃ n, operatorLength? cs = some n := by
  have hfound : (operators.find? fun op => op.toList.isPrefixOf cs).isSome = true :=
    List.find?_isSome.mpr ⟨op, hop, List.isPrefixOf_iff_prefix.mpr hpre⟩
  obtain ⟨op', hop'⟩ := Option.isSome_iff_exists.mp hfound
  exact ⟨_, by rw [operatorLength?, hop']; rfl⟩

/-- An equals sign stands at the end of an operator, or at its start. -/
theorem operators_equals : ∀ op ∈ operators,
    '=' ∉ op.toList.dropLast ∨ op.toList.head? = some '=' := by decide

theorem operatorLength?_padded (hc : c ≠ '=') (h : Padded cs ds) :
    operatorLength? (c :: ds) = operatorLength? (c :: cs) := by
  refine congrArg (Option.map String.length) (List.find?_congr fun op hop => ?_)
  rw [Bool.eq_iff_iff, List.isPrefixOf_iff_prefix, List.isPrefixOf_iff_prefix]
  rcases operators_equals op hop with hfree | hhead
  · exact (Padded.cons c h).prefix_iff hfree
  · obtain ⟨v, hv⟩ := List.head?_eq_some_iff.mp hhead
    simp [hv, hc.symm]

/-- The same operator stands at the head of a padded text, and what follows it is linked. -/
theorem linked_of_operatorLength? (hc : c ≠ '=') (h : Padded cs ds) {n : Nat}
    (hn : operatorLength? (c :: cs) = some n) :
    (c :: ds).take n = (c :: cs).take n ∧ Linked ((c :: cs).drop n) ((c :: ds).drop n) := by
  obtain ⟨op, hmem, hpre, rfl, hpos⟩ := operator_of_length hn
  have hfree : '=' ∉ op.toList.dropLast := by
    refine (operators_equals op hmem).resolve_right fun hhead => hc ?_
    obtain ⟨v, hv⟩ := List.head?_eq_some_iff.mp hhead
    rw [hv] at hpre
    exact (List.cons_prefix_cons.mp hpre).1.symm
  have hlast := List.dropLast_concat_getLast hpos
  generalize op.toList.dropLast = v, op.toList.getLast hpos = a at hfree hlast
  obtain ⟨x, hx⟩ := hpre
  have hcons : Padded (c :: cs) (c :: ds) := .cons c h
  rw [← hx, ← hlast, List.append_assoc] at hcons
  obtain ⟨y', hy', htail⟩ := hcons.of_append hfree
  obtain ⟨k, y, rfl, hrest, hk⟩ := Padded.of_cons htail
  -- The operator takes the first of the equals signs that are put in.
  have hcomm : List.replicate k '=' ++ a :: y = a :: (List.replicate k '=' ++ y) := by
    rcases hk with rfl | rfl
    · rfl
    · exact replicate_append_cons k '=' y
  have hds : c :: ds = op.toList ++ (List.replicate k '=' ++ y) := by
    rw [hy', hcomm, ← hlast, List.append_assoc]
    rfl
  rw [← hx, hds, List.take_left, List.take_left, List.drop_left, List.drop_left]
  refine ⟨rfl, ?_⟩
  unfold Linked
  rw [List.dropWhile_append_of_pos (by simp [isLink])]
  exact hrest.linked

/-- **The token at the head of a padded text.**  It is the same operator as before, or no
operator just as before. -/
theorem tokenHead_padded (hc : c ≠ '=') (h : Padded cs ds) {k : Kind} {n : Nat}
    (htoken : tokenHead c cs = .ok (.token k n)) :
    ∃ k' m, tokenHead c ds = .ok (.token k' m) ∧ Linked ((c :: cs).drop n) ((c :: ds).drop m) ∧
      SameSign k ((c :: cs).take n) k' ((c :: ds).take m) := by
  have hcons : Padded (c :: cs) (c :: ds) := .cons c h
  have hword : Padded ((c :: cs).drop (1 + run isWordPart cs))
      ((c :: ds).drop (1 + run isWordPart ds)) := by
    rw [← List.drop_drop, ← List.drop_drop]
    exact steadyLength_run isWordPart cs ds h
  unfold tokenHead at htoken ⊢
  rw [startsString_padded hcons, startsNumber_padded c h]
  split_ifs at htoken ⊢ with hs hquote hnumber
  · cases hn : stringLength (c :: cs) with
    | error snag => rw [hn] at htoken; cases htoken
    | ok n =>
      rw [hn] at htoken
      cases htoken
      obtain ⟨m, hm, hdrop⟩ := stringLength_padded hs hcons hn
      rw [hm]
      exact ⟨_, m, rfl, hdrop.linked, sameSign_of_kinds (by decide) (by decide) _ _⟩
  · unfold characterLength at htoken ⊢
    cases hn : quotedRest '\'' cs with
    | none => rw [hn] at htoken; cases htoken
    | some n =>
      rw [hn] at htoken
      cases htoken
      obtain ⟨m, hm, hdrop⟩ := steady_quotedRest (by decide) cs ds h n hn
      rw [hm]
      refine ⟨_, _, rfl, Padded.linked ?_, sameSign_of_kinds (by decide) (by decide) _ _⟩
      rwa [← List.drop_drop, ← List.drop_drop]
  · cases htoken
    exact ⟨_, _, rfl, (steadyLength_number _ _ hcons).linked,
      sameSign_of_kinds (by decide) (by decide) _ _⟩
  · unfold wordOrOperator at htoken ⊢
    rw [h.head?_eq, operatorLength?_padded hc h]
    split_ifs at htoken ⊢
    · cases htoken
      refine ⟨_, _, rfl, hword.linked, sameSign_of_kinds ?_ ?_ _ _⟩ <;>
        unfold wordKind <;> split <;> decide
    · cases htoken
      exact ⟨_, _, rfl, hword.linked, sameSign_of_kinds (by decide) (by decide) _ _⟩
    · cases hn : operatorLength? (c :: cs) with
      | none => rw [hn] at htoken; cases htoken
      | some n =>
        rw [hn] at htoken
        cases htoken
        obtain ⟨htake, hdrop⟩ := linked_of_operatorLength? hc h hn
        refine ⟨_, n, rfl, hdrop, ?_⟩
        rw [htake]
        exact sameSign_refl _ _

end Heads

theorem trivia_none_padded {bare : Bool} {c : Char} {cs ds : List Char} (h : Padded cs ds)
    (hnone : trivia bare (c :: cs) = .ok none) : trivia bare (c :: ds) = .ok none := by
  have hcons : Padded (c :: cs) (c :: ds) := .cons c h
  rw [trivia_eq_none_iff] at hnone ⊢
  rwa [hcons.prefix_iff (by decide), hcons.prefix_iff (by decide)]

/-- A token of a padded text that begins with no link. -/
theorem Munch.padded {k : Kind} {w r ds : List Char} (hw : Munch k w r)
    (hlink : ∀ c ∈ (w ++ r).head?, isLink c = false) (h : Padded (w ++ r) ds) :
    ∃ k' w' r', ds = w' ++ r' ∧ Munch k' w' r' ∧ Linked r r' ∧ SameSign k w k' w' := by
  obtain ⟨c, v, rfl, hpiece⟩ := hw
  have hc : c ≠ '=' := by
    rintro rfl
    cases hlink '=' rfl
  rw [List.cons_append] at h
  obtain ⟨ds, rfl, htail⟩ := h.of_cons_of_ne hc
  obtain ⟨-, htoken⟩ := piece_eq_token_iff.mp (hpiece false)
  obtain ⟨k', m, htoken', hdrop, hsign⟩ := tokenHead_padded hc htail htoken
  obtain ⟨_, _, heq, hpos, hle⟩ := tokenHead_length htoken'
  cases heq
  obtain ⟨m, rfl⟩ := Nat.exists_eq_succ_of_ne_zero hpos.ne'
  rw [← List.cons_append, List.take_left] at hsign
  rw [← List.cons_append, List.drop_left] at hdrop
  refine ⟨k', c :: ds.take m, ds.drop m,
    by simp, ⟨c, ds.take m, rfl, fun bare => ?_⟩, hdrop, hsign⟩
  rw [List.take_append_drop, List.length_cons, List.length_take, Nat.min_eq_left (by omega)]
  exact piece_eq_token_iff.mpr
    ⟨trivia_none_padded htail (piece_eq_token_iff.mp (hpiece bare)).1, htoken'⟩

/-! ## Remarks -/

theorem trivia_padded {bare : Bool} {c : Char} {cs ds : List Char} (hblank : isBlank c = false)
    (h : Padded cs ds) {n : Nat} (hn : trivia bare (c :: cs) = .ok (some n)) :
    ∃ m, trivia bare (c :: ds) = .ok (some m) ∧
      Padded ((c :: cs).drop n) ((c :: ds).drop m) := by
  unfold trivia at hn
  split at hn
  · cases hn
  · rename_i x heq
    obtain ⟨rfl, rfl⟩ := List.cons.inj heq
    obtain ⟨y, rfl, hy⟩ := h.of_cons_of_ne (by decide)
    cases hn
    refine ⟨_, rfl, ?_⟩
    rw [← List.drop_drop, ← List.drop_drop]
    exact steadyLength_run _ x y hy
  · rename_i x heq
    obtain ⟨rfl, rfl⟩ := List.cons.inj heq
    obtain ⟨y, rfl, hy⟩ := h.of_cons_of_ne (by decide)
    split at hn
    · rename_i n hrest
      cases hn
      obtain ⟨m, hrest', hdrop⟩ := steady_commentRest x y hy n hrest
      refine ⟨2 + m, by simp only [trivia, hrest'], ?_⟩
      rwa [← List.drop_drop, ← List.drop_drop]
    · cases hn
  · rename_i heq
    obtain ⟨rfl, rfl⟩ := List.cons.inj heq
    rw [if_neg (by simp [hblank])] at hn
    split at hn
    · rename_i hsharp
      cases hn
      obtain rfl : c = '#' := beq_iff_eq.mp (Bool.and_eq_true_iff.mp hsharp).1
      refine ⟨1 + lineRest ds, ?_, ?_⟩
      · rw [trivia.eq_4 _ _ _ (by simp) (by simp), if_neg (by decide), if_pos hsharp]
      · rw [← List.drop_drop, ← List.drop_drop]
        exact steadyLength_run _ cs ds h
    · cases hn

/-- A remark of a padded text. -/
theorem Remark.padded {bare : Bool} {w r ds : List Char} (hw : Remark bare w r)
    (h : Padded (w ++ r) ds) : ∃ w' r', ds = w' ++ r' ∧ Remark bare w' r' ∧ Padded r r' := by
  obtain ⟨c, v, rfl, hblank, htrivia⟩ := hw
  have hc : c ≠ '=' := by
    rintro rfl
    rw [trivia_eq_none_iff.mpr (by simp [isBlank])] at htrivia
    cases htrivia
  rw [List.cons_append] at h
  obtain ⟨ds, rfl, htail⟩ := h.of_cons_of_ne hc
  obtain ⟨m, htrivia', hdrop⟩ := trivia_padded hblank htail htrivia
  obtain ⟨hpos, hle⟩ := trivia_length htrivia'
  obtain ⟨m, rfl⟩ := Nat.exists_eq_succ_of_ne_zero hpos.ne'
  rw [← List.cons_append, List.drop_left] at hdrop
  refine ⟨c :: ds.take m, ds.drop m, by simp, ⟨c, ds.take m, rfl, hblank, ?_⟩, hdrop⟩
  rw [List.take_append_drop, List.length_cons, List.length_take,
    Nat.min_eq_left (by simpa using hle)]
  exact htrivia'

theorem bare_after_of_notMem {p : Place} (hp : p.bare = false) {w : List Char}
    (hw : '\n' ∉ w) :
    (p.after w).bare = false := by
  induction w generalizing p with
  | nil => exact hp
  | cons c w ih =>
    rw [List.mem_cons, not_or] at hw
    exact ih (by simp [Place.step, hp, Ne.symm hw.1]) hw.2

/-- A line is not bare behind a remark. -/
theorem Remark.bare_after {bare : Bool} {w r : List Char} (hw : Remark bare w r) (p : Place) :
    (p.after w).bare = false := by
  have hpiece : TriviaPiece [] r w := hw.triviaPiece fun _ => ⟨[], [], rfl, .inl rfl, by simp⟩
  cases hpiece with
  | blank hc =>
    -- A remark does not begin with a blank.
    obtain ⟨c, v, heq, hblank, -⟩ := hw
    obtain ⟨rfl, rfl⟩ := List.cons.inj heq
    simp only [List.mem_cons, List.not_mem_nil, or_false] at hc
    rcases hc with rfl | rfl | rfl | rfl | rfl <;> cases hblank
  | lineComment hv =>
    rw [Place.after_cons, Place.after_cons]
    exact bare_after_of_notMem (by simp [Place.step]) hv
  | @blockComment v hv =>
    rw [show '/' :: '*' :: (v ++ ['*', '/']) = '/' :: '*' :: v ++ ['*', '/'] from rfl,
      Place.after_append]
    simp [Place.step]
  | directive _ hv =>
    rw [Place.after_cons]
    exact bare_after_of_notMem (by simp [Place.step]) hv

/-- A line is not bare behind a token. -/
theorem Munch.bare_after {k : Kind} {w r : List Char} (hw : Munch k w r) (p : Place) :
    (p.after w).bare = false := by
  obtain ⟨-, d, hd, hsolid⟩ := hw.shape.solid
  obtain ⟨v, rfl⟩ := List.getLast?_eq_some_iff.mp hd
  rw [Place.after_append]
  exact bare_step_of_isSolid hsolid _

/-! ## Runs of links -/

/-- An operator that begins with a link is made of links. -/
theorem operators_links : ∀ op ∈ operators, op.toList.head?.any isLink = true →
    op.toList.all isLink = true := by decide

/-- A run of links begins with an operator that is made of links. -/
theorem exists_munch_link {x r : List Char} (hx : ∀ c ∈ x, isLink c = true) (hne : x ≠ [])
    (hr : ∀ c ∈ r.head?, isLink c = false) :
    ∃ w v, x = w ++ v ∧ w ≠ [] ∧ Munch .operator w (v ++ r) := by
  obtain ⟨c, x, rfl⟩ := List.exists_cons_of_ne_nil hne
  have hc := hx c List.mem_cons_self
  obtain ⟨n, hn⟩ : ∃ n, operatorLength? (c :: (x ++ r)) = some n := by
    rcases isLink_iff.mp hc with rfl | rfl
    · exact exists_operatorLength "=" (by decide) ⟨_, rfl⟩
    · exact exists_operatorLength ">" (by decide) ⟨_, rfl⟩
  obtain ⟨op, hmem, hpre, rfl, hpos⟩ := operator_of_length hn
  obtain ⟨d, u, hd⟩ := List.exists_cons_of_ne_nil hpos
  obtain rfl : d = c := by
    rw [hd] at hpre
    exact (List.cons_prefix_cons.mp hpre).1
  have hlinks := List.all_eq_true.mp (operators_links op hmem (by rw [hd]; simpa using hc))
  -- The operator is no longer than the run, since what follows the run is no link.
  have htake : (d :: (x ++ r)).takeWhile isLink = d :: x := by
    rw [← List.cons_append, List.takeWhile_append_of_pos hx]
    cases r with
    | nil => simp
    | cons e r => simp [hr e rfl]
  have hshort : op.toList <+: d :: x := by
    obtain ⟨y, hy⟩ := hpre
    rw [← htake, ← hy, List.takeWhile_append_of_pos hlinks]
    exact List.prefix_append _ _
  obtain ⟨v, hv⟩ := hshort
  refine ⟨op.toList, v, hv.symm, hpos, d, u, hd, fun bare => ?_⟩
  have htext : u ++ (v ++ r) = x ++ r := by
    rw [hd, List.cons_append] at hv
    rw [← List.append_assoc, (List.cons.inj hv).2]
  rw [htext]
  refine piece_eq_token_iff.mpr ⟨trivia_eq_none_iff.mpr ?_, ?_⟩
  · rcases isLink_iff.mp hc with rfl | rfl <;> simp [isBlank]
  · have hstring : startsString (d :: (x ++ r)) = false := by
      rcases isLink_iff.mp hc with rfl | rfl <;> rfl
    rw [tokenHead, hstring, if_neg (by decide)]
    rcases isLink_iff.mp hc with rfl | rfl <;> simp only [wordOrOperator, hn] <;> rfl

/-- **A run of links is cut into operators that are no brackets.** -/
theorem pieces_links {x r : List Char} (hx : ∀ c ∈ x, isLink c = true)
    (hr : ∀ c ∈ r.head?, isLink c = false) (p : Place) (g : List Char) :
    ∃ ts g', signs ts = [] ∧
      pieces p g 0 (x ++ r) = (pieces (p.after x) g' 0 r).map (prepend ts) := by
  induction hn : x.length using Nat.strong_induction_on generalizing x p g with
  | _ n ih =>
    subst hn
    by_cases hne : x = []
    · subst hne
      refine ⟨[], g, rfl, ?_⟩
      rw [List.nil_append, Place.after_nil]
      cases pieces p g 0 r <;> rfl
    · obtain ⟨w, v, rfl, hw, hmunch⟩ := exists_munch_link hx hne hr
      obtain ⟨ts, g', hts, hrest⟩ := ih v.length (by
        have := List.length_pos_of_ne_nil hw
        rw [List.length_append]
        omega) (fun c hc => hx c (List.mem_append_right w hc)) (p.after w) [] rfl
      refine ⟨token .operator w g p :: ts, g', ?_, ?_⟩
      · have hnone : (token .operator w g p).sign? = none := by
          have hbrackets : ∀ s ∈ ["(", "[", Text.openBrace, ")", "]", Text.closeBrace],
              s.toList.head?.any isLink = false := by decide
          refine Token.sign?_eq_none fun hmem => ?_
          obtain ⟨c, u, rfl⟩ := List.exists_cons_of_ne_nil hw
          have hc := hbrackets _ hmem
          rw [token, if_neg (by decide), String.toList_ofList] at hc
          simp [hx c (by simp)] at hc
        rw [signs_cons, hnone, hts]
        rfl
      · rw [List.append_assoc, pieces_munch hmunch, hrest, Place.after_append]
        cases pieces ((p.after w).after v) g' 0 r <;> rfl

theorem ne_newline_of_isLink {c : Char} (h : isLink c = true) : c ≠ '\n' := by
  rintro rfl
  cases h

/-- A line that is not bare stays so behind links. -/
theorem bare_after_takeWhile {p : Place} (hp : p.bare = false) (cs : List Char) :
    (p.after (cs.takeWhile isLink)).bare = false :=
  bare_after_of_notMem hp fun hmem => ne_newline_of_isLink (List.mem_takeWhile_imp hmem) rfl

/-- The links at the head of a padded text leave its line as bare as those of the text do. -/
theorem bare_after_links {p q : Place} (hbare : p.bare = q.bare) {cs ds : List Char}
    (h : Padded cs ds) :
    (p.after (cs.takeWhile isLink)).bare = (q.after (ds.takeWhile isLink)).bare := by
  have hlink : ∀ {c : Char} (p : Place), isLink c = true → (p.step c).bare = false := by
    intro c p hc
    rcases isLink_iff.mp hc with rfl | rfl <;> simp [Place.step]
  cases h with
  | nil => exact hbare
  | cons c h =>
    cases hc : isLink c with
    | false =>
      rw [List.takeWhile_cons_of_neg (by simp [hc]), List.takeWhile_cons_of_neg (by simp [hc])]
      exact hbare
    | true =>
      rw [List.takeWhile_cons_of_pos hc, List.takeWhile_cons_of_pos hc, Place.after_cons,
        Place.after_cons, bare_after_takeWhile (hlink p hc), bare_after_takeWhile (hlink q hc)]
  | again h =>
    rw [List.takeWhile_cons_of_pos rfl, List.takeWhile_cons_of_pos rfl, Place.after_cons,
      Place.after_cons, bare_after_takeWhile (hlink p rfl), bare_after_takeWhile (hlink q rfl)]

/-! ## Padded texts -/

/-- It is enough to cut what stands behind the links at the head of two texts. -/
theorem Cut.of_links {p q : Place} {g h cs ds : List Char} {t : Tokenized}
    (hcut : Cut p g cs t)
      (hrest : ∀ g' h' t', Cut (p.after (cs.takeWhile isLink)) g' (cs.dropWhile isLink) t' →
        ∃ u, Cut (q.after (ds.takeWhile isLink)) h' (ds.dropWhile isLink) u ∧
        signs u.tokens = signs t'.tokens) :
    ∃ u, Cut q h ds u ∧ signs u.tokens = signs t.tokens := by
  have hlinks : ∀ (l : List Char) (p : Place) (g : List Char), ∃ ts g', signs ts = [] ∧
      pieces p g 0 l =
        (pieces (p.after (l.takeWhile isLink)) g' 0 (l.dropWhile isLink)).map
        (prepend ts) := by
    intro l p g
    have hhead : ∀ c ∈ (l.dropWhile isLink).head?, isLink c = false := by
      intro c hc
      have := List.head?_dropWhile_not isLink l
      rw [Option.mem_def.mp hc] at this
      exact this
    obtain ⟨ts, g', hts, heq⟩ := pieces_links (x := l.takeWhile isLink)
      (fun c hc => List.mem_takeWhile_imp hc) hhead p g
    rw [List.takeWhile_append_dropWhile] at heq
    exact ⟨ts, g', hts, heq⟩
  obtain ⟨ts, g', hts, hcs⟩ := hlinks cs p g
  obtain ⟨us, h', hus, hds⟩ := hlinks ds q h
  rw [hcut.pieces_eq] at hcs
  cases hpieces : pieces (p.after (cs.takeWhile isLink)) g' 0 (cs.dropWhile isLink) with
  | error fault => rw [hpieces] at hcs; cases hcs
  | ok t' =>
    rw [hpieces] at hcs
    cases hcs
    obtain ⟨u, hu, hsigns⟩ := hrest g' h' t' (cut_of_pieces_eq hpieces)
    rw [hu.pieces_eq] at hds
    refine ⟨_, cut_of_pieces_eq hds, ?_⟩
    show signs (us ++ u.tokens) = signs (ts ++ t'.tokens)
    rw [signs_append, signs_append, hts, hus, hsigns]

/-- **A padded text is cut into tokens with the same brackets.** -/
theorem Cut.padded {p q : Place} {g h cs ds : List Char} {t : Tokenized} (hcut : Cut p g cs t)
    (hlinked : Linked cs ds)
    (hbare : (p.after (cs.takeWhile isLink)).bare = (q.after (ds.takeWhile isLink)).bare) :
    ∃ u, Cut q h ds u ∧ signs u.tokens = signs t.tokens := by
  -- The induction is on the length of the text, and behind each piece the
  -- rest is linked again.
  induction hn : cs.length using Nat.strong_induction_on generalizing p q g h cs ds t with
  | _ n ih =>
    subst hn
    refine hcut.of_links fun g' h' t' hcut' => ?_
    unfold Linked at hlinked
    have hle : (cs.dropWhile isLink).length ≤ cs.length :=
      (List.dropWhile_sublist isLink).length_le
    have hhead := List.head?_dropWhile_not isLink cs
    generalize cs.dropWhile isLink = r, ds.dropWhile isLink = r' at hcut' hlinked hle hhead
    generalize p.after (cs.takeWhile isLink) = p,
      q.after (ds.takeWhile isLink) = q at hcut' hbare
    cases hcut' with
    | nil =>
      cases hlinked
      exact ⟨_, .nil _ _, rfl⟩
    | @blank _ _ c r _ hc hrest =>
      have hne : c ≠ '=' := by
        rintro rfl
        cases hc
      obtain ⟨r', rfl, htail⟩ := hlinked.of_cons_of_ne hne
      obtain ⟨u, hu, hsigns⟩ :=
        ih r.length hle hrest (q := q.step c) (h := h' ++ [c]) htail.linked
        (bare_after_links (bare_after hbare [c]) htail) rfl
      exact ⟨u, .blank hc hu, hsigns⟩
    | @remark _ _ w r _ hw hrest =>
      obtain ⟨w', r', rfl, hw', htail⟩ := hw.padded hlinked
      have hlt : r.length < cs.length := by
        have := List.length_pos_of_ne_nil hw.ne_nil
        rw [List.length_append] at hle
        omega
      obtain ⟨u, hu, hsigns⟩ :=
        ih r.length hlt hrest (q := q.after w') (h := h' ++ w') htail.linked
        (bare_after_links ((hw.bare_after p).trans (hw'.bare_after q).symm) htail) rfl
      exact ⟨u, .remark (hbare ▸ hw') hu, hsigns⟩
    | @token _ _ w r t k hw hrest =>
      have hfirst : ∀ c ∈ (w ++ r).head?, isLink c = false := by
        intro c hc
        rw [Option.mem_def.mp hc] at hhead
        exact hhead
      obtain ⟨k', w', r', rfl, hw', htail, hsign⟩ := hw.padded hfirst hlinked
      have hlt : r.length < cs.length := by
        have := List.length_pos_of_ne_nil hw.ne_nil
        rw [List.length_append] at hle
        omega
      obtain ⟨u, hu, hsigns⟩ := ih r.length hlt hrest (q := q.after w') (h := []) htail
        (by rw [bare_after_takeWhile (hw.bare_after p),
              bare_after_takeWhile (hw'.bare_after q)]) rfl
      refine ⟨_, .token hw' hu, ?_⟩
      show signs (Lexer.token k' w' h' q :: u.tokens) =
        signs (Lexer.token k w g' p :: t.tokens)
      rw [signs_cons, signs_cons, hsign g' p h' q, hsigns]

end SharpScript.Lexer
