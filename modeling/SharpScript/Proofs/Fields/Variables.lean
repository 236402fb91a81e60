import SharpScript.Proofs.Printing.Declarations
import SharpScript.Proofs.Types.Text

/-! # The variables of a field

A field is a type and variables behind it.  Each variable is a name and what is read behind the
name, one comma stands before every further one, and a `;` behind the last.

## Main Definitions

* `Parser.FurtherVariables`, `Parser.Variables`: tokens that are the variables of a field;
* `Tiled`: stretches of tokens in order, with one comma between each and the next.

## Main Results

* `Parser.field_iff`: what a field is read as, in terms of `Parser.Variables`;
* `Parser.Variables.tiled`: the variables of a field, and commas between them, are all
  that stands up to the `;`;
* `Parser.Variables.relaid`: **the texts of variables, written anew, are read
  as the same variables**.
-/

namespace SharpScript

open Lexer

/-- The tokens `ts` down to `rest` are the stretches `ws` in order, with one comma
between each and the next. -/
inductive Tiled : List (List Token) → List Token → List Token → Prop
  | last {w rest : List Token} : Tiled [w] (w ++ rest) rest
  | next {w ts rest : List Token} {ws : List (List Token)} {c : Token}
      (hc : c.isOperator "," = true) (h : Tiled ws ts rest) :
      Tiled (w :: ws) (w ++ c :: ts) rest

namespace Parser

/-- Behind a variable of a field, the tokens `ts` are the further variables `ws`, each behind a
comma, and a `;` before `rest`. -/
inductive FurtherVariables : List (List Token) → List Token → List Token → Prop
  | done {t : Token} {rest : List Token} (ht : t.reads ";" = true) :
      FurtherVariables [] (t :: rest) rest
  | next {c name : Token} {v mid rest : List Token} {ws : List (List Token)}
      (hc : c.reads "," = true) (hname : name.kind.isIdentifier = true)
      (hread : variableRest (v ++ mid) = .ok ((), mid)) (h : FurtherVariables ws mid rest) :
      FurtherVariables ((name :: v) :: ws) (c :: name :: (v ++ mid)) rest

/-- The tokens `ts` are the variables `ws` of a field and a `;` before `rest`. -/
inductive Variables : List (List Token) → List Token → List Token → Prop
  | mk {name : Token} {v mid rest : List Token} {ws : List (List Token)}
      (hname : name.kind.isIdentifier = true) (hread : variableRest (v ++ mid) = .ok ((), mid))
      (h : FurtherVariables ws mid rest) :
      Variables ((name :: v) :: ws) (name :: (v ++ mid)) rest

variable {ts mid rest : List Token} {ws : List (List Token)} {name : Token}

/-! ## Fields -/

/-- One round behind the first variable: a comma and another variable, or none. -/
def fieldRound : Parser (Option (List String)) := do
  if ← accept "," then return some [← fieldVariable (← identifier)] else return none

theorem field_eq (name : Token) : field name = fieldVariable name >>= fun first =>
    gather fieldRound >>= fun more => expect ";" >>= fun _ => pure (.field (first :: more)) :=
  rfl

/-- A variable is its name with what belongs to it. -/
theorem fieldVariable_iff {s : String} : fieldVariable name ts = .ok (s, mid) ↔
    ∃ v, ts = v ++ mid ∧ variableRest (v ++ mid) = .ok ((), mid) ∧
    s = Token.spelling (name :: v) := by
  have hrun : fieldVariable name = consumed variableRest >>= fun r =>
      pure (Token.spelling (name :: r.2)) := rfl
  rw [hrun, bind_eq_ok]
  constructor
  · rintro ⟨⟨_, v⟩, _, hconsumed, hpure⟩
    cases hpure
    obtain ⟨hread, hv⟩ := of_consumed hconsumed
    obtain ⟨w, rfl, -⟩ := exists_append_of_reads Comparison.sim_fieldValue hread
    exact ⟨v, by rw [hv w rfl], by rwa [hv w rfl], rfl⟩
  · rintro ⟨v, rfl, hread, rfl⟩
    refine ⟨((), v), mid, ?_, rfl⟩
    simp [consumed, hread]

/-- One round reads a comma and a variable, or nothing. -/
theorem fieldRound_eq_ok {r : Option (List String)} : fieldRound ts = .ok (r, mid) ↔
    (Ahead.reads "," ts = false ∧ r = none ∧ mid = ts) ∨
      ∃ c name v, ts = c :: name :: (v ++ mid) ∧ c.reads "," = true ∧
        name.kind.isIdentifier = true ∧ variableRest (v ++ mid) = .ok ((), mid) ∧
        r = some [Token.spelling (name :: v)] := by
  unfold fieldRound
  rw [accept_bind]
  constructor
  · intro h
    split at h
    · rename_i hcomma
      obtain ⟨c, ts, rfl, hc⟩ := Comparison.exists_reads (by decide) hcomma
      obtain ⟨name, us, hname, h⟩ := bind_eq_ok.mp h
      obtain ⟨hts : ts = name :: us, hident⟩ := of_identifier hname
      obtain ⟨s, _, hvariable, hpure⟩ := bind_eq_ok.mp h
      cases hpure
      obtain ⟨v, rfl, hread, rfl⟩ := fieldVariable_iff.mp hvariable
      exact .inr ⟨c, name, v, by rw [hts], hc, hident, hread, rfl⟩
    · rename_i hcomma
      cases h
      exact .inl ⟨by simpa using hcomma, rfl, rfl⟩
  · rintro (⟨hcomma, rfl, rfl⟩ | ⟨c, name, v, rfl, hc, hident, hread, rfl⟩)
    · rw [if_neg (by simp [hcomma])]
      rfl
    · rw [if_pos (show Ahead.reads "," (c :: name :: (v ++ mid)) = true from hc)]
      refine bind_eq_ok.mpr ⟨name, v ++ mid, ?_, bind_eq_ok.mpr ⟨_, mid, ?_, rfl⟩⟩
      · rw [List.tail_cons, identifier, if_pos hident]
      · exact fieldVariable_iff.mpr ⟨v, rfl, hread, rfl⟩

/-- The rounds up to the `;` are the further variables. -/
theorem gather_fieldRound_iff {ds : List String} :
    (∃ t, gather fieldRound ts = .ok (ds, t :: rest) ∧ t.reads ";" = true) ↔
      ∃ ws, FurtherVariables ws ts rest ∧ ds = ws.map Token.spelling := by
  have hround : ∀ ts a rest, fieldRound ts = .ok (some a, rest) → rest.length < ts.length := by
    intro ts a rest h
    obtain ⟨-, h, -⟩ | ⟨c, name, v, rfl, -⟩ := fieldRound_eq_ok.mp h
    · cases h
    · simp only [List.length_cons, List.length_append]
      omega
  constructor
  · rintro ⟨t, h, ht⟩
    induction hn : ts.length using Nat.strong_induction_on generalizing ts ds with
    | _ n ih =>
      obtain ⟨hnone, rfl⟩ | ⟨a, mid, b, hsome, hrest, rfl⟩ := (gather_eq_ok hround).mp h
      · obtain ⟨-, -, rfl⟩ | ⟨_, _, _, _, _, _, _, hr⟩ := fieldRound_eq_ok.mp hnone
        · exact ⟨[], .done ht, rfl⟩
        · cases hr
      · have hlength := hround _ _ _ hsome
        obtain ⟨-, hr, -⟩ | ⟨c, name, v, rfl, hc, hname, hread, hr⟩ :=
          fieldRound_eq_ok.mp hsome
        · cases hr
        cases hr
        obtain ⟨ws, hws, rfl⟩ := ih mid.length (by omega) hrest rfl
        exact ⟨_, .next hc hname hread hws, rfl⟩
  · rintro ⟨ws, hws, rfl⟩
    induction hws with
    | @done t rest ht =>
      refine ⟨t, (gather_eq_ok hround).mpr (.inl ⟨?_, rfl⟩), ht⟩
      exact fieldRound_eq_ok.mpr
        (.inl ⟨reads_unique (w := ";") ht (by decide) (by decide), rfl, rfl⟩)
    | @next c name v mid rest ws hc hname hread _ ih =>
      obtain ⟨t, hgather, ht⟩ := ih
      refine ⟨t, (gather_eq_ok hround).mpr
        (.inr ⟨[Token.spelling (name :: v)], mid, _, ?_, hgather, rfl⟩), ht⟩
      exact fieldRound_eq_ok.mpr (.inr ⟨c, name, v, rfl, hc, hname, hread, rfl⟩)

/-- A field behind the name of its first variable. -/
theorem field_iff (hname : name.kind.isIdentifier = true) {form : MemberForm} :
    field name ts = .ok (form, rest) ↔
      ∃ ws, Variables ws (name :: ts) rest ∧ form = .field (ws.map Token.spelling) := by
  rw [field_eq]
  constructor
  · intro h
    obtain ⟨first, mid, hfirst, h⟩ := bind_eq_ok.mp h
    obtain ⟨ds, last, hgather, h⟩ := bind_eq_ok.mp h
    obtain ⟨hsemicolon, hpure⟩ := expect_bind_eq_ok.mp h
    obtain ⟨t, last, rfl, ht⟩ := Comparison.exists_reads (by decide) hsemicolon
    cases hpure
    obtain ⟨v, rfl, hread, rfl⟩ := fieldVariable_iff.mp hfirst
    obtain ⟨ws, hws, rfl⟩ := gather_fieldRound_iff.mp ⟨t, hgather, ht⟩
    exact ⟨_, .mk hname hread hws, rfl⟩
  · rintro ⟨_, ⟨_, hread, hws⟩, rfl⟩
    obtain ⟨t, hgather, ht⟩ := gather_fieldRound_iff.mpr ⟨_, hws, rfl⟩
    refine bind_eq_ok.mpr ⟨_, _, fieldVariable_iff.mpr ⟨_, rfl, hread, rfl⟩, ?_⟩
    exact bind_eq_ok.mpr ⟨_, _, hgather, expect_bind_eq_ok.mpr ⟨ht, rfl⟩⟩

/-! ## What comes behind a variable -/

theorem FurtherVariables.reads (h : FurtherVariables ws ts rest) :
    Ahead.readsAny [",", ";"] ts = true := by
  cases h with
  | done ht => simp [Ahead.readsAny, Ahead.reads, ht]
  | next hc => simp [Ahead.readsAny, Ahead.reads, hc]

/-- Behind the name of a variable comes a bracket, a value, another variable or the end. -/
theorem FurtherVariables.reads_name {v : List Token} (h : FurtherVariables ws mid rest)
    (hread : variableRest (v ++ mid) = .ok ((), mid)) :
    Ahead.readsAny ["=", ";", ",", "["] (v ++ mid) = true := by
  have hmono : ∀ {ws : List String}, ws ⊆ ["=", ";", ",", "["] →
      Ahead.readsAny ws (v ++ mid) = true →
      Ahead.readsAny ["=", ";", ",", "["] (v ++ mid) = true := by
    intro ws hws hreads
    obtain ⟨w, hw, hread⟩ := List.any_eq_true.mp hreads
    exact List.any_eq_true.mpr ⟨w, hws hw, hread⟩
  obtain hnone | hstart := variableRest_start hread
  · rw [hnone] at hmono ⊢
    exact hmono (by decide) h.reads
  · exact hmono (by decide) hstart

/-- A variable ends before the further ones. -/
theorem FurtherVariables.endsVariable (h : FurtherVariables ws ts rest)
    (hts : ∀ t ∈ ts, WellShaped t) : EndsVariable ts := by
  cases h with
  | done ht =>
    obtain ⟨hkind, htext⟩ := (hts _ List.mem_cons_self).isOperator_of_reads ht (by decide)
    refine ⟨?_, _, _, rfl, hkind, by simp [htext]⟩
    simp [endsInitializer, Ahead.isOperator, hkind, htext]
  | next hc hname hread h =>
    obtain ⟨hkind, htext⟩ := (hts _ List.mem_cons_self).isOperator_of_reads hc (by decide)
    refine ⟨?_, _, _, rfl, hkind, by simp [htext]⟩
    have hsigns : ∀ w ∈ ["=", ";", ",", "["], w ∈ ["=", ",", ";", "["] := by decide
    have hnext := hsigns _ (text_of_readsAny (h.reads_name hread))
    have hstarts : startsVariable (_ :: _) = true :=
      (Bool.and_eq_true _ _).mpr ⟨hname, List.contains_iff_mem.mpr hnext⟩
    simp [endsInitializer, Ahead.isOperator, hkind, htext, hstarts]

/-! ## Tiling -/

/-- The further variables tile what is left, with commas between them. -/
theorem FurtherVariables.tiled (h : FurtherVariables ws ts rest) (hts : ∀ t ∈ ts, WellShaped t)
    (w : List Token) :
    ∃ close, close.isOperator ";" = true ∧ Tiled (w :: ws) (w ++ ts) (close :: rest) := by
  induction h generalizing w with
  | @done t rest ht =>
    obtain ⟨hkind, htext⟩ := (hts t List.mem_cons_self).isOperator_of_reads ht (by decide)
    exact ⟨t, by simp [Token.isOperator, hkind, htext], .last⟩
  | @next c name v mid rest ws hc hname hread _ ih =>
    obtain ⟨hkind, htext⟩ := (hts c List.mem_cons_self).isOperator_of_reads hc (by decide)
    obtain ⟨close, hclose, htiled⟩ := ih (fun t ht => hts t (by simp [ht])) (name :: v)
    exact ⟨close, hclose, .next (by simp [Token.isOperator, hkind, htext]) htiled⟩

theorem FurtherVariables.ne_nil (h : FurtherVariables ws ts rest) : ∀ w ∈ ws, w ≠ [] := by
  induction h with
  | done => nofun
  | next _ _ _ _ ih => exact List.forall_mem_cons.mpr ⟨List.cons_ne_nil _ _, ih⟩

namespace Variables

/-- **The variables of a field tile it.** -/
theorem tiled (h : Variables ws ts rest) (hts : ∀ t ∈ ts, WellShaped t) :
    ∃ close, close.isOperator ";" = true ∧ Tiled ws ts (close :: rest) := by
  obtain @⟨name, v, mid, _, ws, -, -, h⟩ := h
  exact h.tiled (fun t ht => hts t (by simp [ht])) (name :: v)

theorem ne_nil (h : Variables ws ts rest) : ∀ w ∈ ws, w ≠ [] := by
  obtain @⟨name, v, mid, _, ws, -, -, h⟩ := h
  exact List.forall_mem_cons.mpr ⟨List.cons_ne_nil _ _, h.ne_nil⟩

/-- The first variable begins with its name. -/
theorem exists_name (h : Variables ws (name :: ts) rest) :
    ∃ v ws', ws = (name :: v) :: ws' := by
  cases h
  exact ⟨_, _, rfl⟩

theorem isIdentifier (h : Variables ws (name :: ts) rest) : name.kind.isIdentifier = true := by
  cases h
  assumption

/-- What is read behind the first name leaves the further variables. -/
theorem further (h : Variables ws (name :: ts) rest) :
    ∃ mid ws', variableRest ts = .ok ((), mid) ∧ FurtherVariables ws' mid rest := by
  cases h with
  | mk _ hread h => exact ⟨_, _, hread, h⟩

/-- What comes behind the first name goes on with a variable. -/
theorem reads_name (h : Variables ws (name :: ts) rest) :
    Ahead.readsAny ["=", ";", ",", "["] ts = true := by
  cases h with
  | mk _ hread h => exact h.reads_name hread

end Variables

/-! ## Variables that are written anew -/

/-- What is read of a variable is read of it in another place. -/
theorem variableRest_shift {name' : Token} {v v' r : List Token} (hmid : EndsVariable mid)
    (h : variableRest (v ++ mid) = .ok ((), mid)) (hr : EndsVariable r)
    (hshift : Shifted (name :: v) (name' :: v')) : variableRest (v' ++ r) = .ok ((), r) :=
  readsTo_iff.mp (readsTo_shift Comparison.sim_fieldValue (hshift.of_cons r)
    (readsTo_iff.mpr (variableRest_swap hmid h hr)))

end Parser

/-- The texts of variables behind a first one, and the end of a field. -/
def furtherText : List String → String
  | [] => ";"
  | d :: ds => ", " ++ d ++ furtherText ds

/-- Variables written with commas between them, the first one apart. -/
theorem intercalate_furtherText (d : String) (ds : List String) :
    ", ".intercalate (d :: ds) ++ ";" = d ++ furtherText ds := by
  induction ds generalizing d with
  | nil => rfl
  | cons e ds ih =>
    rw [String.intercalate_cons_cons, String.append_assoc, ih e, furtherText]
    simp only [String.append_assoc]

theorem apart_furtherText (ds : List String) : Apart (furtherText ds).toList := by
  cases ds with
  | nil =>
    rintro _ ⟨⟩
    decide
  | cons d ds =>
    simp only [furtherText, String.toList_append, List.append_assoc]
    rintro _ ⟨⟩
    decide

open SharpScript.Parser

variable {ts rest : List Token} {ws : List (List Token)}

/-- Wherever they are written, the texts of the further variables `ws` are
read as those variables. -/
def Relaid (ws : List (List Token)) : Prop :=
  ∀ p, ∃ us q ws', Cut p [] (furtherText (ws.map Token.spelling)).toList ⟨us, "", q⟩ ∧
    FurtherVariables ws' us [] ∧ ws'.map Token.spelling = ws.map Token.spelling

/-- A variable behind a blank, before others that are read anew. -/
theorem Relaid.variable {name : Token} {v mid : List Token} (hws : Relaid ws)
    (hts : Lexed (name :: (v ++ mid))) (hname : name.kind.isIdentifier = true)
    (hread : variableRest (v ++ mid) = .ok ((), mid)) (h : FurtherVariables ws mid rest)
    (p : Place) :
    ∃ name' us q ws', Cut p [] (' ' :: ((Token.spelling (name :: v)).toList ++
        (furtherText (ws.map Token.spelling)).toList)) ⟨name' :: us, "", q⟩ ∧
      name'.content = name.content ∧ Variables ws' (name' :: us) [] ∧
      ws'.map Token.spelling = Token.spelling (name :: v) :: ws.map Token.spelling := by
  have hsplit : Lexed ((name :: v) ++ mid) := hts
  have hmid := hsplit.of_append_right
  have hw := hsplit.of_append_left
  obtain ⟨xs, q, hxs, hshift, -⟩ := hw.cut_gap (List.cons_ne_nil _ _) (p.step ' ') [' ']
  obtain ⟨us, q', ws', hus, hws', hmap⟩ := hws q
  obtain ⟨name', v', rfl⟩ : ∃ name' v', xs = name' :: v' := by
    cases xs with
    | nil => exact absurd hshift.alike.length_eq (by simp)
    | cons name' v' => exact ⟨name', v', rfl⟩
  have hhead := (Alike.cons_iff.mp hshift.alike).1
  obtain ⟨hkind, -⟩ := Prod.mk.inj hhead
  refine ⟨name', v' ++ us, q', (name' :: v') :: ws', ?_, hhead.symm, .mk ?_ ?_ hws', ?_⟩
  · exact .blank rfl (hxs.append (.inr ⟨rfl, apart_furtherText _⟩) hus)
  · rwa [← hkind]
  · exact variableRest_shift (h.endsVariable hmid.wellShaped) hread
      (hws'.endsVariable hus.lexed.wellShaped) hshift
  · rw [List.map_cons, hmap, hshift.spelling_eq]

/-- Each of the further variables can be written anew. -/
theorem Parser.FurtherVariables.relaid (h : FurtherVariables ws ts rest) (hts : Lexed ts) :
    Relaid ws := by
  intro p
  induction h generalizing p with
  | done =>
    obtain ⟨us, hus, -, -, hcut⟩ := spells_plain (w := ";") (by decide) [] p [] _ (.nil _ [])
    obtain ⟨u, rfl, hu⟩ := List.map_eq_singleton_iff.mp hus
    refine ⟨[u], _, [], by simpa [prepend, furtherText] using hcut, .done ?_, rfl⟩
    exact reads_cons_of_content hu []
  | @next c name v mid rest ws hc hname hread h ih =>
    have htail : Lexed ((name :: v) ++ mid) := hts.drop 1
    have hws : Relaid ws := ih htail.of_append_right
    obtain ⟨name', us, q, ws', hus, -, hws', hmap⟩ :=
      hws.variable htail hname hread h (p.after ",".toList)
    obtain ⟨cs, hcs, -, -, hcut⟩ := spells_plain (w := ",") (by decide) _ p [] _ hus
    obtain ⟨c', rfl, hc'⟩ := List.map_eq_singleton_iff.mp hcs
    obtain @⟨_, v', mid', _, ws', hname', hread', h'⟩ := hws'
    refine ⟨c' :: name' :: (v' ++ mid'), q, _, ?_, .next ?_ hname' hread' h', hmap⟩
    · simpa [prepend, furtherText] using hcut
    · exact reads_cons_of_content hc' []

/-- The type that variables are written behind. -/
def plainType : Identifier := .ofName "T" (by decide +kernel)

/-- **The texts of variables, written anew behind a type, are read as the same variables.** -/
theorem Parser.Variables.relaid (h : Variables ws ts rest) (hts : Lexed ts) :
    ∃ t u name' us ws', tokenize ("T " ++ ", ".intercalate (ws.map Token.spelling) ++ ";") =
      .ok t ∧ t.tokens = u :: name' :: us ∧ u.content = plainType.content ∧
      ts.head?.map Token.content = some name'.content ∧ Variables ws' (name' :: us) [] ∧
      ws'.map Token.spelling = ws.map Token.spelling := by
  obtain @⟨name, v, mid, _, ws, hname, hread, h⟩ := h
  have hsplit : Lexed ((name :: v) ++ mid) := hts
  have hws : Relaid ws := h.relaid hsplit.of_append_right
  obtain ⟨name', us, q, ws', hus, hcontent, hws', hmap⟩ :=
    hws.variable hts hname hread h (Place.start.after "T".toList)
  obtain ⟨cs, hcs, -, -, hcut⟩ := plainType.spells (by rintro _ ⟨⟩; decide) .start [] _ hus
  obtain ⟨u, rfl, hu⟩ := List.map_eq_singleton_iff.mp hcs
  refine ⟨prepend [u] ⟨name' :: us, "", q⟩, u, name', us, ws', ?_, rfl, hu, ?_, hws', hmap⟩
  · have htext :
        ("T " ++ ", ".intercalate ((name :: v) :: ws |>.map Token.spelling) ++ ";").toList =
          plainType.text.toList ++ ' ' ::
          ((Token.spelling (name :: v)).toList ++
            (furtherText (ws.map Token.spelling)).toList) := by
      rw [List.map_cons, String.append_assoc, intercalate_furtherText, String.toList_append,
        String.toList_append]
      rfl
    rw [tokenize, htext, ← hcut.pieces_eq]
  · exact congrArg some hcontent.symm

end SharpScript
