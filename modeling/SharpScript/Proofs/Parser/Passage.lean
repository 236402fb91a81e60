import SharpScript.Proofs.Parser.Runs
import SharpScript.Proofs.Tree.Quotes

/-! # What is read on the way

A rule takes tokens from the front of a list.  On the way from the tokens that it finds to
those that it leaves it meets brackets, and it quotes texts.  Some parts are read without
pairing the brackets in them: using directives, type arguments, the clauses and heads of some
declarations, and the word behind the colon of a constructor.

## Main Definitions

* `Loose`: the parts in which brackets are not paired;
* `Parts`: tokens as loose parts and tokens in between, with the brackets of the latter;
* `Closes`: a sequence of brackets that closes those that are open;
* `Cites`: the quotes that are taken from tokens, in order and without overlap;
* `Passage`: all of this, for one run of a rule;
* `Parser.TellsAt`, `Parser.Tells`: rules whose runs are such passages.

## Main Results

* `Parts.balanced`: where the loose parts are well nested, everything is;
* `TellsAt.bind`, `TellsAt.opens`, `TellsAt.closes`: rules behind one another;
* `Tells.gather`, `Tells.collect`, `Tells.repeatWhile`: rules that are repeated.
-/

namespace SharpScript

/-! ## Loose parts -/

/-- The head of a structure or a record, through all that comes before its body. -/
def Parser.skippedHead : Parser Token := do
  advance
  if ← ahead (Ahead.readsAny ["class", "struct"]) then advance
  let name ← identifier
  restOfHead [Text.openBrace, ";"]
  return name

/-- What comes behind the colon of a constructor and the word behind that: the arguments of
the call and the body. -/
def Parser.constructorRest : Parser (Option (List String)) := do
  if ← isAt "(" then group
  body false

/-- The tokens `v`, behind which the tokens `rest` come, are read without pairing
the brackets in them. -/
inductive Loose : List Token → List Token → Prop
  /-- A using directive, up to its first `;`. -/
  | directive {v rest : List Token} {t : Token}
      (hstart : Parser.startsUsing (v ++ t :: rest) = true) (hv : ∀ u ∈ v, u.reads ";" = false)
      (ht : t.reads ";" = true) : Loose (v ++ [t]) rest
  /-- Type arguments, of which only the angle brackets are paired. -/
  | arguments {t : Token} {v rest : List Token} (ht : t.reads "<" = true)
      (hv : closeAngles 1 (v ++ rest) = .ok rest) : Loose (t :: v) rest
  /-- The `where` clauses of a declaration. -/
  | clauses {v rest : List Token} (hstart : Ahead.reads "where" (v ++ rest) = true)
      (hv : Parser.restOfHead [Text.openBrace, ";", "=>"] (v ++ rest) = .ok ((), rest)) :
      Loose v rest
  /-- The head of a structure or a record. -/
  | head {v rest : List Token} {name : Token}
      (hstart : Ahead.reads "struct" (v ++ rest) = true ∨
        Parser.startsRecord (v ++ rest) = true)
      (hv : Parser.skippedHead (v ++ rest) = .ok (name, rest)) : Loose v rest
  /-- The colon behind the parameters of a constructor, and the token behind it. -/
  | target {c t : Token} {rest : List Token} {r : Option (List String) × List Token}
      (hc : c.reads ":" = true) (hrest : Parser.constructorRest rest = .ok r) :
      Loose [c, t] rest

/-- The tokens `ts` down to `rest` are made of the loose parts `ls` and of tokens in between,
whose brackets are `g`. -/
inductive Parts : List Sign → List (List Token) → List Token → List Token → Prop
  | nil (ts : List Token) : Parts [] [] ts ts
  | token {g : List Sign} {ls : List (List Token)} {ts rest : List Token} (t : Token)
      (h : Parts g ls ts rest) : Parts (t.sign?.toList ++ g) ls (t :: ts) rest
  | loose {g : List Sign} {ls : List (List Token)} {v ts rest : List Token} (hv : Loose v ts)
      (h : Parts g ls ts rest) : Parts g (v :: ls) (v ++ ts) rest

namespace Parts

variable {g g' : List Sign} {ls ls' : List (List Token)} {ts mid rest : List Token}

/-- Parts behind one another. -/
theorem append (h : Parts g ls ts mid) (h' : Parts g' ls' mid rest) :
    Parts (g ++ g') (ls ++ ls') ts rest := by
  induction h with
  | nil => exact h'
  | token t _ ih =>
    rw [List.append_assoc]
    exact (ih h').token t
  | loose hv _ ih => exact .loose hv (ih h')

/-- Tokens that are looked at one by one are no loose part. -/
theorem tokens (w rest : List Token) : Parts (signs w) [] (w ++ rest) rest := by
  induction w with
  | nil => exact .nil rest
  | cons t w ih =>
    rw [signs_cons]
    exact ih.token t

/-- What parts are read from ends with what is left. -/
theorem suffix (h : Parts g ls ts rest) : ∃ w, ts = w ++ rest := by
  induction h with
  | nil => exact ⟨[], rfl⟩
  | token t _ ih =>
    obtain ⟨w, rfl⟩ := ih
    exact ⟨t :: w, rfl⟩
  | @loose _ _ v _ _ _ _ ih =>
    obtain ⟨w, rfl⟩ := ih
    exact ⟨v ++ w, by rw [List.append_assoc]⟩

end Parts

/-- A well nested sequence may be put in anywhere. -/
theorem Dyck.insert {xs ys zs : List Sign} (h : Dyck (xs ++ ys)) (hz : Dyck zs) :
    Dyck (xs ++ (zs ++ ys)) := by
  generalize hw : xs ++ ys = w at h
  induction h generalizing xs ys with
  | nil =>
    obtain ⟨rfl, rfl⟩ := List.append_eq_nil_iff.mp hw
    simpa using hz
  | nest b hx hy ihx ihy =>
    rename_i us vs
    cases xs with
    | nil =>
      obtain rfl : ys = .opening b :: us ++ .closing b :: vs := hw
      exact hz.append (.nest b hx hy)
    | cons x xs =>
      -- Behind the opening bracket, the place is before the closing one or behind it.
      obtain ⟨rfl, htail⟩ := List.cons.inj hw
      replace htail : xs ++ ys = us ++ .closing b :: vs := htail
      rcases List.append_eq_append_iff.mp htail with ⟨as, rfl, hys⟩ | ⟨as, rfl, hys⟩
      · rw [hys]
        simpa using Dyck.nest b (ihx rfl) hy
      · cases as with
        | nil =>
          obtain rfl : .closing b :: vs = ys := hys
          have hu : Dyck (us ++ (zs ++ [])) := ihx (List.append_nil us)
          simpa using Dyck.nest b hu hy
        | cons a as =>
          obtain ⟨rfl, rfl⟩ := List.cons.inj hys
          simpa using Dyck.nest b hx (ihy rfl)

/-- **Where the loose parts are well nested, everything is.** -/
theorem Parts.balanced {g : List Sign} {ls : List (List Token)} {ts rest : List Token}
    (h : Parts g ls ts rest) (hls : ∀ v ∈ ls, Balanced v) {xs : List Sign}
    (hg : Dyck (xs ++ g)) :
    ∃ w, ts = w ++ rest ∧ Dyck (xs ++ signs w) := by
  induction h generalizing xs with
  | nil => exact ⟨[], rfl, hg⟩
  | token t _ ih =>
    rw [← List.append_assoc] at hg
    obtain ⟨w, rfl, hw⟩ := ih hls hg
    refine ⟨t :: w, rfl, ?_⟩
    rwa [signs_cons, ← List.append_assoc]
  | @loose _ _ v _ _ _ _ ih =>
    obtain ⟨w, rfl, hw⟩ := ih (fun u hu => hls u (List.mem_cons_of_mem _ hu)) hg
    refine ⟨v ++ w, by rw [List.append_assoc], ?_⟩
    rw [signs_append]
    exact hw.insert (hls v List.mem_cons_self)

/-! ## Open brackets -/

/-- The sequence closes the brackets that are open, of which the first is the innermost, and is
well nested apart from that. -/
inductive Closes : List Bracket → List Sign → Prop
  | nil {xs : List Sign} (hx : Dyck xs) : Closes [] xs
  | cons {b : Bracket} {bs : List Bracket} {xs ys : List Sign} (hx : Dyck xs)
      (hy : Closes bs ys) :
      Closes (b :: bs) (xs ++ .closing b :: ys)

namespace Closes

variable {b : Bracket} {bs : List Bracket} {xs ys : List Sign}

/-- A word of paired brackets may come before the signs that close open ones. -/
theorem dyck_append (hx : Dyck xs) (hy : Closes bs ys) : Closes bs (xs ++ ys) := by
  cases hy with
  | nil hy => exact .nil (hx.append hy)
  | cons hx' hy =>
    rw [← List.append_assoc]
    exact .cons (hx.append hx') hy

/-- A bracket that is opened first has to be closed with the others. -/
theorem opening (h : Closes (b :: bs) xs) : Closes bs (.opening b :: xs) := by
  cases h with
  | @cons _ _ xs ys hx hy =>
    have hgroup : Dyck (.opening b :: xs ++ [.closing b]) := .nest b hx .nil
    simpa using hy.dyck_append hgroup

/-- The innermost bracket is closed first. -/
theorem closing (h : Closes bs xs) : Closes (b :: bs) (.closing b :: xs) := .cons .nil h

end Closes

/-! ## Quotes -/

/-- The quotes are taken from the tokens `ts` down to `rest`, in order and without overlap,
and each from one token or more.  The type of a method is what the rule for types reads
before the name of the method, and an expression that has been made a statement stands
between `=>` and `;`. -/
inductive Cites : List Quote → List Token → List Token → Prop
  | nil (ts : List Token) : Cites [] ts ts
  | skip {qs : List Quote} {ts rest : List Token} (t : Token) (h : Cites qs ts rest) :
      Cites qs (t :: ts) rest
  | text {qs : List Quote} {v ts rest : List Token} (hv : v ≠ []) (h : Cites qs ts rest) :
      Cites (.text (Token.spelling v) :: qs) (v ++ ts) rest
  | type {qs : List Quote} {v ts us rest : List Token} {name : Token} (hv : v ≠ [])
      (htype : Parser.typeReference (v ++ ts) = .ok ((), ts))
      (hname : Parser.memberName ts = .ok (name, us)) (h : Cites qs ts rest) :
      Cites (.type name.text (Token.spelling v) :: qs) (v ++ ts) rest
  | value {qs : List Quote} {a : Token} {v ts rest : List Token} (returns : Bool)
      (ha : a.reads "=>" = true) (hv : v ≠ []) (hts : Ahead.reads ";" ts = true)
      (h : Cites qs ts rest) :
      Cites (.value returns ((if returns then "return " else "") ++ Token.spelling v ++ ";") ::
        qs) (a :: v ++ ts) rest

namespace Cites

variable {qs qs' : List Quote} {ts mid rest : List Token}

/-- Quotes behind one another are in order. -/
theorem append (h : Cites qs ts mid) (h' : Cites qs' mid rest) :
    Cites (qs ++ qs') ts rest := by
  induction h with
  | nil => exact h'
  | skip t _ ih => exact (ih h').skip t
  | text hv _ ih => exact .text hv (ih h')
  | type hv htype hname _ ih => exact .type hv htype hname (ih h')
  | value returns ha hv hts _ ih => exact .value returns ha hv hts (ih h')

/-- Tokens may be passed over before the next quote. -/
theorem skips (v : List Token) (h : Cites qs ts rest) : Cites qs (v ++ ts) rest := by
  induction v with
  | nil => exact h
  | cons t v ih => exact ih.skip t

/-- Quotes may be left out. -/
theorem sublist (h : Cites qs ts rest) (hqs : qs'.Sublist qs) : Cites qs' ts rest := by
  induction h generalizing qs' with
  | nil ts =>
    rw [List.sublist_nil.mp hqs]
    exact .nil ts
  | skip t _ ih => exact (ih hqs).skip t
  | @text _ v _ _ hv _ ih =>
    cases hqs with
    | cons _ hqs => exact (ih hqs).skips v
    | cons_cons _ hqs => exact .text hv (ih hqs)
  | @type _ v _ _ _ _ hv htype hname _ ih =>
    cases hqs with
    | cons _ hqs => exact (ih hqs).skips v
    | cons_cons _ hqs => exact .type hv htype hname (ih hqs)
  | @value _ a v _ _ returns ha hv hts _ ih =>
    cases hqs with
    | cons _ hqs => exact (ih hqs).skips (a :: v)
    | cons_cons _ hqs => exact .value returns ha hv hts (ih hqs)

end Cites

/-! ## Passages -/

/-- The way from the tokens `ts` to the tokens `rest` closes the brackets `bs`
and has the quotes `qs`. -/
structure Passage (bs : List Bracket) (qs : List Quote) (ts rest : List Token) : Prop where
  parts : ∃ g ls, Closes bs g ∧ Parts g ls ts rest
  cites : Cites qs ts rest

namespace Passage

variable {bs : List Bracket} {qs qs' : List Quote} {ts mid rest : List Token} {t : Token}

/-- Nothing is read, and nothing is quoted. -/
theorem refl (ts : List Token) : Passage [] [] ts ts := ⟨⟨[], [], .nil .nil, .nil ts⟩, .nil ts⟩

/-- A passage in which all brackets are paired, and one behind it. -/
theorem trans (h : Passage [] qs ts mid) (h' : Passage bs qs' mid rest) :
    Passage bs (qs ++ qs') ts rest := by
  obtain ⟨⟨g, ls, hg, hparts⟩, hcites⟩ := h
  obtain ⟨⟨g', ls', hg', hparts'⟩, hcites'⟩ := h'
  cases hg with
  | nil hg => exact ⟨⟨g ++ g', ls ++ ls', hg'.dyck_append hg, hparts.append hparts'⟩,
      hcites.append hcites'⟩

theorem suffix (h : Passage bs qs ts rest) : ∃ w, ts = w ++ rest := by
  obtain ⟨⟨_, _, _, hparts⟩, _⟩ := h
  exact hparts.suffix

/-- What is left behind a passage are consecutive tokens again. -/
theorem lexed (h : Passage bs qs ts rest) (hts : Lexed ts) : Lexed rest := by
  obtain ⟨w, rfl⟩ := h.suffix
  exact hts.of_append_right

/-- Quotes may be left out. -/
theorem sublist (h : Passage bs qs ts rest) (hqs : qs'.Sublist qs) : Passage bs qs' ts rest :=
  ⟨h.parts, h.cites.sublist hqs⟩

/-- An opening bracket, before a passage that closes it. -/
theorem opens (b : Bracket) (ht : t.sign? = some (.opening b))
    (h : Passage (b :: bs) qs ts rest) :
    Passage bs qs (t :: ts) rest := by
  obtain ⟨⟨g, ls, hg, hparts⟩, hcites⟩ := h
  refine ⟨⟨_, ls, hg.opening, ?_⟩, hcites.skip t⟩
  have := hparts.token t
  rwa [ht] at this

/-- A closing bracket, where one of its kind is open. -/
theorem closes (b : Bracket) (ht : t.sign? = some (.closing b)) (h : Passage bs qs ts rest) :
    Passage (b :: bs) qs (t :: ts) rest := by
  obtain ⟨⟨g, ls, hg, hparts⟩, hcites⟩ := h
  refine ⟨⟨_, ls, hg.closing, ?_⟩, hcites.skip t⟩
  have := hparts.token t
  rwa [ht] at this

/-- Tokens that pair all brackets are a passage, from which nothing is quoted. -/
theorem balanced {w : List Token} (hw : Balanced w) (rest : List Token) :
    Passage [] [] (w ++ rest) rest :=
  ⟨⟨signs w, [], .nil hw, .tokens w rest⟩, (Cites.nil rest).skips w⟩

/-- A loose part is passed over whole, whatever brackets there are in it. -/
theorem loose {v : List Token} (hv : Loose v rest) : Passage [] [] (v ++ rest) rest :=
  ⟨⟨[], [v], .nil .nil, .loose hv (.nil rest)⟩, (Cites.nil rest).skips v⟩

/-- A token that is no bracket. -/
theorem plain (ht : t.sign? = none) (rest : List Token) : Passage [] [] (t :: rest) rest :=
  balanced (balanced_single ht) rest

end Passage

namespace Parser

variable {α β : Type} {bs : List Bracket} {ts : List Token}

/-- What `p` reads from `ts` closes the brackets `bs` and has quotes that `V`
relates to what `p` gives. -/
def TellsAt (bs : List Bracket) (p : Parser α) (V : α → List Quote → Prop) (ts : List Token) :
    Prop :=
  ∀ ⦃a rest⦄, p ts = .ok (a, rest) → ∃ qs, V a qs ∧ Passage bs qs ts rest

/-- What `p` reads is well nested apart from loose parts, and has quotes that `V`
relates to what `p` gives. -/
def Tells (p : Parser α) (V : α → List Quote → Prop) : Prop :=
  ∀ ts, Lexed ts → TellsAt [] p V ts

/-- A rule of which no quotes are kept. -/
def Silent {α : Type} (_ : α) (qs : List Quote) : Prop := qs = []

/-! ## Rules behind one another -/

section Sequence

variable {p : Parser α} {V W : α → List Quote → Prop}

/-- A rule that reads nothing quotes nothing. -/
theorem tellsAt_pure {a : α} (h : V a []) : TellsAt [] (pure a) V ts := by
  rintro _ _ ⟨⟩
  exact ⟨[], h, .refl ts⟩

theorem tellsAt_fail {e : Problem} : TellsAt bs (fail e) V ts := nofun

/-- What is said of the value and its quotes may be weakened. -/
theorem TellsAt.mono (h : TellsAt bs p V ts) (hV : ∀ a qs, V a qs → W a qs) :
    TellsAt bs p W ts := by
  intro a rest hp
  obtain ⟨qs, hqs, hpassage⟩ := h hp
  exact ⟨qs, hV a qs hqs, hpassage⟩

/-- Quotes may be left out. -/
theorem TellsAt.leave (h : TellsAt bs p (fun a qs => ∃ qs', qs'.Sublist qs ∧ V a qs') ts) :
    TellsAt bs p V ts := by
  intro a rest hp
  obtain ⟨qs, ⟨qs', hqs, hV⟩, hpassage⟩ := h hp
  exact ⟨qs', hV, hpassage.sublist hqs⟩

/-- The quotes of a rule may be forgotten, if only its brackets matter. -/
theorem Tells.silent (h : Tells p V) : Tells p Silent := fun ts hts =>
  .leave ((h ts hts).mono fun _ qs _ => ⟨[], List.nil_sublist qs, rfl⟩)

/-- **A rule behind a rule**: the passages are joined, and the quotes of the first one come
first. -/
theorem TellsAt.bind {f : α → Parser β} {W : β → List Quote → Prop} (hp : TellsAt [] p V ts)
    (hts : Lexed ts) (hf : ∀ a qs mid, V a qs → p ts = .ok (a, mid) → Lexed mid →
      TellsAt bs (f a) (fun b qs' => W b (qs ++ qs')) mid) : TellsAt bs (p >>= f) W ts := by
  intro b rest hrun
  obtain ⟨a, mid, ha, hb⟩ := bind_eq_ok.mp hrun
  obtain ⟨qs, hV, hpassage⟩ := hp ha
  obtain ⟨qs', hW, hpassage'⟩ := hf a qs mid hV ha (hpassage.lexed hts) hb
  exact ⟨qs ++ qs', hW, hpassage.trans hpassage'⟩

/-- A rule of which no quotes are kept, and the rule behind it. -/
theorem TellsAt.skip {f : α → Parser β} {W : β → List Quote → Prop}
    (hp : TellsAt [] p Silent ts) (hts : Lexed ts)
    (hf : ∀ a mid, p ts = .ok (a, mid) → Lexed mid → TellsAt bs (f a) W mid) :
    TellsAt bs (p >>= f) W ts :=
  hp.bind hts fun a qs mid hqs ha hmid => by
    obtain rfl : qs = [] := hqs
    exact hf a mid ha hmid

/-- A look at the tokens ahead reads none of them. -/
theorem TellsAt.ahead {γ : Type} {g : List Token → γ} {f : γ → Parser α}
    (h : TellsAt bs (f (g ts)) V ts) : TellsAt bs (Parser.ahead g >>= f) V ts := h

/-- A part that is read if a test holds, and what comes behind it. -/
theorem TellsAt.optional {f : List Token → Bool} {p : Parser Unit} {k : Unit → Parser α}
    (hp : f ts = true → TellsAt [] p Silent ts) (hts : Lexed ts)
    (hk : ∀ mid, Lexed mid → TellsAt bs (k ()) V mid) :
    TellsAt bs (Parser.ahead f >>= fun b => if b = true then p >>= k else k ()) V ts := by
  refine .ahead ?_
  split
  · rename_i hf
    exact (hp hf).skip hts fun _ mid _ hmid => hk mid hmid
  · exact hk ts hts

end Sequence

/-! ## Single tokens -/

section Tokens

variable {V : α → List Quote → Prop} {w : String}

/-- A sign or word that is no bracket. -/
def IsPlain (w : String) : Prop := w ∉ ["(", "[", Text.openBrace, ")", "]", Text.closeBrace]

instance (w : String) : Decidable (IsPlain w) := inferInstanceAs (Decidable (_ ∉ _))

/-- A word that is no bracket is the text of no bracket. -/
theorem sign?_of_reads {t : Token} (ht : t.reads w = true) (hw : IsPlain w) :
    t.sign? = none := by
  refine Token.sign?_eq_none ?_
  rwa [Token.text_of_reads ht]

/-- An operator with the text of an opening bracket is one. -/
theorem sign?_opening {t : Token} {b : Bracket} (hkind : t.kind = .operator)
    (htext : t.text = b.opening) : t.sign? = some (.opening b) := by
  have hcontent : t.content = (⟨.operator, b.opening, "", .start⟩ : Token).content := by
    simp [Token.content, hkind, htext]
  rw [Token.sign?_of_content hcontent]
  cases b <;> decide

theorem sign?_closing {t : Token} {b : Bracket} (hkind : t.kind = .operator)
    (htext : t.text = b.closing) : t.sign? = some (.closing b) := by
  have hcontent : t.content = (⟨.operator, b.closing, "", .start⟩ : Token).content := by
    simp [Token.content, hkind, htext]
  rw [Token.sign?_of_content hcontent]
  cases b <;> decide

/-- A token that is no bracket may be read before a rule. -/
theorem TellsAt.plain {k : Parser α} {t : Token} (ht : t.sign? = none)
    (hk : TellsAt bs k V ts) :
    ∀ ⦃a rest⦄, k ts = .ok (a, rest) → ∃ qs, V a qs ∧ Passage bs qs (t :: ts) rest := by
  intro a rest hrun
  obtain ⟨qs, hV, hpassage⟩ := hk hrun
  exact ⟨qs, hV, (Passage.plain ht ts).trans hpassage⟩

/-- One token that is no bracket is passed over. -/
theorem TellsAt.advance {k : Unit → Parser α} (ht : ∀ t ∈ ts.head?, t.sign? = none)
    (hts : Lexed ts) (hk : Lexed ts.tail → TellsAt bs (k ()) V ts.tail) :
    TellsAt bs (Parser.advance >>= k) V ts := by
  cases ts with
  | nil => exact hk hts
  | cons t ts =>
    have hrest : Lexed ts := hts.drop 1
    exact (hk hrest).plain (ht t rfl)

/-- A word is passed over if it comes next. -/
theorem TellsAt.accept {k : Bool → Parser α} (hw : IsPlain w) (hts : Lexed ts)
    (htrue : Ahead.reads w ts = true → Lexed ts.tail → TellsAt bs (k true) V ts.tail)
    (hfalse : TellsAt bs (k false) V ts) : TellsAt bs (Parser.accept w >>= k) V ts := by
  intro a rest hrun
  rw [accept_bind] at hrun
  split at hrun
  · rename_i h
    cases ts with
    | nil => exact htrue h hts hrun
    | cons t ts =>
      have hrest : Lexed ts := hts.drop 1
      exact (htrue h hrest).plain (sign?_of_reads h hw) hrun
  · exact hfalse hrun

/-- The same for a token that must be there. -/
theorem TellsAt.expect {k : Unit → Parser α} (hw : IsPlain w) (hts : Lexed ts)
    (hk : Ahead.reads w ts = true → Lexed ts.tail → TellsAt bs (k ()) V ts.tail) :
    TellsAt bs (Parser.expect w >>= k) V ts := by
  intro a rest hrun
  obtain ⟨h, hrun⟩ := expect_bind_eq_ok.mp hrun
  cases ts with
  | nil => exact hk h hts hrun
  | cons t ts =>
    have hrest : Lexed ts := hts.drop 1
    exact (hk h hrest).plain (sign?_of_reads h hw) hrun

/-- The token that comes next, where it reads as a bracket. -/
theorem exists_bracket (hts : Lexed ts) (h : Ahead.reads w ts = true) (hw : w ≠ "")
    (hword : Lexer.startsWord w = false) :
    ∃ t rest, ts = t :: rest ∧ t.kind = .operator ∧ t.text = w ∧ Lexed rest := by
  obtain ⟨t, rest, rfl, hread⟩ := Comparison.exists_reads hw h
  obtain ⟨hkind, htext⟩ :=
    (hts.wellShaped t List.mem_cons_self).isOperator_of_reads hread hword
  exact ⟨t, rest, rfl, hkind, htext, hts.drop 1⟩

/-- Brackets are signs, so that a word cannot be taken for one. -/
theorem opening_not_word (b : Bracket) :
    b.opening ≠ "" ∧ Lexer.startsWord b.opening = false := by
  cases b <;> decide +kernel

theorem closing_not_word (b : Bracket) :
    b.closing ≠ "" ∧ Lexer.startsWord b.closing = false := by
  cases b <;> decide +kernel

/-- An opening bracket, which the rule behind it has to close. -/
theorem TellsAt.opens {k : Unit → Parser α} (b : Bracket) (hts : Lexed ts)
    (hk : Lexed ts.tail → TellsAt (b :: bs) (k ()) V ts.tail) :
    TellsAt bs (Parser.expect b.opening >>= k) V ts := by
  intro a rest hrun
  obtain ⟨h, hrun⟩ := expect_bind_eq_ok.mp hrun
  obtain ⟨t, ts, rfl, hkind, htext, hrest⟩ :=
    exists_bracket hts h (opening_not_word b).1 (opening_not_word b).2
  obtain ⟨qs, hV, hpassage⟩ := hk hrest hrun
  exact ⟨qs, hV, hpassage.opens b (sign?_opening hkind htext)⟩

/-- A closing bracket. -/
theorem TellsAt.closes {k : Unit → Parser α} (b : Bracket) (hts : Lexed ts)
    (hk : Lexed ts.tail → TellsAt bs (k ()) V ts.tail) :
    TellsAt (b :: bs) (Parser.expect b.closing >>= k) V ts := by
  intro a rest hrun
  obtain ⟨h, hrun⟩ := expect_bind_eq_ok.mp hrun
  obtain ⟨t, ts, rfl, hkind, htext, hrest⟩ :=
    exists_bracket hts h (closing_not_word b).1 (closing_not_word b).2
  obtain ⟨qs, hV, hpassage⟩ := hk hrest hrun
  exact ⟨qs, hV, hpassage.closes b (sign?_closing hkind htext)⟩

/-- A closing bracket that may come next. -/
theorem TellsAt.acceptCloses {k : Bool → Parser α} (b : Bracket) (hts : Lexed ts)
    (htrue : Lexed ts.tail → TellsAt bs (k true) V ts.tail)
    (hfalse : TellsAt (b :: bs) (k false) V ts) :
    TellsAt (b :: bs) (Parser.accept b.closing >>= k) V ts := by
  intro a rest hrun
  rw [accept_bind] at hrun
  split at hrun
  · rename_i h
    obtain ⟨t, ts, rfl, hkind, htext, hrest⟩ :=
      exists_bracket hts h (closing_not_word b).1 (closing_not_word b).2
    obtain ⟨qs, hV, hpassage⟩ := htrue hrest hrun
    exact ⟨qs, hV, hpassage.closes b (sign?_closing hkind htext)⟩
  · exact hfalse hrun

/-- An identifier that is read is the next token. -/
theorem of_identifier {t : Token} {rest : List Token}
    (h : Parser.identifier ts = .ok (t, rest)) :
    ts = t :: rest ∧ t.kind.isIdentifier = true := by
  cases ts with
  | nil => cases h
  | cons u ts =>
    rw [Comparison.identifier_cons] at h
    split at h
    · rename_i hident
      cases h
      exact ⟨rfl, hident⟩
    · cases h

/-- An identifier is a word, whose text may be quoted. -/
theorem TellsAt.identifier {k : Token → Parser α} (hts : Lexed ts)
    (hk : ∀ t rest, ts = t :: rest → t.kind.isIdentifier = true → IsWordText t.text →
      Lexed rest → TellsAt bs (k t) V rest) : TellsAt bs (Parser.identifier >>= k) V ts := by
  intro a rest hrun
  obtain ⟨t, mid, ht, hk'⟩ := bind_eq_ok.mp hrun
  obtain ⟨rfl, hident⟩ := of_identifier ht
  have hword :=
    (hts.wellShaped t List.mem_cons_self).word_text (Kind.isWord_of_isIdentifier hident)
  have hrest : TellsAt bs (k t) V mid := hk t mid rfl hident hword (hts.drop 1)
  exact hrest.plain (Token.sign?_of_isIdentifier hident) hk'

end Tokens

/-! ## Rules that call themselves -/

section Repetition

variable {ι : Type}

/-- Rules that call themselves, if they do right where the calls do. -/
theorem tells_fix {step : (ι → Parser α) → ι → Parser α} {V : ι → α → List Quote → Prop}
    (h : ∀ p : ι → Parser α, (∀ i, Tells (p i) (V i)) → ∀ i, Tells (step p i) (V i)) (i : ι) :
    Tells (fix step i) (V i) := by
  have hdescend : ∀ n i, Tells (descend step n i) (V i) := by
    intro n
    induction n with
    | zero => exact fun _ _ _ => tellsAt_fail
    | succ n ih => exact h _ ih
  intro ts hts
  exact hdescend (ts.length + 1) i ts hts

/-- What one round of a repetition gives: a part, or the end. -/
def PerRound (V : α → List Quote → Prop) (o : Option α) (qs : List Quote) : Prop :=
  o.elim (qs = []) fun a => V a qs

/-- Rounds whose values are put together: so are their quotes. -/
theorem Tells.gather [EmptyCollection α] [Append α] {item : Parser (Option α)}
    {V : α → List Quote → Prop} (hitem : Tells item (PerRound V)) (hnil : V ∅ [])
    (happend : ∀ a b qs qs', V a qs → V b qs' → V (a ++ b) (qs ++ qs')) :
    Tells (Parser.gather item) V := by
  rw [gather_eq]
  refine tells_fix (V := fun _ => V) (fun p hp _ ts hts => ?_) ()
  refine (hitem ts hts).bind hts fun o qs mid hqs _ hmid => ?_
  cases o with
  | none =>
    obtain rfl : qs = [] := hqs
    exact tellsAt_pure hnil
  | some a =>
    refine (hp () mid hmid).bind hmid fun b qs' _ hqs' _ _ => tellsAt_pure ?_
    rw [List.append_nil]
    exact happend a b qs qs' hqs hqs'

/-- The quotes of a list are those of its parts. -/
def EachOf (f : α → List Quote) (P : α → Prop) (xs : List α) (qs : List Quote) : Prop :=
  qs = xs.flatMap f ∧ ∀ x ∈ xs, P x

/-- The quotes of one part. -/
def Only (f : α → List Quote) (P : α → Prop) (x : α) (qs : List Quote) : Prop := qs = f x ∧ P x

/-- Values that are told one by one. -/
theorem EachOf.append {f : α → List Quote} {P : α → Prop} {xs ys : List α}
    {qs qs' : List Quote} (h : EachOf f P xs qs) (h' : EachOf f P ys qs') :
    EachOf f P (xs ++ ys) (qs ++ qs') := by
  obtain ⟨rfl, hxs⟩ := h
  obtain ⟨rfl, hys⟩ := h'
  refine ⟨List.flatMap_append.symm, fun x hx => ?_⟩
  rcases List.mem_append.mp hx with hx | hx
  · exact hxs x hx
  · exact hys x hx

theorem EachOf.single {f : α → List Quote} {P : α → Prop} {x : α} {qs : List Quote}
    (h : Only f P x qs) : EachOf f P [x] qs := by
  obtain ⟨rfl, hx⟩ := h
  exact ⟨by simp, fun y hy => List.mem_singleton.mp hy ▸ hx⟩

/-- Values with separators between them. -/
theorem Tells.collect {item : Parser α} {more : Parser Bool} {f : α → List Quote}
    {P : α → Prop} (hitem : Tells item (Only f P)) (hmore : Tells more Silent) :
    Tells (Parser.collect item more) (EachOf f P) := by
  intro ts hts
  refine (hitem ts hts).bind hts fun x qs mid hx _ hmid => ?_
  have hrest : Tells (Parser.gather do
      if ← more then return some [← item] else return none) (EachOf f P) := by
    refine Tells.gather (fun ts hts => ?_) ⟨rfl, nofun⟩ fun _ _ _ _ h h' => h.append h'
    refine (hmore ts hts).skip hts fun b mid _ hmid => ?_
    cases b with
    | false => exact tellsAt_pure rfl
    | true =>
      refine (hitem mid hmid).bind hmid fun x qs _ hx _ _ => tellsAt_pure ?_
      rw [List.append_nil]
      exact EachOf.single hx
  refine (hrest mid hmid).bind hmid fun xs qs' _ hxs _ _ => tellsAt_pure ?_
  rw [List.append_nil]
  exact (EachOf.single hx).append hxs

/-- Rounds that quote nothing. -/
theorem Tells.loop {σ : Type} {step : σ → Parser (σ ⊕ β)} (hstep : ∀ s, Tells (step s) Silent)
    (s : σ) : Tells (Parser.loop step s) Silent := by
  refine tells_fix (V := fun _ => Silent) (fun p hp s ts hts => ?_) s
  refine (hstep s ts hts).skip hts fun r mid _ hmid => ?_
  cases r with
  | inl s => exact hp s mid hmid
  | inr b => exact tellsAt_pure rfl

theorem Tells.repeatWhile {step : Parser Bool} (hstep : Tells step Silent) :
    Tells (Parser.repeatWhile step) Silent :=
  Tells.loop (fun _ ts hts => (hstep ts hts).skip hts fun _ _ _ _ => tellsAt_pure rfl) ()

end Repetition

end Parser

end SharpScript
