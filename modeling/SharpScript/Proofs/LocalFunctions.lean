import SharpScript.Proofs.Blocks
import SharpScript.Proofs.Concatenation
import SharpScript.Proofs.StatementGrammar
import SharpScript.Proofs.Types.Opening
import SharpScript.Proofs.Types.Reading

/-! # Local functions

A local function is told from other statements by the tokens that it begins with, while
its return type may be any type.  Types that begin with a word are recognised, apart
from a few words; those that begin with a tuple are not, and then the function is not
cut off behind its body.

## Main Definitions

* `IsFunction`: the tokens of a function, by its parts;
* `TypeSyntax.leadsFunction`: whether a function begins as local functions do;
* `TypeSyntax.headsStatement`: whether it begins as another statement does.

## Main Results

* `IsFunction.startsFunction_iff`, `IsFunction.unheaded`: what the tokens
  of a function begin with;
* `IsFunction.statement_eq`: a function that begins as local functions do is
  cut off behind its body;
* `IsFunction.statement_lt`: any other function takes in tokens that come behind it;
* `block_localFunction`: **a function is a statement of its own in a block if and only if it
  begins as local functions do**.
-/

namespace SharpScript

open Lexer

/-! ## Functions -/

/-- The tokens of a function: a type, a name, a group in round brackets and a block. -/
inductive IsFunction (T : TypeSyntax) (f : Identifier) : List Token → Prop
  | intro {us ps bs : List Token} {n : Token} {b : List String}
      (htype : us.map Token.content = T.contents) (hname : n.content = f.content)
      (hparams : IsGroup .round ps) (hbody : Parser.block bs = .ok (b, [])) :
      IsFunction T f (us ++ n :: (ps ++ bs))

/-- The words that a statement of another form begins with. -/
def statementWords : List String :=
  ["if", "while", "for", "foreach", "lock", "fixed", "do", "try"]

/-- Whether the first words of a function are taken for those of another statement.  The words
that do so are keywords, which identifiers are only if they are escaped, and `await`. -/
def TypeSyntax.headsStatement (T : TypeSyntax) (f : Identifier) : Bool :=
  T.firstWord.any fun i => i.word ∈ statementWords ||
    (i.word == "await" && (T.isWord && f.word ∈ ["foreach", "using"]))

/-- Whether a function begins as local functions do.  A type that is the word of a modifier is
taken for one, and then the name of the function is taken for its type. -/
def TypeSyntax.leadsFunction (T : TypeSyntax) (f : Identifier) : Bool :=
  T.firstWord.any fun i =>
    if i.word ∈ Parser.localModifiers then
      T.isWord && f.word ∉ Parser.localModifiers ++ ["yield", "await"]
    else i.word ∉ ["yield", "await"]

section First

variable {i : Identifier} {t u : Token} {ts : List Token}

theorem Identifier.isOneOf_iff (ht : t.content = i.content) {ws : List String} :
    t.IsOneOf ws ↔ i.word ∈ ws := by
  obtain ⟨-, htext⟩ : _ ∧ t.text = i.word := Prod.mk.inj ht
  rw [← htext, ← List.contains_iff_mem,
    Token.contains_iff_of_isIdentifier (Identifier.isIdentifier_of_content ht)]

theorem startsFunction_identifier (ht : t.content = i.content) : StartsFunction (t :: ts) ↔
    if i.word ∈ Parser.localModifiers then StartsFunction ts
    else i.word ∉ ["yield", "await"] := by
  have hmodifier : t.IsOneOf Parser.localModifiers ↔ _ := Identifier.isOneOf_iff ht
  have hname : t.IsOneOf ["yield", "await"] ↔ _ := Identifier.isOneOf_iff ht
  constructor
  · intro h
    cases h with
    | modifier ht h => rwa [if_pos (hmodifier.mp ht)]
    | name _ ht hnot => rwa [if_neg (mt hmodifier.mpr ht), ← hname]
  · intro h
    split at h
    · rename_i hi
      exact .modifier (hmodifier.mpr hi) h
    · rename_i hi
      exact .name (Identifier.isIdentifier_of_content ht) (mt hmodifier.mp hi) (mt hname.mp h)

theorem not_startsFunction_sign {w : String} (ht : t.content = sign w)
    (hw : w ∉ Parser.localModifiers) : ¬StartsFunction (t :: ts) := by
  obtain ⟨hkind, rfl⟩ : t.kind = .operator ∧ t.text = w := Prod.mk.inj ht
  intro h
  cases h with
  | modifier h _ => exact hw (Token.isOneOf_iff.mp h).1
  | name h _ _ =>
    rw [hkind] at h
    cases h

/-- A word that begins no other statement, and behind it nothing that makes a
statement or a label of it. -/
theorem unheaded_identifier (ht : t.content = i.content)
    (hi : i.word ∉ statementWords) (hu : u.text ∉ ["(", Text.openBrace, ":"])
    (hawait : i.word = "await" → u.text ∉ ["foreach", "using"]) : Unheaded (t :: u :: ts) where
  word := by
    intro w hw
    show t.reads w = false
    refine Bool.eq_false_iff.mpr fun hread => ?_
    obtain ⟨-, htext⟩ : _ ∧ t.text = i.word := Prod.mk.inj ht
    have hword : w = i.word := (Token.text_of_reads hread).symm.trans htext
    have hcases :
        ∀ w ∈ [Text.openBrace, ";", "if", "while", "for", "foreach", "lock", "fixed", "do",
          "try"], w ∈ statementWords ∨ startsWord w = false := by decide
    rcases hcases w hw with hw | hw
    · exact hi (hword ▸ hw)
    · rw [Identifier.reads_eq_false ht hw] at hread
      cases hread
  pair := by
    rintro ⟨w, v⟩ hp hread (hv : u.text = v)
    obtain ⟨-, htext⟩ : _ ∧ t.text = i.word := Prod.mk.inj ht
    have hword : i.word = w := htext.symm.trans (Token.text_of_reads hread)
    have hcases : ∀ p ∈ pairedWords, p.2 ∈ ["(", Text.openBrace, ":"] ∨
        p.1 = "await" ∧ p.2 ∈ ["foreach", "using"] := by decide
    rcases hcases _ hp with hp | ⟨rfl, hp⟩
    · exact hu (hv ▸ hp)
    · exact hawait hword (hv ▸ hp)
  label := Parser.startsLabel_eq_false fun h => hu (by simp [show u.text = ":" from h])

/-- A sign that no statement begins with. -/
theorem unheaded_tuple (ht : t.content = sign "(") : Unheaded (t :: ts) where
  word := by
    intro w hw
    rw [Parser.reads_cons_of_content ht]
    revert w
    decide
  pair := by
    intro p hp hread
    have hwords : ∀ p ∈ pairedWords, ("(" == p.1) = false := by decide
    rw [Parser.reads_cons_of_content ht, hwords p hp] at hread
    cases hread
  label := by
    obtain ⟨hkind, -⟩ : t.kind = .operator ∧ t.text = "(" := Prod.mk.inj ht
    cases ts with
    | nil => rfl
    | cons u ts => simp [Parser.startsLabel, hkind, Kind.isIdentifier]

end First

namespace IsFunction

variable {T : TypeSyntax} {f : Identifier} {w : List Token}

/-- What a function begins with. -/
theorem exists_opening (h : IsFunction T f w) :
    ∃ ls, w.map Token.content = T.contents ++ f.content :: sign "(" :: ls := by
  obtain ⟨htype, hname, hparams, -⟩ := h
  obtain ⟨t, ts, rfl, hkind, htext⟩ := hparams.exists_cons
  have ht : t.content = sign "(" := Prod.ext hkind htext
  exact ⟨_,
    by rw [List.map_append, htype, List.map_cons, hname, List.cons_append, List.map_cons, ht]⟩

theorem startsFunction_iff (h : IsFunction T f w) :
    StartsFunction w ↔ T.leadsFunction f = true := by
  obtain ⟨ls, hw⟩ := h.exists_opening
  have hopening := T.opening
  unfold TypeSyntax.leadsFunction
  generalize T.contents = ks, T.firstWord = first, T.isWord = single, T.startsArray = array
    at hw hopening
  cases hopening with
  | word i =>
    obtain ⟨t, _, rfl, ht, hw⟩ := List.map_eq_cons_iff.mp hw
    obtain ⟨n, _, rfl, hn, hw⟩ := List.map_eq_cons_iff.mp hw
    obtain ⟨o, ts, rfl, ho, -⟩ := List.map_eq_cons_iff.mp hw
    have hround : ¬StartsFunction (o :: ts) := not_startsFunction_sign ho (by decide)
    rw [startsFunction_identifier ht, startsFunction_identifier hn]
    by_cases hi : i.word ∈ Parser.localModifiers
    · by_cases hf : f.word ∈ Parser.localModifiers
      · simp [hi, hf, hround]
      · simp [hi, hf]
    · simp [hi]
  | @long i v hv ks =>
    obtain ⟨t, _, rfl, ht, hw⟩ := List.map_eq_cons_iff.mp hw
    obtain ⟨u, ts, rfl, hu, -⟩ := List.map_eq_cons_iff.mp hw
    have hsigns : ∀ v ∈ wordContinuations, v ∉ Parser.localModifiers := by decide
    have hnot : ¬StartsFunction (u :: ts) := not_startsFunction_sign hu (hsigns v hv)
    rw [startsFunction_identifier ht]
    by_cases hi : i.word ∈ Parser.localModifiers
    · simp [hi, hnot]
    · simp [hi]
  | tuple ks =>
    obtain ⟨t, ts, rfl, ht, -⟩ := List.map_eq_cons_iff.mp hw
    have hnot : ¬StartsFunction (t :: ts) := not_startsFunction_sign ht (by decide)
    simp [hnot]

theorem unheaded (h : IsFunction T f w) (hhead : T.headsStatement f = false) : Unheaded w := by
  obtain ⟨ls, hw⟩ := h.exists_opening
  have hopening := T.opening
  unfold TypeSyntax.headsStatement at hhead
  generalize T.contents = ks, T.firstWord = first, T.isWord = single, T.startsArray = array
    at hw hopening hhead
  cases hopening with
  | word i =>
    obtain ⟨t, _, rfl, ht, hw⟩ := List.map_eq_cons_iff.mp hw
    obtain ⟨n, ts, rfl, hn, -⟩ := List.map_eq_cons_iff.mp hw
    obtain ⟨-, htext⟩ : _ ∧ n.text = f.word := Prod.mk.inj hn
    obtain ⟨hi, hawait⟩ := Bool.or_eq_false_iff.mp hhead
    refine unheaded_identifier ht (of_decide_eq_false hi) (fun hsign => ?_)
      fun hword hname => ?_
    · have hsigns : ∀ v ∈ ["(", Text.openBrace, ":"], startsWord v = false := by decide
      have hstarts := hsigns _ hsign
      rw [htext, f.startsWord_word] at hstarts
      cases hstarts
    · rw [htext] at hname
      simp [hword, hname] at hawait
  | @long i v hv ks =>
    obtain ⟨t, _, rfl, ht, hw⟩ := List.map_eq_cons_iff.mp hw
    obtain ⟨u, ts, rfl, hu, -⟩ := List.map_eq_cons_iff.mp hw
    obtain ⟨-, htext⟩ : _ ∧ u.text = v := Prod.mk.inj hu
    have hsigns : ∀ v ∈ wordContinuations, v ∉ ["(", Text.openBrace, ":"] ∧
        v ∉ ["foreach", "using"] := by
      decide
    rw [← htext] at hv
    exact unheaded_identifier ht (of_decide_eq_false (Bool.or_eq_false_iff.mp hhead).1)
      (hsigns _ hv).1 fun _ => (hsigns _ hv).2
  | tuple ks =>
    obtain ⟨t, ts, rfl, ht, -⟩ := List.map_eq_cons_iff.mp hw
    exact unheaded_tuple ht

end IsFunction

/-! ## Chunks of a function -/

/-- A block is a group in braces. -/
theorem Parser.isGroup_of_block {bs : List Token} (hlexed : Lexed bs) {b : List String}
    (h : block bs = .ok (b, [])) : IsGroup .curly bs := by
  obtain ⟨t, u, mid, rfl, ht, hu, hstatements⟩ := block_iff.mp h
  obtain ⟨ws, rfl, -, htiles⟩ := hstatements.tiles
  have hopening := (hlexed.wellShaped t (by simp)).isOperator_of_reads ht (by decide)
  have hclosing := (hlexed.wellShaped u (by simp)).isOperator_of_reads hu (by decide)
  exact ⟨t, ws.flatten, u, rfl, sign?_opening hopening.1 hopening.2, htiles.balanced,
    sign?_closing hclosing.1 hclosing.2⟩

/-- The chunks of a function before its body, none of which ends a statement. -/
structure FunctionChunks (cs : List (List Token)) (bs : List Token) : Prop where
  chunk : ∀ c ∈ cs, IsChunk c
  first : ∀ c ∈ cs, ∃ t ts, c = t :: ts ∧ t.IsOfType
  params : ∃ ps, cs.getLast? = some ps ∧ IsGroup .round ps
  body : IsGroup .curly bs

namespace FunctionChunks

variable {cs : List (List Token)} {bs : List Token}

theorem isOperator_eq_false (h : FunctionChunks cs bs) {ws : List String}
    (hws : ∀ w ∈ ws, w ∉ typeSigns) : ∀ c ∈ cs, Ahead.isOperator ws c = false := by
  intro c hc
  obtain ⟨t, ts, rfl, ht⟩ := h.first c hc
  exact ht.isOperator_eq_false hws ts

theorem not_curly (h : FunctionChunks cs bs) : ∀ c ∈ cs, ¬IsGroup .curly c := by
  intro c hc hcurly
  have hopen := ((h.chunk c hc).isGroup_iff (b := .curly)).mpr hcurly
  rw [h.isOperator_eq_false (by decide) c hc] at hopen
  cases hopen

theorem isHead (h : FunctionChunks cs bs) (hun : Unheaded (cs.flatten ++ bs)) :
    IsHead (cs.flatten ++ bs) cs where
  unheaded := hun
  chunk := h.chunk
  semicolon := h.isOperator_eq_false (by decide)
  body := fun pre c post hcs hc => absurd hc (h.not_curly c (by simp [hcs]))

theorem opensBody (h : FunctionChunks cs bs) : OpensBody cs :=
  ⟨h.isOperator_eq_false (by decide), .inl h.params⟩

end FunctionChunks

theorem IsFunction.exists_chunks {T : TypeSyntax} {f : Identifier} {w : List Token}
    (h : IsFunction T f w) (hlexed : Lexed w) :
    ∃ cs bs, w = cs.flatten ++ bs ∧ FunctionChunks cs bs := by
  obtain @⟨us, ps, bs, n, b, htype, hname, hparams, hbody⟩ := h
  have htokens := T.typeTokens htype
  obtain ⟨cs, rfl, hcs⟩ := htokens.chunks
  have hbehind : Lexed (ps ++ bs) := hlexed.of_append_right.drop 1
  refine ⟨cs ++ [[n], ps], bs, by simp, ?_, ?_, ⟨ps, by simp, hparams⟩,
    Parser.isGroup_of_block hbehind.of_append_right hbody⟩
  · refine List.forall_mem_append.mpr ⟨hcs, List.forall_mem_cons.mpr ⟨.token ?_, ?_⟩⟩
    · exact Token.sign?_of_isIdentifier (Identifier.isIdentifier_of_content hname)
    · exact List.forall_mem_singleton.mpr (.group hparams)
  · refine List.forall_mem_append.mpr ⟨fun c hc => ?_, List.forall_mem_cons.mpr ⟨?_, ?_⟩⟩
    · obtain ⟨t, ts, rfl⟩ := List.exists_cons_of_ne_nil (hcs c hc).ne_nil
      exact ⟨t, ts, rfl, htokens.token t (List.mem_flatten.mpr ⟨_, hc, List.mem_cons_self⟩)⟩
    · exact ⟨n, [], rfl, (TypeTokens.identifier hname).token n List.mem_cons_self⟩
    · obtain ⟨t, ts, rfl, hkind, htext⟩ := hparams.exists_cons
      exact List.forall_mem_singleton.mpr ⟨t, ts, rfl, .inr ⟨hkind, htext ▸ by decide⟩⟩

namespace Parser

variable {T : TypeSyntax} {f : Identifier} {w rest mid : List Token}

theorem loop_statementChunk_lt {mayDeclare : Bool} {seen : Seen} {ts : List Token}
    (h : loop (statementChunk mayDeclare) seen ts = .ok ((), mid)) :
    mid.length < ts.length := by
  induction hn : ts.length using Nat.strong_induction_on generalizing seen ts with
  | _ n ih =>
    rw [loop_eq statementChunk_length_lt] at h
    obtain ⟨r, mid', hstep, hrest⟩ := bind_eq_ok.mp h
    cases r with
    | inl seen' =>
      have hmid' := statementChunk_length_lt _ _ _ _ hstep
      have := ih _ (hn ▸ hmid') hrest rfl
      omega
    | inr _ =>
      cases hrest
      have := (Comparison.sim_statementChunk mayDeclare seen).length_lt hstep rfl
      omega

end Parser

/-! ## Functions in blocks -/

namespace IsFunction

variable {T : TypeSyntax} {f : Identifier} {w rest mid : List Token}

theorem unheaded_append (h : IsFunction T f w) (hhead : T.headsStatement f = false)
    (rest : List Token) : Unheaded (w ++ rest) := by
  obtain ⟨ls, hw⟩ := h.exists_opening
  have hlength := congrArg List.length hw
  simp only [List.length_map, List.length_append, List.length_cons] at hlength
  exact (h.unheaded hhead).append (by omega) rest

/-- A function that begins as local functions do is cut off behind its body. -/
theorem statement_eq (h : IsFunction T f w) (hlexed : Lexed w)
    (hhead : T.headsStatement f = false) (hlead : T.leadsFunction f = true)
    (rest : List Token) :
    Parser.statement (w ++ rest) = .ok ((), rest) := by
  rw [Parser.statement_of_unheaded (h.unheaded_append hhead rest)]
  have hun := h.unheaded hhead
  have hstart := h.startsFunction_iff.mpr hlead
  obtain ⟨cs, bs, rfl, hchunks⟩ := h.exists_chunks hlexed
  exact Parser.simpleStatement_of_isSimple
    (.function (hchunks.isHead hun) hstart hchunks.opensBody hchunks.body) rest

/-- Any other function takes in tokens that come behind it. -/
theorem statement_lt (h : IsFunction T f w) (hlexed : Lexed w)
    (hhead : T.headsStatement f = false) (hlead : T.leadsFunction f = false)
    (hread : Parser.statement (w ++ rest) = .ok ((), mid)) :
    mid.length < rest.length := by
  rw [Parser.statement_of_unheaded (h.unheaded_append hhead rest)] at hread
  have hstart : ¬StartsFunction w := by simp [h.startsFunction_iff, hlead]
  obtain ⟨cs, bs, rfl, hchunks⟩ := h.exists_chunks hlexed
  obtain ⟨t, ts, hts, hop⟩ := hchunks.body.exists_cons
  have hmay : Parser.mayBeFunction (cs.flatten ++ bs ++ rest) = false := by
    have hmem : t ∈ cs.flatten ++ bs := by simp [hts]
    have hiff := Parser.mayBeFunction_of_isOperator hmem hop (by decide) rest
    exact Bool.eq_false_iff.mpr (mt hiff.mp hstart)
  unfold Parser.simpleStatement at hread
  rw [Parser.ahead_bind, hmay] at hread
  -- Its body is a chunk like any other, so the statement goes on behind it.
  have hnone : ∀ d ∈ ([] : List (List Token)), IsChunk d := nofun
  have hall : ∀ c ∈ cs ++ [bs], IsChunk c := List.forall_mem_append.mpr
    ⟨hchunks.chunk, List.forall_mem_singleton.mpr (.group hchunks.body)⟩
  have hsemicolon : ∀ c ∈ cs ++ [bs], Ahead.isOperator [";"] c = false := by
    refine List.forall_mem_append.mpr ⟨hchunks.isOperator_eq_false (by decide), ?_⟩
    exact List.forall_mem_singleton.mpr (by simp [hts, Ahead.isOperator, hop, Bracket.opening])
  have hloop := Parser.loop_chunks hnone hall hsemicolon
    (fun _ _ _ _ _ (hbody : false = true ∧ _) => Bool.false_ne_true hbody.1) rest
  rw [List.flatten_append, List.flatten_singleton] at hloop
  exact Parser.loop_statementChunk_lt (hloop.symm.trans hread)

theorem ne_nil (h : IsFunction T f w) : w ≠ [] := by
  obtain ⟨ls, hw⟩ := h.exists_opening
  rintro rfl
  simp at hw

theorem reads_closing (h : IsFunction T f w) (rest : List Token) :
    Ahead.reads Text.closeBrace (w ++ rest) = false := by
  obtain @⟨us, ps, bs, n, b, htype, hname, -, -⟩ := h
  have hn : n.IsOfType := (TypeTokens.identifier hname).token n List.mem_cons_self
  rw [List.append_assoc, List.cons_append]
  exact (T.typeTokens htype).reads_eq_false hn (by decide) (by decide) _

end IsFunction

/-- Texts that are the same have as many tokens. -/
theorem Lexed.length_eq {ts us : List Token} (ht : Lexed ts) (hu : Lexed us)
    (h : Token.spelling ts = Token.spelling us) : ts.length = us.length := by
  obtain ⟨vs, q, hvs, hshift⟩ := ht.tokenize_spelling
  obtain ⟨vs', q', hvs', hshift'⟩ := hu.tokenize_spelling
  rw [h, hvs'] at hvs
  cases hvs
  have halike : Alike ts us := hshift.alike.trans hshift'.symm.alike
  simpa using congrArg List.length halike

namespace Parser

variable {b : List String} {w ts rest last : List Token}

/-- The first statement, and what the tokens behind it are split into. -/
theorem statements_append_iff (hopen : Ahead.reads Text.closeBrace (w ++ rest) = false)
    (hne : w ≠ []) (hread : statement (w ++ rest) = .ok ((), rest)) :
      Statements b (w ++ rest) last ↔ ∃ ss, b = Token.spelling w :: ss ∧
        Statements ss rest last := by
  constructor
  · intro h
    generalize hts : w ++ rest = ts at h
    cases h with
    | done hclose =>
      rw [← hts, hopen] at hclose
      cases hclose
    | @next b v mid _ _ _ hread' htail =>
      rw [← hts, hread] at hread'
      obtain rfl : rest = mid := by cases hread'; rfl
      obtain rfl := List.append_cancel_right hts
      exact ⟨b, rfl, htail⟩
  · rintro ⟨ss, rfl, h⟩
    exact .next hopen hne hread h

/-- A first statement with the text of the first tokens is made of these. -/
theorem Statements.statement_of_text (hlexed : Lexed (w ++ rest))
    (h : Statements (Token.spelling w :: b) (w ++ rest) last) :
    statement (w ++ rest) = .ok ((), rest) := by
  generalize hts : w ++ rest = ts at h
  generalize hb : Token.spelling w :: b = texts at h
  cases h with
  | done _ => cases hb
  | @next b v mid _ _ _ hread _ =>
    have hv : Lexed v := (hts ▸ hlexed).of_append_left
    have hlength := hlexed.of_append_left.length_eq hv (List.cons.inj hb).1
    obtain ⟨-, rfl⟩ := List.append_inj hts hlength
    exact hread

theorem block_cons_iff {o : Token} (ho : o.reads Text.openBrace = true) :
    block (o :: ts) = .ok (b, rest) ↔ ∃ u, u.reads Text.closeBrace = true ∧
      Statements b ts (u :: rest) := by
  rw [block_iff]
  constructor
  · rintro ⟨t, u, mid, hts, -, hu, h⟩
    obtain ⟨-, rfl⟩ := List.cons.inj hts
    exact ⟨u, hu, h⟩
  · rintro ⟨u, hu, h⟩
    exact ⟨o, u, ts, rfl, ho, hu, h⟩

end Parser

/-- **A function is a statement of its own in a block if and only if it begins as local
functions do**: if it does, what comes behind it is split as it is without the function, and
otherwise no block has the text of the function as its first statement. -/
theorem block_localFunction {s : String} {t : Tokenized} (ht : tokenize s = .ok t) (k : Nat)
    {T : TypeSyntax} {f : Identifier} {o : Token} {w rest : List Token}
    (hsplit : t.tokens.drop k = o :: (w ++ rest)) (ho : o.reads Text.openBrace = true)
    (hw : IsFunction T f w) (hhead : T.headsStatement f = false) :
    (T.leadsFunction f = true → ∀ b r, Parser.block (o :: (w ++ rest)) = .ok (b, r) ↔
      ∃ ss, b = Token.spelling w :: ss ∧ Parser.block (o :: rest) = .ok (ss, r)) ∧
    (T.leadsFunction f = false → ∀ ss r,
      Parser.block (o :: (w ++ rest)) ≠ .ok (Token.spelling w :: ss, r)) := by
  have hlexed : Lexed (w ++ rest) := by
    have hall := (lexed_of_tokenize ht).drop k
    rw [hsplit] at hall
    exact hall.drop 1
  constructor
  · intro hlead b r
    have hread := hw.statement_eq hlexed.of_append_left hhead hlead rest
    simp only [Parser.block_cons_iff ho,
      Parser.statements_append_iff (hw.reads_closing rest) hw.ne_nil hread]
    constructor
    · rintro ⟨u, hu, ss, rfl, h⟩
      exact ⟨ss, rfl, u, hu, h⟩
    · rintro ⟨ss, rfl, u, hu, h⟩
      exact ⟨u, hu, ss, rfl, h⟩
  · intro hlead ss r h
    obtain ⟨u, -, hstatements⟩ := (Parser.block_cons_iff ho).mp h
    have hread := hstatements.statement_of_text hlexed
    exact absurd (hw.statement_lt hlexed.of_append_left hhead hlead hread) (lt_irrefl _)

/-- An array of nullable objects of a generic type, and a call behind the function. -/
theorem block_localFunction_array :
    ∃ t, tokenize (Text.braced ("G<a>?[]f()" ++ Text.braced "" ++ "g();")) = .ok t ∧
      Parser.block t.tokens = .ok (["G<a>?[]f()" ++ Text.braced "", "g();"], []) := by
  let name := Token.adjoining (.identifier false)
  let sign := Token.adjoining .operator
  let a : TypeSyntax := .solid (.name (.part (.plain (.ofName "a" (by decide +kernel)))))
  let g : SolidType := .name (.part (.generic (.ofName "G" (by decide +kernel)) (.last a)))
  let T : TypeSyntax := .solid (.array (.nullable g) 0)
  let type :=
    [name "G" 1, sign "<" 2, name "a" 3, sign ">" 4, sign "?" 5, sign "[" 6, sign "]" 7]
  have hround : IsGroup .round [sign "(" 9, sign ")" 10] :=
    ⟨_, [], _, rfl, rfl, balanced_nil, rfl⟩
  have hw : IsFunction T (.ofName "f" (by decide +kernel)) (type ++ name "f" 8 ::
      ([sign "(" 9, sign ")" 10] ++ [sign Text.openBrace 11, sign Text.closeBrace 12])) :=
    ⟨rfl, rfl, hround, (by decide +kernel : Parser.block _ = .ok ([], []))⟩
  let call := [name "g" 13, sign "(" 14, sign ")" 15, sign ";" 16, sign Text.closeBrace 17]
  have ht :
      tokenize (Text.braced ("G<a>?[]f()" ++ Text.braced "" ++ "g();")) =
        .ok ⟨sign Text.openBrace 0 ::
          (type ++ name "f" 8 :: ([sign "(" 9, sign ")" 10] ++ [sign Text.openBrace 11,
            sign Text.closeBrace 12]) ++ call), "", ⟨18, 1, 19, false⟩⟩ := by decide +kernel
  refine ⟨_, ht, ((block_localFunction ht 0 rfl rfl hw (by decide)).1 (by decide) _ _).mpr
    ⟨["g();"], ?_, ?_⟩⟩
  · decide +kernel
  · decide +kernel

/-- A method that returns a tuple. -/
def tupleMethod : String := "(int a, int b) f() " ++ Text.braced " "

/-- A method that returns a tuple is not read as a local function: a block with nothing else in
it is no block, and a call behind it goes into the same statement. -/
theorem block_of_tuple :
    (∃ t i, tokenize tupleMethod = .ok t ∧ Parser.member "A" t.tokens = .ok (i, []) ∧
      i.member?.map Member.form = some (.method "f" [] (some []))) ∧
    (∃ t e, tokenize (Text.braced (" " ++ tupleMethod ++ " ")) = .ok t ∧
      Parser.block t.tokens = .error e) ∧
    ∃ t, tokenize (Text.braced (" " ++ tupleMethod ++ " g(); ")) = .ok t ∧
      Parser.block t.tokens = .ok ([tupleMethod ++ " g();"], []) := by
  refine ⟨?_, ?_, ?_⟩
  · obtain ⟨t, ht, hmethod⟩ := exists_ok_of_any (r := tokenize tupleMethod)
      (f := fun t => (Parser.member "A" t.tokens).toOption.any fun r =>
        r.1.member?.map Member.form == some (.method "f" [] (some [])) && r.2.isEmpty)
      (by decide +kernel)
    obtain ⟨⟨i, rest⟩, hmember, htest⟩ := exists_ok_of_any hmethod
    obtain ⟨hform, rfl⟩ :
        i.member?.map Member.form = some (.method "f" [] (some [])) ∧ rest = [] := by
      simpa using htest
    exact ⟨t, i, ht, hmember, hform⟩
  · obtain ⟨t, ht, hnone⟩ := exists_ok_of_any
      (r := tokenize (Text.braced (" " ++ tupleMethod ++ " ")))
      (f := fun t => (Parser.block t.tokens).toOption.isNone) (by decide +kernel)
    obtain ⟨e, he⟩ := exists_error_of_isNone hnone
    exact ⟨t, e, ht, he⟩
  · obtain ⟨t, ht, htest⟩ := exists_ok_of_any
      (r := tokenize (Text.braced (" " ++ tupleMethod ++ " g(); ")))
      (f := fun t => Parser.block t.tokens = .ok ([tupleMethod ++ " g();"], []))
      (by decide +kernel)
    exact ⟨t, ht, of_decide_eq_true htest⟩

end SharpScript
