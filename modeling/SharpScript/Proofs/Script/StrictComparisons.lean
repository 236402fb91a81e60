import SharpScript.Script.Member

/-! # What strict comparisons do to a text

Comparisons are made strict in two passes, of which the second one reads what the first one has
written.  Together they only lengthen the runs of `=` in a text, each by an amount that depends
on its length and on the character before it.  Neither pass looks across a place that divides
no pair, so the lines of a body may be taken one by one or all at once.

## Main Definitions

* `strictChars`: both passes, on a list of characters;
* `strictLength`: the length that a run of `=` gets;
* `Lengthened`: a text and the same text with its longest runs of `=` lengthened.

## Main Results

* `extendPairs_append`, `strictChars_append`: texts may be put together
  where no pair is divided;
* `Lengthened.strictChars_eq`, `exists_lengthened`: the runs of a text are lengthened in
  exactly one way, and that is what both passes do;
* `strictEquality_lengthens`: **comparisons are made strict by lengthening the runs of `=`**,
  and all statements of a body at once.
-/

namespace SharpScript

/-! ## One pass -/

section Pass

variable {a c : Char} {u cs : List Char}

theorem head?_extendPairs (a : Char) (cs : List Char) :
    (extendPairs a cs).head? = cs.head? := by
  fun_cases extendPairs a cs with
  | case1 => rfl
  | case2 => rfl
  | case3 c d cs h =>
    rw [← beq_iff_eq.mp (Bool.and_eq_true_iff.mp h).1]
    rfl
  | case4 => rfl

theorem getLast?_extendPairs (a : Char) (cs : List Char) :
    (extendPairs a cs).getLast? = cs.getLast? := by
  fun_induction extendPairs a cs with
  | case1 => rfl
  | case2 => rfl
  | case3 c d cs h ih =>
    obtain ⟨-, hd⟩ := Bool.and_eq_true_iff.mp h
    rw [beq_iff_eq.mp hd]
    simp only [List.getLast?_cons, ih, Option.getD_some]
  | case4 c d cs _ ih => rw [List.getLast?_cons, List.getLast?_cons, ih]

/-- A pass brings in no characters that are not there. -/
theorem mem_extendPairs : c ∈ extendPairs a cs ↔ c ∈ cs := by
  fun_induction extendPairs a cs with
  | case1 => rfl
  | case2 => rfl
  | case3 c' d cs h ih =>
    obtain ⟨hc, hd⟩ := Bool.and_eq_true_iff.mp h
    simp [ih, beq_iff_eq.mp hc, beq_iff_eq.mp hd]
  | case4 c' d cs _ ih => rw [List.mem_cons, ih, List.mem_cons (a := c) (b := c')]

/-- A pass does not look across a place that divides no pair. -/
theorem extendPairs_append (h : u.getLast? = some a → cs.head? ≠ some '=') :
    extendPairs a (u ++ cs) = extendPairs a u ++ extendPairs a cs := by
  fun_induction extendPairs a u with
  | case1 => rfl
  | case2 c =>
    cases cs with
    | nil => rfl
    | cons d cs =>
      have hpair : ¬(c == a && d == '=') = true := by
        intro hpair
        obtain ⟨hc, hd⟩ := Bool.and_eq_true_iff.mp hpair
        rw [beq_iff_eq.mp hc, beq_iff_eq.mp hd] at h
        exact h rfl rfl
      rw [List.singleton_append, extendPairs, if_neg hpair]
      rfl
  | case3 c d us hpair ih =>
    rw [List.cons_append, List.cons_append, extendPairs, if_pos hpair, ih fun hlast => h (by
      simp [List.getLast?_cons, hlast])]
    rfl
  | case4 c d us hpair ih =>
    rw [List.cons_append, List.cons_append, extendPairs, if_neg hpair, ← List.cons_append,
      ih fun hlast => h (by rw [List.getLast?_cons, hlast, Option.getD_some])]
    rfl

theorem extendPairs_of_notMem (h : a ∉ cs) : extendPairs a cs = cs := by
  fun_induction extendPairs a cs with
  | case1 => rfl
  | case2 => rfl
  | case3 c d cs hpair =>
    have hc : c = a := beq_iff_eq.mp (Bool.and_eq_true_iff.mp hpair).1
    exact absurd (hc ▸ List.mem_cons_self) h
  | case4 c d cs _ ih => rw [ih fun hmem => h (List.mem_cons_of_mem c hmem)]

/-- Of a run of `=`, each two become three. -/
theorem extendPairs_run : ∀ n : Nat,
    extendPairs '=' (List.replicate n '=') = List.replicate (3 * (n / 2) + n % 2) '='
  | 0 => rfl
  | 1 => rfl
  | n + 2 => by
    have hlength : 3 * ((n + 2) / 2) + (n + 2) % 2 = 3 * (n / 2) + n % 2 + 3 := by omega
    rw [List.replicate_succ, List.replicate_succ, extendPairs, if_pos (by decide),
      extendPairs_run n, hlength]
    rfl

end Pass

/-! ## Both passes -/

/-- The characters of a text with strict comparisons. -/
def strictChars (cs : List Char) : List Char := extendPairs '!' (extendPairs '=' cs)

theorem toList_strictEquality (s : String) :
    (strictEquality s).toList = strictChars s.toList :=
  String.toList_ofList

section Both

variable {c : Char} {u cs ds : List Char} {before : Option Char}

theorem head?_strictChars (cs : List Char) : (strictChars cs).head? = cs.head? := by
  rw [strictChars, head?_extendPairs, head?_extendPairs]

theorem getLast?_strictChars (cs : List Char) : (strictChars cs).getLast? = cs.getLast? := by
  rw [strictChars, getLast?_extendPairs, getLast?_extendPairs]

theorem mem_strictChars : c ∈ strictChars cs ↔ c ∈ cs := mem_extendPairs.trans mem_extendPairs

/-- Texts may be put together where no comparison is divided. -/
theorem strictChars_append
    (h : cs.head? = some '=' → u.getLast? ≠ some '=' ∧ u.getLast? ≠ some '!') :
    strictChars (u ++ cs) = strictChars u ++ strictChars cs := by
  have hfirst : extendPairs '=' (u ++ cs) = extendPairs '=' u ++ extendPairs '=' cs :=
    extendPairs_append fun hlast hhead => (h hhead).1 hlast
  have hsecond : (extendPairs '=' u).getLast? = some '!' →
      (extendPairs '=' cs).head? ≠ some '=' := by
    rw [getLast?_extendPairs, head?_extendPairs]
    exact fun hlast hhead => (h hhead).2 hlast
  rw [strictChars, hfirst, extendPairs_append hsecond]
  rfl

theorem strictChars_of_notMem (hequals : '=' ∉ cs) (hbang : '!' ∉ cs) :
    strictChars cs = cs := by
  rw [strictChars, extendPairs_of_notMem hequals, extendPairs_of_notMem hbang]

/-- A character that is no `=`, and before which no comparison stands. -/
theorem strictChars_cons (hc : c ≠ '=') (h : c = '!' → cs.head? ≠ some '=') :
    strictChars (c :: cs) = c :: strictChars cs := by
  have happend : strictChars ([c] ++ cs) = strictChars [c] ++ strictChars cs :=
    strictChars_append fun hhead =>
      ⟨fun hlast => hc (Option.some.inj hlast), fun hlast => h (Option.some.inj hlast) hhead⟩
  exact happend

/-! ## Runs -/

/-- The length that a run of `n` signs `=` behind the character `before` gets. -/
def strictLength (before : Option Char) (n : Nat) : Nat :=
  3 * (n / 2) + n % 2 + if before = some '!' then 1 else 0

/-- The second text is the first one with each of its longest runs of `=` lengthened, where
`before` is the character before both.  No `=` stands before a run or behind it, and all
other characters are kept. -/
inductive Lengthened : (before : Option Char) → List Char → List Char → Prop
  | nil (before : Option Char) : Lengthened before [] []
  | run {before : Option Char} {n : Nat} {cs ds : List Char} (hn : 0 < n)
      (hbefore : before ≠ some '=') (hcs : cs.head? ≠ some '=')
      (h : Lengthened (some '=') cs ds) :
      Lengthened before (List.replicate n '=' ++ cs)
        (List.replicate (strictLength before n) '=' ++ ds)
  | other (before : Option Char) {c : Char} {cs ds : List Char} (hc : c ≠ '=')
      (h : Lengthened (some c) cs ds) : Lengthened before (c :: cs) (c :: ds)

/-- The runs of every text can be lengthened. -/
theorem exists_lengthened (hbefore : before = some '=' → cs.head? ≠ some '=') :
    ∃ ds, Lengthened before cs ds := by
  induction cs generalizing before with
  | nil => exact ⟨[], .nil before⟩
  | cons c cs ih =>
    by_cases hc : c = '='
    · subst hc
      have hne : before ≠ some '=' := fun h => hbefore h rfl
      by_cases hcs : cs.head? = some '='
      · -- The run at the head of `cs` is one longer.
        obtain ⟨_, h⟩ := ih fun h => absurd h hne
        cases h with
        | nil => cases hcs
        | @run _ n _ _ _ _ hend h => exact ⟨_, .run (n := n + 1) (Nat.succ_pos n) hne hend h⟩
        | other _ hc _ => exact absurd (Option.some.inj hcs) hc
      · obtain ⟨_, h⟩ := ih fun _ => hcs
        exact ⟨_, .run (n := 1) Nat.one_pos hne hcs h⟩
    · obtain ⟨ds, h⟩ := ih fun h => absurd (Option.some.inj h) hc
      exact ⟨c :: ds, .other before hc h⟩

/-- The `!` before a text, if one stands there. -/
def bang (before : Option Char) : List Char := if before = some '!' then ['!'] else []

theorem strictChars_bang (before : Option Char) : strictChars (bang before) = bang before := by
  unfold bang
  split <;> rfl

/-- A run becomes longer by one more sign behind a `!`. -/
theorem strictChars_run (before : Option Char) {n : Nat} (hn : 0 < n)
    (hcs : cs.head? ≠ some '=') :
    strictChars (bang before ++ (List.replicate n '=' ++ cs)) =
      bang before ++ (List.replicate (strictLength before n) '=' ++ strictChars cs) := by
  obtain ⟨m, hm⟩ : ∃ m, 3 * (n / 2) + n % 2 = m + 1 := ⟨3 * (n / 2) + n % 2 - 1, by omega⟩
  have hrun : strictChars (bang before ++ List.replicate n '=') =
      bang before ++ List.replicate (strictLength before n) '=' := by
    have hplain : '!' ∉ List.replicate m '=' := by simp
    by_cases h : before = some '!'
    · have hlast : ['!'].getLast? ≠ some '=' := by decide
      rw [bang, strictLength, if_pos h, if_pos h, hm, strictChars,
        extendPairs_append fun h => absurd h hlast, extendPairs_run, hm]
      show '!' :: '=' :: '=' :: extendPairs '!' (List.replicate m '=') = _
      rw [extendPairs_of_notMem hplain]
      rfl
    · rw [bang, strictLength, if_neg h, if_neg h, List.nil_append, List.nil_append,
        strictChars, extendPairs_run, extendPairs_of_notMem (by simp), Nat.add_zero]
  rw [← List.append_assoc, strictChars_append fun h => absurd h hcs, hrun, List.append_assoc]

/-- **Both passes together lengthen the runs of a text.** -/
theorem Lengthened.strictChars_eq (h : Lengthened before cs ds) :
    strictChars (bang before ++ cs) = bang before ++ ds := by
  induction h with
  | nil before => rw [List.append_nil, strictChars_bang]
  | @run before n _ _ hn _ hcs _ ih =>
    -- Behind a run there is no `!`.
    rw [strictChars_run before hn hcs]
    exact congrArg (fun es => bang before ++ (List.replicate _ '=' ++ es)) ih
  | @other before c cs ds hc _ ih =>
    have hhead : (c :: cs).head? ≠ some '=' := fun h => hc (Option.some.inj h)
    rw [strictChars_append fun h => absurd h hhead, strictChars_bang]
    congr 1
    by_cases hbang : c = '!'
    · rw [bang, if_pos (congrArg some hbang)] at ih
      rw [hbang]
      exact ih
    · rw [bang, if_neg fun h => hbang (Option.some.inj h)] at ih
      rw [strictChars_cons hc fun h => absurd h hbang]
      exact congrArg (c :: ·) ih

end Both

/-! ## Texts -/

theorem strictEquality_append {s t : String}
    (h : t.toList.head? = some '=' → s.toList.getLast? ≠ some '=' ∧
      s.toList.getLast? ≠ some '!') :
    strictEquality (s ++ t) = strictEquality s ++ strictEquality t := by
  apply String.toList_injective
  rw [String.toList_append, toList_strictEquality, toList_strictEquality,
    toList_strictEquality, String.toList_append, strictChars_append h]

/-- A line end behind a text is left alone. -/
theorem strictEquality_line (s : String) :
    strictEquality (s ++ "\n") = strictEquality s ++ "\n" := by
  have hhead : "\n".toList.head? ≠ some '=' := by decide
  exact strictEquality_append fun h => absurd h hhead

theorem getLast?_line (s : String) : (s ++ "\n").toList.getLast? = some '\n' := by
  rw [String.toList_append]
  exact List.getLast?_concat

/-- The statements of a body may be taken one by one or all at once. -/
theorem strictEquality_lines (ss : List String) :
    strictEquality (String.join (ss.map (· ++ "\n"))) =
      String.join (ss.map fun s => strictEquality (s ++ "\n")) := by
  induction ss with
  | nil => rfl
  | cons s ss ih =>
    have hseam : (s ++ "\n").toList.getLast? ≠ some '=' ∧
        (s ++ "\n").toList.getLast? ≠ some '!' := by
      rw [getLast?_line]
      decide
    rw [List.map_cons, List.map_cons, String.join_cons, String.join_cons,
      strictEquality_append fun _ => hseam, ih]

/-- **Comparisons are made strict by lengthening the runs of `=`**: of each run, every two
signs become three, and one more is added behind a `!`.  The statements of a body, each on its
line, get strict comparisons all at once. -/
theorem strictEquality_lengthens :
    (∀ s t : String, strictEquality s = t ↔ Lengthened none s.toList t.toList) ∧
      ∀ body : Option (List String),
        writeBody body = strictEquality (String.join ((body.getD []).map (· ++ "\n"))) := by
  refine ⟨fun s t => ?_, fun body => ?_⟩
  · obtain ⟨ds, hds⟩ : ∃ ds, Lengthened none s.toList ds := exists_lengthened nofun
    have hstrict : (strictEquality s).toList = ds := by
      rw [toList_strictEquality]
      exact hds.strictChars_eq
    constructor
    · rintro rfl
      rwa [hstrict]
    · intro h
      apply String.toList_injective
      rw [toList_strictEquality]
      exact h.strictChars_eq
  · rw [strictEquality_lines]
    cases body <;> rfl

example : strictEquality "a!==b=====c=d! =" = "a!====b=======c=d! =" := by decide

end SharpScript
