import SharpScript.Json.Value
import Mathlib.Data.List.Basic

/-! # The grammar of JSON

The documents of JSON and the values that they stand for.

## Main Definitions

* `Number`: numbers, with a fraction and an exponent or without;
* `Spelling`, `Characters`: the ways to spell a character, and texts between double quotes;
* `Spells`: values, elements, members and their lists;
* `Document`: a value with blanks around it.

## Main Results

* `merge_eq_self`: entries with distinct names are kept as they are.

## Design Notes

A value has no place for a number that is not written as an integer, so all of those are the
same foreign value.  Half of a surrogate pair is no character, so it has no spelling on its
own.  Where a name is repeated its last value counts, and it stands where the name stood first.
-/

namespace SharpScript.Json

/-! ## Blanks -/

/-- Whether a character may stand between the parts of a document. -/
def isBlank (c : Char) : Bool := c == ' ' || c == '\t' || c == '\n' || c == '\r'

/-- What may stand between the parts of a document. -/
def Blanks (w : List Char) : Prop := ∀ c ∈ w, isBlank c = true

/-! ## Numbers -/

/-- One digit or more. -/
structure Digits (w : List Char) : Prop where
  ne_nil : w ≠ []
  isDigit : ∀ c ∈ w, c.isDigit = true

/-- A natural number without a superfluous zero. -/
structure Natural (w : List Char) : Prop extends Digits w where
  zero : w.head? = some '0' → w = ['0']

/-- An exponent. -/
inductive Exponent : List Char → Prop
  | mk {mark : Char} {sign w : List Char} (mark_mem : mark ∈ ['e', 'E'])
      (sign_mem : sign ∈ [[], ['+'], ['-']]) (digits : Digits w) :
      Exponent (mark :: (sign ++ w))

/-- What makes a number other than an integer: a fraction, an exponent or both. -/
inductive Scale : List Char → Prop
  | fraction {w : List Char} (digits : Digits w) : Scale ('.' :: w)
  | exponent {e : List Char} (exponent : Exponent e) : Scale e
  | both {w e : List Char} (digits : Digits w) (exponent : Exponent e) :
      Scale ('.' :: (w ++ e))

/-- A number without a sign, and its value. -/
inductive Magnitude : List Char → Value → Prop
  | whole {w : List Char} (natural : Natural w) : Magnitude w (.int (Nat.ofDigitChars 10 w 0))
  | scaled {w t : List Char} (natural : Natural w) (scale : Scale t) :
      Magnitude (w ++ t) (.foreign "float")

/-- The value of a number with a minus sign. -/
def Value.negate : Value → Value
  | .int n => .int (-n)
  | v => v

/-- A number and its value. -/
inductive Number : List Char → Value → Prop
  | plus {w : List Char} {v : Value} (magnitude : Magnitude w v) : Number w v
  | minus {w : List Char} {v : Value} (magnitude : Magnitude w v) : Number ('-' :: w) v.negate

/-! ## Texts -/

/-- The character that a backslash and another character stand for. -/
def shortEscape? (c : Char) : Option Char :=
  match c with
  | '"' => some '"'
  | '\\' => some '\\'
  | '/' => some '/'
  | 'b' => some '\x08'
  | 'f' => some '\x0c'
  | 'n' => some '\n'
  | 'r' => some '\r'
  | 't' => some '\t'
  | _ => none

/-- The value of a hexadecimal digit in either case. -/
def hexDigit? (c : Char) : Option Nat :=
  if c.isDigit then some (c.toNat - '0'.toNat)
  else if 'a' ≤ c ∧ c ≤ 'f' then some (c.toNat - 'a'.toNat + 10)
  else if 'A' ≤ c ∧ c ≤ 'F' then some (c.toNat - 'A'.toNat + 10)
  else none

/-- The value of four hexadecimal digits. -/
def hexCode? (a b c d : Char) : Option Nat := do
  let a ← hexDigit? a
  let b ← hexDigit? b
  let c ← hexDigit? c
  let d ← hexDigit? d
  return ((a * 16 + b) * 16 + c) * 16 + d

/-- Whether a code unit is the first half of a surrogate pair. -/
def IsHigh (n : Nat) : Prop := 0xD800 ≤ n ∧ n < 0xDC00

/-- Whether a code unit is the second half of a surrogate pair. -/
def IsLow (n : Nat) : Prop := 0xDC00 ≤ n ∧ n < 0xE000

instance (n : Nat) : Decidable (IsHigh n) := inferInstanceAs (Decidable (_ ∧ _))

instance (n : Nat) : Decidable (IsLow n) := inferInstanceAs (Decidable (_ ∧ _))

/-- The character of a surrogate pair. -/
def pairChar (high low : Nat) : Char :=
  Char.ofNat (0x10000 + (high - 0xD800) * 0x400 + (low - 0xDC00))

/-- Whether a character stands for itself between double quotes. -/
def isUnescaped (c : Char) : Bool := 0x20 ≤ c.toNat && c != '"' && c != '\\'

/-- The spellings of a character between double quotes. -/
inductive Spelling : List Char → Char → Prop
  | self {c : Char} (unescaped : isUnescaped c = true) : Spelling [c] c
  | short {e c : Char} (escape : shortEscape? e = some c) : Spelling ['\\', e] c
  | unit {a b c d : Char} {n : Nat} (code : hexCode? a b c d = some n) (high : ¬ IsHigh n)
      (low : ¬ IsLow n) : Spelling ['\\', 'u', a, b, c, d] (Char.ofNat n)
  | pair {a b c d a' b' c' d' : Char} {n n' : Nat} (code : hexCode? a b c d = some n)
      (high : IsHigh n) (code' : hexCode? a' b' c' d' = some n') (low : IsLow n') :
      Spelling ['\\', 'u', a, b, c, d, '\\', 'u', a', b', c', d'] (pairChar n n')

/-- What stands between double quotes, and the characters of the text. -/
inductive Characters : List Char → List Char → Prop
  | nil : Characters [] []
  | cons {u w s : List Char} {c : Char} (first : Spelling u c) (others : Characters w s) :
      Characters (u ++ w) (c :: s)

/-! ## Values -/

/-- Entries with one more: it takes the place of the one with the same
name, if there is one. -/
def put (key : Key) (v : Value) : List (Key × Value) → List (Key × Value)
  | [] => [(key, v)]
  | e :: es => if e.1 = key then (key, v) :: es else e :: put key v es

/-- The entries of a dictionary in which names may be repeated. -/
def merge (es : List (Key × Value)) : List (Key × Value) :=
  es.foldl (fun merged e => put e.1 e.2 merged) []

theorem put_of_notMem {key : Key} {v : Value} {es : List (Key × Value)}
    (h : key ∉ es.map Prod.fst) : put key v es = es ++ [(key, v)] := by
  induction es with
  | nil => rfl
  | cons e es ih =>
    rw [List.map_cons, List.mem_cons, not_or] at h
    rw [put, if_neg (Ne.symm h.1), ih h.2]
    rfl

/-- Entries with distinct names are kept as they are. -/
theorem merge_eq_self {es : List (Key × Value)} (h : (es.map Prod.fst).Nodup) :
    merge es = es := by
  suffices hfold : ∀ merged : List (Key × Value), ((merged ++ es).map Prod.fst).Nodup →
      es.foldl (fun merged e => put e.1 e.2 merged) merged = merged ++ es from hfold [] h
  clear h
  induction es with
  | nil => exact fun merged _ => (List.append_nil merged).symm
  | cons e es ih =>
    intro merged h
    have hnew : e.1 ∉ merged.map Prod.fst := by
      rw [List.map_append, List.map_cons] at h
      exact fun hmem => (List.nodup_append.1 h).2.2 _ hmem _ List.mem_cons_self rfl
    rw [List.foldl_cons, put_of_notMem hnew, ih _ (by rwa [List.append_assoc])]
    exact List.append_assoc ..

/-- What a part of a document stands for. -/
inductive Phrase
  | value (v : Value)
  | element (v : Value)
  | elements (vs : List Value)
  | member (e : Key × Value)
  | members (es : List (Key × Value))

/-- The rules of the grammar. -/
inductive Spells : List Char → Phrase → Prop
  | null : Spells ['n', 'u', 'l', 'l'] (.value .null)
  | yes : Spells ['t', 'r', 'u', 'e'] (.value (.bool true))
  | no : Spells ['f', 'a', 'l', 's', 'e'] (.value (.bool false))
  | number {w : List Char} {v : Value} (number : Number w v) : Spells w (.value v)
  | text {w s : List Char} (characters : Characters w s) :
      Spells ('"' :: (w ++ ['"'])) (.value (.text (String.ofList s)))
  | noElement {w : List Char} (blanks : Blanks w) :
      Spells ('[' :: (w ++ [']'])) (.value (.list []))
  | list {w : List Char} {vs : List Value} (elements : Spells w (.elements vs)) :
      Spells ('[' :: (w ++ [']'])) (.value (.list vs))
  | noMember {w : List Char} (blanks : Blanks w) :
      Spells ('{' :: (w ++ ['}'])) (.value (.dict []))
  | dict {w : List Char} {es : List (Key × Value)} (members : Spells w (.members es)) :
      Spells ('{' :: (w ++ ['}'])) (.value (.dict (merge es)))
  | element {b w b' : List Char} {v : Value} (before : Blanks b) (value : Spells w (.value v))
      (after : Blanks b') : Spells (b ++ (w ++ b')) (.element v)
  | last {w : List Char} {v : Value} (element : Spells w (.element v)) :
      Spells w (.elements [v])
  | more {w u : List Char} {v : Value} {vs : List Value} (element : Spells w (.element v))
      (elements : Spells u (.elements vs)) : Spells (w ++ ',' :: u) (.elements (v :: vs))
  | member {b w b' u s : List Char} {v : Value} (before : Blanks b) (name : Characters w s)
      (after : Blanks b') (element : Spells u (.element v)) :
      Spells (b ++ '"' :: (w ++ '"' :: (b' ++ ':' :: u)))
        (.member (.text (String.ofList s), v))
  | lastMember {w : List Char} {e : Key × Value} (member : Spells w (.member e)) :
      Spells w (.members [e])
  | moreMembers {w u : List Char} {e : Key × Value} {es : List (Key × Value)}
      (member : Spells w (.member e)) (members : Spells u (.members es)) :
      Spells (w ++ ',' :: u) (.members (e :: es))

/-- Whether a text is a document for a value. -/
def Document (text : String) (v : Value) : Prop := Spells text.toList (.element v)

end SharpScript.Json
