import SharpScript.Proofs.Json.Writing
import SharpScript.Tree.Dump

/-! # Dumps lose nothing

A tree can be told from the text that it is dumped as.

## Main Results

* `Item.plain_dump`, `CompilationUnit.plain_dump`: the value of a tree is plain;
* `Item.eq_of_dump_eq`, `CompilationUnit.dump_injective`: **different trees
  have different values**;
* `render_lossless`: plain values are written as JSON, decoding gives them back, and trees with
  the same text are equal.
-/

namespace SharpScript

open Json (Value)

namespace Json.Value

/-! ## Dictionaries with tags -/

/-- Different lists of entries are different dictionaries. -/
theorem object_injective : Function.Injective object := by
  intro es es' h
  refine List.map_injective_iff.2 ?_ (dict.inj h)
  rintro ⟨k, v⟩ ⟨k', v'⟩ heq
  simpa using heq

/-- Dictionaries with tags are the same just if the tags and the entries are. -/
@[simp] theorem tagged_inj {type type' : String} {es es' : List (String × Value)} :
    tagged type es = tagged type' es' ↔ type = type' ∧ es = es' := by
  rw [tagged, tagged, object_injective.eq_iff]
  simp

/-- Different lists of texts are different values. -/
@[simp] theorem texts_inj {ss ss' : List String} : texts ss = texts ss' ↔ ss = ss' := by
  rw [texts, texts, list.injEq]
  exact (List.map_injective_iff.2 fun _ _ => text.inj).eq_iff

@[simp] theorem optional_inj {o o' : Option String} : optional o = optional o' ↔ o = o' := by
  cases o <;> cases o' <;> simp [optional]

/-- A list of texts is plain. -/
theorem plain_texts (ss : List String) : (texts ss).Plain := by
  refine .list fun v hv => ?_
  obtain ⟨s, -, rfl⟩ := List.mem_map.1 hv
  exact .text s

theorem plain_optional (o : Option String) : (optional o).Plain := by
  cases o with
  | none => exact .null
  | some s => exact .text s

/-- A list is plain if its values are. -/
theorem plain_map {α : Type} {f : α → Value} (h : ∀ x, (f x).Plain) (xs : List α) :
    (list (xs.map f)).Plain := by
  refine .list fun v hv => ?_
  obtain ⟨x, -, rfl⟩ := List.mem_map.1 hv
  exact h x

/-- A dictionary with a tag is plain if its keys are different and its values are plain. -/
theorem plain_tagged {type : String} {es : List (String × Value)}
    (distinct : ("_type" :: es.map Prod.fst).Nodup) (values : ∀ e ∈ es, e.2.Plain) :
    (tagged type es).Plain :=
  .object distinct (List.forall_mem_cons.2 ⟨.text type, values⟩)

end Json.Value

/-! ## Different trees have different values -/

section Injective

/-- A position is told from every other by its value, and so is, below, each part of a tree. -/
@[simp] theorem Pos.dump_inj {p q : Pos} : p.dump = q.dump ↔ p = q := by
  obtain ⟨line, col⟩ := p
  obtain ⟨line', col'⟩ := q
  rw [Pos.dump, Pos.dump, Value.list.injEq, List.cons.injEq, List.cons.injEq, Value.int.injEq,
    Value.int.injEq, Int.natCast_inj, Int.natCast_inj, Pos.mk.injEq]
  simp

@[simp] theorem Annotation.dump_inj {a b : Annotation} : a.dump = b.dump ↔ a = b := by
  obtain ⟨pos, name, args⟩ := a
  obtain ⟨pos', name', args'⟩ := b
  unfold Annotation.dump
  simp

@[simp] theorem Param.dump_inj {p q : Param} : p.dump = q.dump ↔ p = q := by
  obtain ⟨pos, name, initial⟩ := p
  obtain ⟨pos', name', initial'⟩ := q
  simp [Param.dump]

@[simp] theorem EnumMember.dump_inj {m m' : EnumMember} : m.dump = m'.dump ↔ m = m' := by
  obtain ⟨pos, name, value, text⟩ := m
  obtain ⟨pos', name', value', text'⟩ := m'
  simp [EnumMember.dump]

/-- Lists of parts are told apart if the parts are. -/
theorem map_dump_inj {α : Type} {f : α → Value} (h : ∀ {x y}, f x = f y ↔ x = y)
    {xs ys : List α} :
    xs.map f = ys.map f ↔ xs = ys :=
  (List.map_injective_iff.2 fun _ _ heq => h.1 heq).eq_iff

@[simp] theorem dumpAnnotations_inj {as bs : List Annotation} :
    dumpAnnotations as = dumpAnnotations bs ↔ as = bs := by
  rw [dumpAnnotations, dumpAnnotations, Value.list.injEq, map_dump_inj Annotation.dump_inj]

/-- A body that is missing is told from one without statements. -/
@[simp] theorem dumpBody_inj {b b' : Option (List String)} :
    dumpBody b = dumpBody b' ↔ b = b' := by
  cases b with
  | none => cases b' <;> simp [dumpBody, Value.texts]
  | some ss =>
    cases b' with
    | none => simp [dumpBody, Value.texts]
    | some ss' => simp [dumpBody]

@[simp] theorem Lead.entries_inj {l l' : Lead} : l.entries = l'.entries ↔ l = l' := by
  obtain ⟨pos, annotations, modifiers⟩ := l
  obtain ⟨pos', annotations', modifiers'⟩ := l'
  simp [Lead.entries]

/-- Different forms of members have different entries. -/
theorem MemberForm.entries_injective : Function.Injective MemberForm.entries := by
  intro f f' h
  cases f <;> cases f' <;>
    simp [MemberForm.entries, callableEntries, map_dump_inj Param.dump_inj] at h ⊢ <;> exact h

@[simp] theorem Member.dump_inj {m m' : Member} : m.dump = m'.dump ↔ m = m' := by
  refine ⟨fun h => ?_, fun h => h ▸ rfl⟩
  obtain ⟨htype, hentries⟩ := Value.tagged_inj.1 h
  obtain ⟨hlead, hform⟩ := List.append_inj hentries rfl
  have hforms := MemberForm.entries_injective (Prod.ext htype hform)
  have hleads := Lead.entries_inj.1 hlead
  cases m
  cases m'
  rw [Member.mk.injEq]
  exact ⟨hleads, hforms⟩

/-- The constructors of items. -/
inductive ItemSort
  | member | scope | type | enumeration | skipped
deriving DecidableEq

/-- The constructor of an item. -/
def Item.sort : Item → ItemSort
  | .member _ => .member
  | .scope _ _ _ => .scope
  | .type _ _ _ _ _ => .type
  | .enumeration _ _ _ => .enumeration
  | .skipped _ _ _ => .skipped

/-- The constructor of the items whose values name a type. -/
def sortOf (tag : String) : ItemSort :=
  if tag = "Namespace" then .scope
  else if tag = "ClassDecl" ∨ tag = "InterfaceDecl" then .type
  else if tag = "EnumDecl" then .enumeration
  else if tag = "OtherDecl" ∨ tag = "Decl" then .skipped
  else .member

/-- The value of an item names a type that tells its constructor. -/
theorem Item.exists_tagged : ∀ i : Item, ∃ tag es, i.dump = .tagged tag es ∧
    sortOf tag = i.sort
  | .member ⟨lead, form⟩ => by
    refine ⟨_, _, by rw [Item.dump]; rfl, ?_⟩
    cases form <;> rfl
  | .scope _ _ _ => ⟨_, _, by rw [Item.dump], rfl⟩
  | .type sort _ _ _ _ => by
    refine ⟨_, _, by rw [Item.dump], ?_⟩
    cases sort <;> rfl
  | .enumeration _ _ _ => ⟨_, _, by rw [Item.dump], rfl⟩
  | .skipped _ _ (some _) => ⟨_, _, by rw [Item.dump], rfl⟩
  | .skipped _ _ none => ⟨_, _, by rw [Item.dump], rfl⟩

/-- The tag of an item says which sort of declaration it is. -/
theorem Item.sort_eq_of_dump_eq {i j : Item} (h : i.dump = j.dump) : i.sort = j.sort := by
  obtain ⟨tag, es, hi, hsort⟩ := i.exists_tagged
  obtain ⟨tag', es', hj, hsort'⟩ := j.exists_tagged
  rw [hi, hj, Value.tagged_inj] at h
  rw [← hsort, ← hsort', h.1]

theorem TypeSort.tag_injective : Function.Injective TypeSort.tag := by
  intro s s' h
  cases s <;> cases s' <;> first | rfl | exact absurd h (by decide)

mutual

/-- Different items have different values. -/
theorem Item.eq_of_dump_eq : ∀ (i : Item) {j : Item}, i.dump = j.dump → i = j
  | .member m, j, h => by
    cases j with
    | member m' =>
      rw [Item.dump, Item.dump, Member.dump_inj] at h
      rw [h]
    | _ => cases Item.sort_eq_of_dump_eq h
  | .scope pos name items, j, h => by
    cases j with
    | scope pos' name' items' =>
      simp only [Item.dump, Value.tagged_inj, List.cons.injEq, Prod.mk.injEq, Pos.dump_inj,
        Value.text.injEq, Value.list.injEq, true_and, and_true] at h
      rw [h.1, h.2.1, eq_of_dumpItems_eq items h.2.2]
    | _ => cases Item.sort_eq_of_dump_eq h
  | .type sort lead name bases items, j, h => by
    cases j with
    | type sort' lead' name' bases' items' =>
      obtain ⟨pos, annotations, modifiers⟩ := lead
      obtain ⟨pos', annotations', modifiers'⟩ := lead'
      simp only [Item.dump, Value.tagged_inj, List.cons.injEq, Prod.mk.injEq, Pos.dump_inj,
        Value.text.injEq, dumpAnnotations_inj, Value.texts_inj, Value.list.injEq, true_and,
        and_true] at h
      obtain ⟨hsort, rfl, rfl, rfl, rfl, rfl, hitems⟩ := h
      rw [TypeSort.tag_injective hsort, eq_of_dumpItems_eq items hitems]
    | _ => cases Item.sort_eq_of_dump_eq h
  | .enumeration lead name members, j, h => by
    cases j with
    | enumeration lead' name' members' =>
      obtain ⟨pos, annotations, modifiers⟩ := lead
      obtain ⟨pos', annotations', modifiers'⟩ := lead'
      simp only [Item.dump, Value.tagged_inj, List.cons.injEq, Prod.mk.injEq, Pos.dump_inj,
        Value.text.injEq, dumpAnnotations_inj, Value.texts_inj, Value.list.injEq,
        map_dump_inj EnumMember.dump_inj, true_and, and_true] at h
      obtain ⟨rfl, rfl, rfl, rfl, rfl⟩ := h
      rfl
    | _ => cases Item.sort_eq_of_dump_eq h
  | .skipped pos name kind, j, h => by
    cases j with
    | skipped pos' name' kind' => cases kind <;> cases kind' <;> simp_all [Item.dump]
    | _ => cases Item.sort_eq_of_dump_eq h

/-- Lists of declarations are told apart. -/
theorem eq_of_dumpItems_eq :
    ∀ (is : List Item) {js : List Item}, dumpItems is = dumpItems js → is = js
  | [], js, h => by
    cases js with
    | nil => rfl
    | cons j js => cases h
  | i :: is, js, h => by
    cases js with
    | nil => cases h
    | cons j js =>
      rw [dumpItems, dumpItems, List.cons.injEq] at h
      rw [Item.eq_of_dump_eq i h.1, eq_of_dumpItems_eq is h.2]

end

/-- **Different trees have different values.** -/
theorem CompilationUnit.dump_injective : Function.Injective CompilationUnit.dump := by
  rintro ⟨usings, items⟩ ⟨usings', items'⟩ h
  simp only [CompilationUnit.dump, Value.tagged_inj, List.cons.injEq, Prod.mk.injEq,
    Value.texts_inj, Value.list.injEq, true_and, and_true] at h
  rw [h.1, eq_of_dumpItems_eq items h.2]

end Injective

/-! ## The value of a tree is plain -/

section Plain

open Json.Value

/-- A position has a plain value, and so has, below, each part of a tree: there is nothing in
it that a document cannot hold. -/
theorem Pos.plain_dump (p : Pos) : p.dump.Plain := by
  refine .list fun v hv => ?_
  simp only [List.mem_cons, List.not_mem_nil, or_false] at hv
  rcases hv with rfl | rfl <;> exact .int _

theorem Annotation.plain_dump (a : Annotation) : a.dump.Plain :=
  plain_tagged (by simp) (by simp [a.pos.plain_dump, Value.Plain.text, plain_texts])

theorem Param.plain_dump (p : Param) : p.dump.Plain :=
  plain_tagged (by simp) (by simp [p.pos.plain_dump, Value.Plain.text, plain_optional])

theorem EnumMember.plain_dump (m : EnumMember) : m.dump.Plain :=
  plain_tagged (by simp) (by simp [m.pos.plain_dump, Value.Plain.text, plain_optional])

theorem plain_dumpAnnotations (as : List Annotation) : (dumpAnnotations as).Plain :=
  plain_map Annotation.plain_dump as

theorem plain_dumpBody (body : Option (List String)) : (dumpBody body).Plain := by
  cases body with
  | none => exact .null
  | some statements => exact plain_texts statements

theorem Lead.plain_entries (l : Lead) : ∀ e ∈ l.entries, e.2.Plain := by
  simp [Lead.entries, l.pos.plain_dump, plain_dumpAnnotations, plain_texts]

theorem MemberForm.plain_entries (f : MemberForm) : ∀ e ∈ f.entries.2, e.2.Plain := by
  cases f <;>
    simp [MemberForm.entries, callableEntries, Value.Plain.text, Value.Plain.bool, plain_texts,
      plain_map Param.plain_dump, plain_dumpBody]

theorem Member.plain_dump (m : Member) : m.dump.Plain := by
  obtain ⟨lead, form⟩ := m
  refine plain_tagged ?_ (List.forall_mem_append.2 ⟨lead.plain_entries, form.plain_entries⟩)
  cases form <;> simp [Lead.entries, MemberForm.entries, callableEntries]

mutual

/-- A declaration has a plain value, with all that it holds. -/
theorem Item.plain_dump : ∀ i : Item, i.dump.Plain
  | .member m => by
    rw [Item.dump]
    exact m.plain_dump
  | .scope pos name items => by
    rw [Item.dump]
    exact plain_tagged (by simp)
      (by simp [pos.plain_dump, Value.Plain.text, Value.Plain.list (plain_dumpItems items)])
  | .type sort lead name bases items => by
    rw [Item.dump]
    exact plain_tagged (by simp)
      (by simp [lead.pos.plain_dump, Value.Plain.text, plain_dumpAnnotations, plain_texts,
        Value.Plain.list (plain_dumpItems items)])
  | .enumeration lead name members => by
    rw [Item.dump]
    exact plain_tagged (by simp)
      (by simp [lead.pos.plain_dump, Value.Plain.text, plain_dumpAnnotations, plain_texts,
        plain_map EnumMember.plain_dump])
  | .skipped pos name (some kind) => by
    rw [Item.dump]
    exact plain_tagged (by simp) (by simp [pos.plain_dump, Value.Plain.text])
  | .skipped pos name none => by
    rw [Item.dump]
    exact plain_tagged (by simp) (by simp [pos.plain_dump, Value.Plain.text])

theorem plain_dumpItems : ∀ is : List Item, ∀ v ∈ dumpItems is, v.Plain
  | [] => fun _ hv => nomatch hv
  | i :: is => by
    rw [dumpItems]
    exact List.forall_mem_cons.2 ⟨i.plain_dump, plain_dumpItems is⟩

end

/-- **The value of a tree is plain.** -/
theorem CompilationUnit.plain_dump (u : CompilationUnit) : u.dump.Plain :=
  plain_tagged (by simp) (by simp [plain_texts, Value.Plain.list (plain_dumpItems u.items)])

end Plain

/-! ## Dumps lose nothing -/

/-- **Dumps lose nothing.**  Compilation units whose values have the same text are the same,
and, in general, a plain value can be written, its text is a document of JSON, and decoding the
document gives the value back.  The decoder accepts just the documents. -/
theorem Json.render_lossless :
    (∀ us vs : List CompilationUnit,
        (Value.list (us.map CompilationUnit.dump)).render =
          (Value.list (vs.map CompilationUnit.dump)).render → us = vs) ∧
      (∀ v : Value, v.Plain → ∃ text, v.render = .ok text ∧ Json.Document text v ∧
        Json.decode text = some v) ∧
      ∀ text v, Json.decode text = some v ↔ Json.Document text v := by
  have written {v : Value} (h : v.Plain) : ∃ text, v.render = .ok text ∧ Json.Document text v ∧
      Json.decode text = some v :=
    ⟨_, h.render_eq, h.document, Json.decode_eq_some_iff.2 h.document⟩
  refine ⟨fun us vs h => ?_, fun v => written, fun _ _ => Json.decode_eq_some_iff⟩
  have plain (us : List CompilationUnit) := Value.plain_map CompilationUnit.plain_dump us
  obtain ⟨text, htext, -, hdecode⟩ := written (plain us)
  obtain ⟨text', htext', -, hdecode'⟩ := written (plain vs)
  -- Both values are what decoding gives for the one text.
  obtain rfl : text = text' := Except.ok.inj (htext.symm.trans (h.trans htext'))
  have hvalues := Value.list.inj (Option.some.inj (hdecode.symm.trans hdecode'))
  exact List.map_injective_iff.2 CompilationUnit.dump_injective hvalues

/-- A dictionary with empty parts, signs of every sort and a name that looks like a list. -/
def Json.intricate : Value :=
  .object [("[\"a\", 1]", .list [.int (-10), .int 0, .list [], .bool true, .null]),
    ("", .text "\\u0041 \"\n\t\x01/é\u2028𝄞"), ("z", .object [])]

/-- A method without a body and one with an empty body have different texts, and an
intricate value is given back. -/
theorem Json.render_lossless_intricate :
    (Value.list ([⟨[], [.member ⟨⟨⟨1, 1⟩, [], []⟩, .method "M" [] none⟩]⟩].map
        CompilationUnit.dump)).render ≠
      (Value.list ([⟨[], [.member ⟨⟨⟨1, 1⟩, [], []⟩, .method "M" [] (some [])⟩]⟩].map
        CompilationUnit.dump)).render ∧
      ∃ text, Json.intricate.render = .ok text ∧ Json.Document text Json.intricate ∧
        Json.decode text = some Json.intricate := by
  have empty : (Value.object []).Plain := .object .nil (fun _ h => nomatch h)
  refine ⟨fun h => ?_, Json.render_lossless.2.1 _ (.object (by decide) ?_)⟩
  · have hbody := Json.render_lossless.1 _ _ h
    simp at hbody
  · simp only [List.forall_mem_cons, List.not_mem_nil, false_imp_iff, implies_true, and_true]
    refine ⟨.list ?_, .text _, empty⟩
    simp only [List.forall_mem_cons, List.not_mem_nil, false_imp_iff, implies_true, and_true]
    exact ⟨.int _, .int _, .list (fun _ h => nomatch h), .bool _, .null⟩

end SharpScript
