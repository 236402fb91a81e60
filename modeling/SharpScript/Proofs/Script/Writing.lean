import SharpScript.Proofs.Tree.Agreement
import SharpScript.Script.Program

/-! # Writing trees that agree

Positions leave no trace in a script.

## Main Results

* `writeItems?_append_eq_ok`: declarations are written one after the other;
* `writeItems?_of_agree`: **trees that differ in positions only are written as the same
  script**, and there is such a script.
-/

namespace SharpScript

/-! ## Parts of declarations -/

section Parts

variable {as bs : List Annotation}

/-- Whether a declaration is left out depends on the names of its annotations. -/
theorem isExcluded_congr (h : AnnotationsAgree Eq Eq as bs) :
    isExcluded as = isExcluded bs := by
  induction h with
  | nil => rfl
  | cons head _ ih =>
    unfold isExcluded at ih ⊢
    rw [List.any_cons, List.any_cons, ih, Marker.selects, Marker.selects, head.name]

theorem any_selects_congr (m : Marker) (h : AnnotationsAgree Eq Eq as bs) :
    as.any m.selects = bs.any m.selects := by
  induction h with
  | nil => rfl
  | cons head _ ih =>
    rw [List.any_cons, List.any_cons, ih, Marker.selects, Marker.selects, head.name]

/-- The lines of a method depend on its annotations only so far as one of them has lines of its
own. -/
theorem methodLines_congr (h : AnnotationsAgree Eq Eq as bs)
    (body : Option (List String)) : methodLines as body = methodLines bs body := by
  induction h with
  | nil => rfl
  | @cons a b _ _ head _ ih =>
    have hselects : Marker.inlineOverride.selects a = Marker.inlineOverride.selects b := by
      rw [Marker.selects, Marker.selects, head.name]
    have hargs : a.args = b.args := List.forall₂_eq_eq_eq ▸ head.args
    unfold methodLines Marker.find? at ih ⊢
    rw [List.find?_cons, List.find?_cons, ← hselects]
    cases Marker.inlineOverride.selects a with
    | true => simp only [hargs, Annotation.payload]
    | false => exact ih

theorem eq_of_option_rel {o o' : Option String} (h : Option.Rel Eq o o') : o = o' := by
  cases h with
  | none => rfl
  | some h => rw [h]

/-- Parameters that agree are written the same. -/
theorem writeParams_congr {ps qs : List Param} (h : List.Forall₂ (Param.Agrees Eq) ps qs) :
    writeParams ps = writeParams qs := by
  have hwrite : ps.map Param.write = qs.map Param.write := by
    induction h with
    | nil => rfl
    | cons head _ ih =>
      rw [List.map_cons, List.map_cons, ih, Param.write, Param.write, head.name,
        eq_of_option_rel head.initial]
  rw [writeParams, writeParams, hwrite]

theorem eq_of_body {b c : Option (List String)} (h : Option.Rel (List.Forall₂ Eq) b c) :
    b = c := by
  cases h with
  | none => rfl
  | some h =>
    rw [List.forall₂_eq_eq_eq] at h
    rw [h]

end Parts

/-! ## Members -/

/-- **Members that agree are written the same.** -/
theorem Member.write?_congr {m n : Member} (h : m.Agrees Eq Eq n) (r : Replacement)
    (owner : String) : (m.replace r).write? owner = (n.replace r).write? owner := by
  obtain ⟨⟨pos, as, mods⟩, form⟩ := m
  obtain ⟨⟨pos', bs, mods'⟩, form'⟩ := n
  obtain ⟨⟨has, hmods⟩, hform⟩ := h
  dsimp only at has hmods hform
  subst hmods
  unfold Member.write?
  rw [Member.replace, Member.replace, isExcluded_congr has]
  cases hform with
  | method name params body =>
    simp only [MemberForm.replace, Member.writeMethod, writeFunction]
    rw [methodLines_congr has, writeParams_congr params, eq_of_body body,
      any_selects_congr _ has]
    rfl
  | constructor name params body =>
    simp only [MemberForm.replace, writeFunction]
    rw [writeParams_congr params, eq_of_body body]
  | field declarators =>
    rw [List.forall₂_eq_eq_eq] at declarators
    rw [declarators]
    rfl
  | property name getter setter => rfl
  | other kind => rfl

/-- A member that agrees with some member is of a known form, so it is written. -/
theorem Member.exists_write? {T K : String → String → Prop} {m n : Member} (h : m.Agrees T K n)
    (r : Replacement) (owner : String) : ∃ f, (m.replace r).write? owner = .ok f := by
  obtain ⟨l, form⟩ := m
  obtain ⟨l', form'⟩ := n
  have hform : form.Agrees K form' := h.form
  unfold Member.write?
  split
  · exact ⟨_, rfl⟩
  cases hform <;> exact ⟨_, rfl⟩

/-- Members of an interface that agree have the same stubs. -/
theorem Member.stub_congr {m n : Member} (h : m.Agrees Eq Eq n) : m.stub = n.stub := by
  obtain ⟨⟨pos, as, mods⟩, form⟩ := m
  obtain ⟨⟨pos', bs, mods'⟩, form'⟩ := n
  obtain ⟨⟨has, hmods⟩, hform⟩ := h
  dsimp only at has hmods hform
  subst hmods
  unfold Member.stub
  rw [isExcluded_congr has]
  cases hform with
  | method name params body =>
    simp only [writeFunction]
    rw [writeParams_congr params]
    rfl
  | constructor name params body => rfl
  | field declarators => rfl
  | property name getter setter => rfl
  | other kind => rfl

/-- So have all the members of an interface. -/
theorem writeStubs_congr {is js : List Item} (h : ItemsAgree Eq Eq is js) :
    writeStubs is = writeStubs js := by
  induction is generalizing js with
  | nil =>
    cases h
    rfl
  | cons i is ih =>
    cases h with
    | cons head tail =>
      rw [writeStubs, writeStubs, ih tail]
      cases head with
      | member h =>
        rw [Item.member?, Item.member?, Option.map_some, Option.map_some, Member.stub_congr h]
      | scope => rfl
      | type => rfl
      | enumeration => rfl
      | skipped => rfl

/-! ## Declarations -/

/-- Pieces of a script behind one another: they are put together as texts are. -/
theorem Fragment.empty_append (f : Fragment) : ∅ ++ f = f := by
  change Fragment.mk ("" ++ f.text) ([] ++ f.entryPoints) = f
  rw [String.empty_append, List.nil_append]

theorem Fragment.append_empty (f : Fragment) : f ++ ∅ = f := by
  change Fragment.mk (f.text ++ "") (f.entryPoints ++ []) = f
  rw [String.append_empty, List.append_nil]

theorem Fragment.append_assoc (f g h : Fragment) : f ++ g ++ h = f ++ (g ++ h) := by
  change Fragment.mk (f.text ++ g.text ++ h.text)
    (f.entryPoints ++ g.entryPoints ++ h.entryPoints) =
    Fragment.mk (f.text ++ (g.text ++ h.text))
    (f.entryPoints ++ (g.entryPoints ++ h.entryPoints))
  rw [String.append_assoc, List.append_assoc]

section Equations

variable (r : Replacement) (lead : Lead) (name : String)

/-- A namespace is written as what stands in it. -/
theorem Item.write?_scope (pos : Pos) (items : List Item) :
    (Item.scope pos name items).write? r = writeItems? r items := rfl

/-- A class is written with its members and its first base, unless it is left out. -/
theorem Item.write?_class (bases : List String) (items : List Item) :
    (Item.type .classType lead name bases items).write? r =
      if isExcluded lead.annotations then .ok ∅
      else do
        let inside ← writeMembers? r name items
        return bracketed "Class" name (writeClass name (extendsTarget bases) inside) := rfl

/-- An interface is written as a class of stubs. -/
theorem Item.write?_interface (bases : List String) (items : List Item) :
    (Item.type .interfaceType lead name bases items).write? r =
      if isExcluded lead.annotations then .ok ∅
      else .ok (bracketed "Interface" name (writeClass name none (writeStubs items))) := rfl

/-- An enumeration is written with its members. -/
theorem Item.write?_enumeration (members : List EnumMember) :
    (Item.enumeration lead name members).write? r =
      if isExcluded lead.annotations then .ok ∅
      else .ok (bracketed "Enum" name (writeEnumeration name members)) := rfl

theorem writeItems?_cons (i : Item) (is : List Item) : writeItems? r (i :: is) =
    i.write? r >>= fun f => writeItems? r is >>= fun g => pure (f ++ g) := rfl

theorem writeUnits?_cons (u : CompilationUnit) (us : List CompilationUnit) :
    writeUnits? r (u :: us) = u.write? r >>= fun f => writeUnits? r us >>= fun g =>
      pure (f ++ .ofText "\n\n" ++ g) := rfl

end Equations

/-- Declarations are written if each of them is. -/
theorem writeItems?_cons_eq_ok {r : Replacement} {i : Item} {is : List Item} {h : Fragment} :
    writeItems? r (i :: is) = .ok h ↔
      ∃ f g, i.write? r = .ok f ∧ writeItems? r is = .ok g ∧ h = f ++ g := by
  rw [writeItems?_cons]
  cases i.write? r with
  | error e => exact ⟨nofun, nofun⟩
  | ok f =>
    cases writeItems? r is with
    | error e => exact ⟨nofun, nofun⟩
    | ok g =>
      exact ⟨fun h => ⟨f, g, rfl, rfl, (Except.ok.inj h).symm⟩,
        by rintro ⟨_, _, ⟨⟩, ⟨⟩, rfl⟩; rfl⟩

/-- An item of the class `owner`. -/
def Item.writeIn? (r : Replacement) (owner : String) (i : Item) :
    Except ScriptError Fragment :=
  match i.member? with
  | some m => (m.replace r).write? owner
  | none => i.write? r

theorem writeMembers?_cons (r : Replacement) (owner : String) (i : Item) (is : List Item) :
    writeMembers? r owner (i :: is) =
      i.writeIn? r owner >>= fun f => writeMembers? r owner is >>= fun g => pure (f ++ g) := by
  unfold writeMembers? Item.writeIn?
  rw [writeMembersWith?]
  cases i.member? <;> rfl

/-- Members are written if each of them is. -/
theorem writeMembers?_cons_eq_ok {r : Replacement} {owner : String} {i : Item} {is : List Item}
    {h : Fragment} :
    writeMembers? r owner (i :: is) = .ok h ↔
      ∃ f g, i.writeIn? r owner = .ok f ∧ writeMembers? r owner is = .ok g ∧ h = f ++ g := by
  rw [writeMembers?_cons]
  cases i.writeIn? r owner with
  | error e => exact ⟨nofun, nofun⟩
  | ok f =>
    cases writeMembers? r owner is with
    | error e => exact ⟨nofun, nofun⟩
    | ok g =>
      exact ⟨fun h => ⟨f, g, rfl, rfl, (Except.ok.inj h).symm⟩,
        by rintro ⟨_, _, ⟨⟩, ⟨⟩, rfl⟩; rfl⟩

/-- Declarations are written one after the other. -/
theorem writeItems?_append_eq_ok {r : Replacement} {is js : List Item} {h : Fragment} :
    writeItems? r (is ++ js) = .ok h ↔
      ∃ f g, writeItems? r is = .ok f ∧ writeItems? r js = .ok g ∧ h = f ++ g := by
  induction is generalizing h with
  | nil =>
    constructor
    · exact fun hjs => ⟨∅, h, rfl, hjs, (Fragment.empty_append h).symm⟩
    · rintro ⟨_, g, ⟨⟩, hg, rfl⟩
      rw [Fragment.empty_append]
      exact hg
  | cons i is ih =>
    rw [List.cons_append, writeItems?_cons_eq_ok]
    constructor
    · rintro ⟨f, _, hf, hrest, rfl⟩
      obtain ⟨f', g, hf', hg, rfl⟩ := ih.mp hrest
      exact ⟨f ++ f', g, writeItems?_cons_eq_ok.mpr ⟨f, f', hf, hf', rfl⟩, hg,
        (Fragment.append_assoc f f' g).symm⟩
    · rintro ⟨_, g, his, hg, rfl⟩
      obtain ⟨f, f', hf, hf', rfl⟩ := writeItems?_cons_eq_ok.mp his
      exact ⟨f, f' ++ g, hf, ih.mpr ⟨f', g, hf', hg, rfl⟩, Fragment.append_assoc f f' g⟩

/-- Enumerations whose members agree are written the same. -/
theorem writeEnumeration_congr (name : String) {es fs : List EnumMember}
    (h : List.Forall₂ (EnumMember.Agrees Eq) es fs) :
    writeEnumeration name es = writeEnumeration name fs := by
  have htexts : es.map EnumMember.text = fs.map EnumMember.text := by
    induction h with
    | nil => rfl
    | cons head _ ih => rw [List.map_cons, List.map_cons, head.text, ih]
  rw [writeEnumeration, writeEnumeration, htexts]

mutual

/-- A declaration is written, whatever its positions. -/
theorem Item.write?_of_agrees (r : Replacement) :
    ∀ {i j : Item}, Item.Agrees Eq Eq i j → ∃ f, i.write? r = .ok f ∧ j.write? r = .ok f
  | _, _, .member _ => ⟨∅, rfl, rfl⟩
  | _, _, .scope _ _ _ h => writeItems?_of_agree r h
  | _, _, .type .classType lead name bases h => by
    obtain ⟨f, hf, hf'⟩ := writeMembers?_of_agree r name h
    rw [List.forall₂_eq_eq_eq] at bases
    rw [Item.write?_class, Item.write?_class,
      isExcluded_congr lead.annotations, hf, hf', bases]
    split
    · exact ⟨_, rfl, rfl⟩
    · exact ⟨_, rfl, rfl⟩
  | _, _, .type .interfaceType lead name _ h => by
    rw [Item.write?_interface, Item.write?_interface, isExcluded_congr lead.annotations,
      writeStubs_congr h]
    split
    · exact ⟨_, rfl, rfl⟩
    · exact ⟨_, rfl, rfl⟩
  | _, _, .enumeration lead name members => by
    rw [Item.write?_enumeration, Item.write?_enumeration, isExcluded_congr lead.annotations,
      writeEnumeration_congr name members]
    split
    · exact ⟨_, rfl, rfl⟩
    · exact ⟨_, rfl, rfl⟩
  | _, _, .skipped _ _ _ _ => ⟨∅, rfl, rfl⟩

/-- **Declarations that agree are written the same**, by induction on how they agree. -/
theorem writeItems?_of_agree (r : Replacement) :
    ∀ {is js : List Item}, ItemsAgree Eq Eq is js →
      ∃ f, writeItems? r is = .ok f ∧ writeItems? r js = .ok f
  | _, _, .nil => ⟨∅, rfl, rfl⟩
  | _, _, .cons head tail => by
    obtain ⟨f, hf, hf'⟩ := Item.write?_of_agrees r head
    obtain ⟨g, hg, hg'⟩ := writeItems?_of_agree r tail
    exact ⟨f ++ g, writeItems?_cons_eq_ok.mpr ⟨f, g, hf, hg, rfl⟩,
      writeItems?_cons_eq_ok.mpr ⟨f, g, hf', hg', rfl⟩⟩

/-- The same for members, with the types in them. -/
theorem writeMembers?_of_agree (r : Replacement) (owner : String) :
    ∀ {is js : List Item}, ItemsAgree Eq Eq is js →
      ∃ f, writeMembers? r owner is = .ok f ∧ writeMembers? r owner js = .ok f
  | _, _, .nil => ⟨∅, rfl, rfl⟩
  | i :: _, j :: _, .cons head tail => by
    obtain ⟨g, hg, hg'⟩ := writeMembers?_of_agree r owner tail
    have hfirst : ∃ f, i.writeIn? r owner = .ok f ∧ j.writeIn? r owner = .ok f := by
      cases head with
      | member h =>
        obtain ⟨f, hf⟩ := Member.exists_write? h r owner
        exact ⟨f, hf, (Member.write?_congr h r owner).symm.trans hf⟩
      | scope pos pos' name h => exact Item.write?_of_agrees r (.scope pos pos' name h)
      | type sort lead name bases h =>
        exact Item.write?_of_agrees r (.type sort lead name bases h)
      | enumeration lead name members =>
        exact Item.write?_of_agrees r (.enumeration lead name members)
      | skipped pos pos' name kind => exact ⟨∅, rfl, rfl⟩
    obtain ⟨f, hf, hf'⟩ := hfirst
    exact ⟨f ++ g, writeMembers?_cons_eq_ok.mpr ⟨f, g, hf, hg, rfl⟩,
      writeMembers?_cons_eq_ok.mpr ⟨f, g, hf', hg', rfl⟩⟩

end

end SharpScript
