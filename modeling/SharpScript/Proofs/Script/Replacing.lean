import SharpScript.Proofs.Script.Writing

/-! # Replacing words before writing

Words are replaced class by class, at the time when a class is written, and the classes
in it are left for later.  The script is that of a tree in which the words have been
replaced everywhere at once.

## Main Definitions

* `Item.mapStatements`, `CompilationUnit.mapStatements`: a function applied to each statement
  of the classes that are reached through namespaces and classes;
* `Item.statements`, `CompilationUnit.statements`: the statements of these classes.

## Main Results

* `Replacement.apply_nil`: the empty replacement changes no text;
* `statementsIn_map`: the function is applied to each statement once;
* `CompilationUnit.write_mapStatements`: **replacing while writing is
  replacing before writing**.
-/

namespace SharpScript

/-! ## The empty replacement -/

/-- Without words to replace, a text stays as it is. -/
theorem Replacement.apply_nil (s : String) : (⟨[]⟩ : Replacement).apply s = s := by
  have hnone : ∀ before cs, (⟨[]⟩ : Replacement).matchAt? before cs = none := by
    intro before cs
    unfold Replacement.matchAt?
    split <;> rfl
  have hscan : ∀ cs before, (⟨[]⟩ : Replacement).scan before 0 cs = cs := by
    intro cs
    induction cs with
    | nil => intro before; rw [Replacement.scan, hnone]
    | cons c cs ih => intro before; rw [Replacement.scan, hnone, ih]
  rw [Replacement.apply, hscan, String.ofList_toList]

theorem Member.replace_nil (m : Member) : m.replace ⟨[]⟩ = m := by
  obtain ⟨lead, form⟩ := m
  have happly : (⟨[]⟩ : Replacement).apply = id := funext Replacement.apply_nil
  cases form <;> simp [Member.replace, MemberForm.replace, happly]

/-! ## The statements of a tree -/

/-- The statements of a member. -/
def MemberForm.statements : MemberForm → List String
  | method _ _ body => body.getD []
  | constructor _ _ body => body.getD []
  | _ => []

/-- The statements of an item, if it is a member. -/
def Item.ownStatements (i : Item) : List String := (i.member?.map (·.form.statements)).getD []

mutual

/-- The statements of the classes that are reached from an item through
namespaces and classes. -/
def Item.statements : Item → List String
  | .scope _ _ items => statementsIn items
  | .type .classType _ _ _ items => classStatements items
  | _ => []

/-- The statements of the classes that are reached from items. -/
def statementsIn : List Item → List String
  | [] => []
  | i :: is => i.statements ++ statementsIn is

/-- The statements of a class with the given items, and of the classes in it. -/
def classStatements : List Item → List String
  | [] => []
  | i :: is => i.ownStatements ++ i.statements ++ classStatements is

end

/-- The statements of all classes of a compilation unit. -/
def CompilationUnit.statements (u : CompilationUnit) : List String := statementsIn u.items

/-! ## Changing the statements of a tree -/

/-- A member with its statements changed. -/
def MemberForm.mapStatements (f : String → String) : MemberForm → MemberForm
  | method name params body => method name params (body.map (·.map f))
  | constructor name params body => constructor name params (body.map (·.map f))
  | form => form

/-- An item with its own statements changed, if it is a member. -/
def Item.mapOwn (f : String → String) : Item → Item
  | .member m => .member { m with form := m.form.mapStatements f }
  | item => item

mutual

/-- An item with the statements changed of the classes that are reached from it
through namespaces and classes.  All else is unchanged, and so are interfaces,
enumerations and what stands in them. -/
def Item.mapStatements (f : String → String) : Item → Item
  | .scope pos name items => .scope pos name (mapStatementsIn f items)
  | .type .classType lead name bases items =>
    .type .classType lead name bases (mapClassStatements f items)
  | item => item

/-- Items with the statements changed of the classes that are reached from them. -/
def mapStatementsIn (f : String → String) : List Item → List Item
  | [] => []
  | i :: is => i.mapStatements f :: mapStatementsIn f is

/-- The items of a class with their statements changed, and those of the classes in it. -/
def mapClassStatements (f : String → String) : List Item → List Item
  | [] => []
  | i :: is => (i.mapStatements f).mapOwn f :: mapClassStatements f is

end

/-- A compilation unit with the statements of all of its classes changed. -/
def CompilationUnit.mapStatements (f : String → String) (u : CompilationUnit) :
    CompilationUnit :=
  { u with items := mapStatementsIn f u.items }

section Statements

variable (f g : String → String)

/-- The statements of a member whose statements are changed. -/
theorem MemberForm.statements_map (m : MemberForm) :
    (m.mapStatements f).statements = m.statements.map f := by
  cases m with
  | method _ _ body => cases body <;> rfl
  | constructor _ _ body => cases body <;> rfl
  | field => rfl
  | property => rfl
  | other => rfl
  | unknown => rfl

theorem MemberForm.mapStatements_comp (m : MemberForm) :
    (m.mapStatements f).mapStatements g = m.mapStatements (g ∘ f) := by
  cases m <;> simp [MemberForm.mapStatements, Function.comp_def]

theorem Item.ownStatements_map (i : Item) :
    ((i.mapStatements f).mapOwn f).ownStatements = i.ownStatements.map f := by
  cases i with
  | member m => exact m.form.statements_map f
  | scope => rfl
  | type sort lead name bases items =>
    rw [Item.mapStatements.eq_def]
    cases sort <;> rfl
  | enumeration => rfl
  | skipped => rfl

theorem Item.statements_mapOwn (i : Item) : (i.mapOwn f).statements = i.statements := by
  cases i <;> rfl

/-- Changing an item's own statements and changing those in it have nothing
to do with each other. -/
theorem Item.mapOwn_comp (i : Item) :
    ((((i.mapStatements f).mapOwn f).mapStatements g).mapOwn g) =
      ((i.mapStatements f).mapStatements g).mapOwn (g ∘ f) := by
  cases i with
  | member m =>
    show Item.member _ = Item.member _
    rw [← MemberForm.mapStatements_comp]
  | scope => rfl
  | type sort lead name bases items =>
    rw [Item.mapStatements.eq_def]
    cases sort <;> rfl
  | enumeration => rfl
  | skipped => rfl

mutual

/-- **The statements of a tree whose statements are changed are the changed statements**, in
the same order. -/
theorem Item.statements_map : ∀ i : Item, (i.mapStatements f).statements = i.statements.map f
  | .member _ => rfl
  | .scope _ _ items => by
    rw [Item.mapStatements, Item.statements, Item.statements, statementsIn_map items]
  | .type .classType _ _ _ items => by
    rw [Item.mapStatements, Item.statements, Item.statements, classStatements_map items]
  | .type .interfaceType _ _ _ _ => rfl
  | .enumeration _ _ _ => rfl
  | .skipped _ _ _ => rfl

/-- The function is applied to each statement once. -/
theorem statementsIn_map :
    ∀ is : List Item, statementsIn (mapStatementsIn f is) = (statementsIn is).map f
  | [] => rfl
  | i :: is => by
    rw [mapStatementsIn, statementsIn, statementsIn, List.map_append, Item.statements_map i,
      statementsIn_map is]

theorem classStatements_map :
    ∀ is : List Item, classStatements (mapClassStatements f is) = (classStatements is).map f
  | [] => rfl
  | i :: is => by
    rw [mapClassStatements, classStatements, classStatements, List.map_append, List.map_append,
      Item.ownStatements_map, Item.statements_mapOwn, Item.statements_map i,
      classStatements_map is]

end

mutual

/-- Two changes one after the other are one change. -/
theorem Item.mapStatements_comp :
    ∀ i : Item, (i.mapStatements f).mapStatements g = i.mapStatements (g ∘ f)
  | .member _ => rfl
  | .scope _ _ items => by
    rw [Item.mapStatements, Item.mapStatements, Item.mapStatements, mapStatementsIn_comp items]
  | .type .classType _ _ _ items => by
    rw [Item.mapStatements, Item.mapStatements, Item.mapStatements,
      mapClassStatements_comp items]
  | .type .interfaceType _ _ _ _ => rfl
  | .enumeration _ _ _ => rfl
  | .skipped _ _ _ => rfl

theorem mapStatementsIn_comp :
    ∀ is : List Item, mapStatementsIn g (mapStatementsIn f is) = mapStatementsIn (g ∘ f) is
  | [] => rfl
  | i :: is => by
    rw [mapStatementsIn, mapStatementsIn, mapStatementsIn, Item.mapStatements_comp i,
      mapStatementsIn_comp is]

theorem mapClassStatements_comp :
    ∀ is : List Item, mapClassStatements g (mapClassStatements f is) =
      mapClassStatements (g ∘ f) is
  | [] => rfl
  | i :: is => by
    rw [mapClassStatements, mapClassStatements, mapClassStatements, Item.mapOwn_comp,
      Item.mapStatements_comp i, mapClassStatements_comp is]

end

end Statements

/-! ## Writing -/

section Writing

variable (r : Replacement)

/-- Replacing words in a member is a change of its statements. -/
theorem Member.replace_eq (m : Member) :
    m.replace r = { m with form := m.form.mapStatements r.apply } := by
  obtain ⟨lead, form⟩ := m
  cases form <;> rfl

mutual

/-- Words may be replaced in the tree before it is written, or while it is. -/
theorem Item.write?_mapStatements : ∀ i :
    Item, (i.mapStatements r.apply).write? ⟨[]⟩ = i.write? r
  | .member _ => rfl
  | .scope _ _ items => by
    rw [Item.mapStatements, Item.write?_scope, Item.write?_scope,
      writeItems?_mapStatementsIn items]
  | .type .classType lead name bases items => by
    rw [Item.mapStatements, Item.write?_class, Item.write?_class,
      writeMembers?_mapClassStatements name items]
  | .type .interfaceType _ _ _ _ => rfl
  | .enumeration _ _ _ => rfl
  | .skipped _ _ _ => rfl

theorem writeItems?_mapStatementsIn :
    ∀ is : List Item, writeItems? ⟨[]⟩ (mapStatementsIn r.apply is) = writeItems? r is
  | [] => rfl
  | i :: is => by
    rw [mapStatementsIn, writeItems?_cons, writeItems?_cons, Item.write?_mapStatements i,
      writeItems?_mapStatementsIn is]

/-- The members of a class are replaced before they are written, and the
classes in it later. -/
theorem writeMembers?_mapClassStatements (owner : String) : ∀ is : List Item,
    writeMembers? ⟨[]⟩ owner (mapClassStatements r.apply is) = writeMembers? r owner is
  | [] => rfl
  | i :: is => by
    have hfirst : ((i.mapStatements r.apply).mapOwn r.apply).writeIn? ⟨[]⟩ owner =
        i.writeIn? r owner := by
      cases i with
      | member m =>
        show (Member.replace ⟨[]⟩ { m with form := m.form.mapStatements r.apply }).write?
          owner = (m.replace r).write? owner
        rw [Member.replace_nil, Member.replace_eq]
      | scope pos name items => exact Item.write?_mapStatements (.scope pos name items)
      | type sort lead name bases items =>
        have hwrite := Item.write?_mapStatements (.type sort lead name bases items)
        cases sort with
        | classType =>
          rw [Item.mapStatements] at hwrite ⊢
          exact hwrite
        | interfaceType => exact hwrite
      | enumeration => rfl
      | skipped => rfl
    rw [mapClassStatements, writeMembers?_cons, writeMembers?_cons, hfirst,
      writeMembers?_mapClassStatements owner is]

end

end Writing

/-- **Replacing words in each class when it is written gives the script, or the failure, of
the tree in which the words have been replaced before.**  In that tree every statement of a
class, at any depth, has been replaced exactly once, and apart from these statements it is
the tree that there was. -/
theorem CompilationUnit.write_mapStatements (r : Replacement) (u : CompilationUnit) :
    u.write? r = (u.mapStatements r.apply).write? ⟨[]⟩ ∧
      (u.mapStatements r.apply).statements = u.statements.map r.apply ∧
      ∀ s, (u.mapStatements r.apply).mapStatements (fun _ => s) =
      u.mapStatements fun _ => s := by
  refine ⟨(writeItems?_mapStatementsIn r u.items).symm,
    statementsIn_map r.apply u.items, fun s => ?_⟩
  exact congrArg (CompilationUnit.mk u.usings)
    (mapStatementsIn_comp r.apply (fun _ => s) u.items)

end SharpScript
