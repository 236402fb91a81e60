import SharpScript.Proofs.Script.Writing
import SharpScript.Proofs.Tree.Within

/-! # Leaving out what is excluded

A declaration or a member with the marker for exclusion leaves no trace in a script, and
neither does anything that stands in it.

## Main Definitions

* `Item.excluded`: a declaration or a member that carries the marker itself;
* `Item.prune`, `pruneItems`: declarations without those that are excluded, at any depth.

## Main Results

* `Item.write?_of_excluded`, `Item.writeIn?_of_excluded`, `Item.stub_of_excluded`: what is
  excluded is written as nothing;
* `excluded_of_mem_itemsWithin_prune`: nothing that is excluded is left;
* `CompilationUnit.write_prune`: **excluded parts have no influence on the script**.
-/

namespace SharpScript

/-! ## Pruning -/

/-- The annotations that an item carries itself. -/
def Item.annotations : Item → List Annotation
  | .member m => m.lead.annotations
  | .type _ lead _ _ _ => lead.annotations
  | .enumeration lead _ _ => lead.annotations
  | .scope .. | .skipped .. => []

/-- Whether an item carries the marker for exclusion. -/
def Item.excluded (i : Item) : Bool := isExcluded i.annotations

mutual

/-- A declaration without what is excluded in it. -/
def Item.prune : Item → Item
  | .scope pos name items => .scope pos name (pruneItems items)
  | .type sort lead name bases items => .type sort lead name bases (pruneItems items)
  | item => item

/-- The declarations that are not excluded, without what is excluded in them. -/
def pruneItems : List Item → List Item
  | [] => []
  | i :: is => if i.excluded then pruneItems is else i.prune :: pruneItems is

end

/-- A compilation unit without what is excluded. -/
def CompilationUnit.prune (u : CompilationUnit) : CompilationUnit :=
  { u with items := pruneItems u.items }

/-- An item of an interface. -/
def Item.stub (i : Item) : Fragment := (i.member?.map Member.stub).getD ∅

mutual

theorem Item.excluded_of_mem_within_prune :
    ∀ i : Item, i.excluded = false → ∀ j ∈ i.prune.within, j.excluded = false
  | .member m, hi => by
    simpa [Item.prune, Item.within] using hi
  | .scope pos name items, _ => by
    rintro j (_ | ⟨_, hj⟩)
    · rfl
    · exact excluded_of_mem_itemsWithin_prune items j hj
  | .type sort lead name bases items, hi => by
    rintro j (_ | ⟨_, hj⟩)
    · exact hi
    · exact excluded_of_mem_itemsWithin_prune items j hj
  | .enumeration lead name members, hi => by
    simpa [Item.prune, Item.within] using hi
  | .skipped pos name kind, hi => by
    simpa [Item.prune, Item.within] using hi

/-- Nothing that is excluded is left, at any depth. -/
theorem excluded_of_mem_itemsWithin_prune :
    ∀ is : List Item, ∀ j ∈ itemsWithin (pruneItems is), j.excluded = false
  | [], j, hj => nomatch hj
  | i :: is, j, hj => by
    rw [pruneItems] at hj
    split at hj
    · exact excluded_of_mem_itemsWithin_prune is j hj
    · rename_i hi
      rcases List.mem_append.mp hj with hj | hj
      · exact Item.excluded_of_mem_within_prune i (Bool.not_eq_true _ ▸ hi) j hj
      · exact excluded_of_mem_itemsWithin_prune is j hj

end

/-! ## Writing -/

section Writing

variable (r : Replacement)

theorem Item.write?_of_excluded {i : Item} (h : i.excluded = true) : i.write? r = .ok ∅ := by
  have hannotations : isExcluded i.annotations = true := h
  cases i with
  | member => rfl
  | scope => cases hannotations
  | type sort => cases sort <;> exact if_pos hannotations
  | enumeration => exact if_pos hannotations
  | skipped => rfl

theorem Item.writeIn?_of_excluded (owner : String) {i : Item} (h : i.excluded = true) :
    i.writeIn? r owner = .ok ∅ := by
  cases i with
  | member m => exact if_pos h
  | _ => exact Item.write?_of_excluded r h

theorem Item.stub_of_excluded {i : Item} (h : i.excluded = true) : i.stub = ∅ := by
  cases i with
  | member m => exact if_pos h
  | _ => rfl

theorem writeStubs_pruneItems (is : List Item) :
    writeStubs (pruneItems is) = writeStubs is := by
  induction is with
  | nil => rfl
  | cons i is ih =>
    have hcons : ∀ i is, writeStubs (i :: is) = i.stub ++ writeStubs is := fun _ _ => rfl
    have hstub : i.prune.stub = i.stub := by cases i <;> rfl
    rw [pruneItems]
    split
    · rename_i h
      rw [hcons, Item.stub_of_excluded h, Fragment.empty_append, ih]
    · rw [hcons, hcons, hstub, ih]

/-- What is written behind nothing. -/
theorem ok_empty_bind (x : Except ScriptError Fragment) :
    ((.ok ∅ : Except ScriptError Fragment) >>= fun f => x >>= fun g => pure (f ++ g)) = x := by
  show (x >>= fun g => pure (∅ ++ g)) = x
  simp only [Fragment.empty_append, bind_pure]

mutual

theorem Item.write?_prune : ∀ i : Item, i.prune.write? r = i.write? r
  | .member _ => rfl
  | .scope _ _ items => by
    rw [Item.prune, Item.write?_scope, Item.write?_scope, writeItems?_pruneItems items]
  | .type .classType _ name _ items => by
    rw [Item.prune, Item.write?_class, Item.write?_class, writeMembers?_pruneItems name items]
  | .type .interfaceType _ _ _ items => by
    rw [Item.prune, Item.write?_interface, Item.write?_interface, writeStubs_pruneItems items]
  | .enumeration _ _ _ => rfl
  | .skipped _ _ _ => rfl

theorem writeItems?_pruneItems : ∀ is :
    List Item, writeItems? r (pruneItems is) = writeItems? r is
  | [] => rfl
  | i :: is => by
    rw [pruneItems]
    split
    · rename_i h
      rw [writeItems?_cons, Item.write?_of_excluded r h,
        writeItems?_pruneItems is, ok_empty_bind]
    · rw [writeItems?_cons, writeItems?_cons, Item.write?_prune i, writeItems?_pruneItems is]

theorem writeMembers?_pruneItems (owner : String) :
    ∀ is : List Item, writeMembers? r owner (pruneItems is) = writeMembers? r owner is
  | [] => rfl
  | i :: is => by
    have hfirst : i.prune.writeIn? r owner = i.writeIn? r owner := by
      cases i with
      | member => rfl
      | scope pos name items => exact Item.write?_prune (.scope pos name items)
      | type sort lead name bases items =>
        exact Item.write?_prune (.type sort lead name bases items)
      | enumeration => rfl
      | skipped => rfl
    rw [pruneItems]
    split
    · rename_i h
      rw [writeMembers?_cons, Item.writeIn?_of_excluded r owner h, ok_empty_bind,
        writeMembers?_pruneItems owner is]
    · rw [writeMembers?_cons, writeMembers?_cons, hfirst, writeMembers?_pruneItems owner is]

end

end Writing

/-- **Excluded parts have no influence on the script.**  Without them, and nothing of them is
left at any depth, a compilation unit is written as the same script with the same entry
points, or fails as before. -/
theorem CompilationUnit.write_prune (r : Replacement) (u : CompilationUnit) :
    u.prune.write? r = u.write? r ∧ ∀ i ∈ itemsWithin u.prune.items, i.excluded = false :=
  ⟨writeItems?_pruneItems r u.items, excluded_of_mem_itemsWithin_prune u.items⟩

end SharpScript
