import SharpScript.Tree.Declares

/-! # What a tree holds

## Main Definitions

* `Item.within`, `itemsWithin`: declarations and all that they hold, at any depth;
* `Offers`: declarations among which, or in whose namespaces, there is a type.

## Main Results

* `declaresAny_iff_offers`: whether a tree declares something is decided.
-/

namespace SharpScript

mutual

/-- A declaration and all that it holds. -/
def Item.within : Item → List Item
  | .member m => [.member m]
  | .scope pos name items => .scope pos name items :: itemsWithin items
  | .type sort lead name bases items => .type sort lead name bases items :: itemsWithin items
  | .enumeration lead name members => [.enumeration lead name members]
  | .skipped pos name kind => [.skipped pos name kind]

/-- Declarations and all that they hold. -/
def itemsWithin : List Item → List Item
  | [] => []
  | i :: is => i.within ++ itemsWithin is

end

/-- A class, an interface or an enumeration stands among the items, or in a
namespace among them. -/
inductive Offers : List Item → Prop
  | type {is : List Item} {sort : TypeSort} {lead : Lead} {name : String} {bases : List String}
      {items : List Item} (h : Item.type sort lead name bases items ∈ is) : Offers is
  | enumeration {is : List Item} {lead : Lead} {name : String} {members : List EnumMember}
      (h : Item.enumeration lead name members ∈ is) : Offers is
  | scope {is : List Item} {pos : Pos} {name : String} {items : List Item}
      (h : Item.scope pos name items ∈ is) (hitems : Offers items) : Offers is

theorem Offers.mono {is js : List Item} (h : Offers is) (hsub : is ⊆ js) : Offers js := by
  cases h with
  | type h => exact .type (hsub h)
  | enumeration h => exact .enumeration (hsub h)
  | scope h hitems => exact .scope (hsub h) hitems

theorem Offers.declaresAny_eq_true {is : List Item} (h : Offers is) :
    declaresAny is = true := by
  induction h with
  | type h => exact declaresAny_eq_any _ ▸ List.any_eq_true.mpr ⟨_, h, rfl⟩
  | enumeration h => exact declaresAny_eq_any _ ▸ List.any_eq_true.mpr ⟨_, h, rfl⟩
  | scope h _ ih =>
    rw [declaresAny_eq_any]
    exact List.any_eq_true.mpr ⟨_, h, by rw [Item.declares, ih]⟩

mutual

theorem Item.offers_of_declares : ∀ i : Item, i.declares = true → Offers [i]
  | .member _, h => nomatch h
  | .scope _ _ items, h => .scope List.mem_cons_self (offers_of_declaresAny items h)
  | .type .., _ => .type List.mem_cons_self
  | .enumeration .., _ => .enumeration List.mem_cons_self
  | .skipped .., h => nomatch h

theorem offers_of_declaresAny : ∀ is : List Item, declaresAny is = true → Offers is
  | [], h => nomatch h
  | i :: is, h => by
    rw [declaresAny, Bool.or_eq_true] at h
    rcases h with h | h
    · exact (Item.offers_of_declares i h).mono (List.cons_subset_cons i (List.nil_subset is))
    · exact (offers_of_declaresAny is h).mono (List.subset_cons_self i is)

end

/-- Whether a tree declares something is decided. -/
theorem declaresAny_iff_offers {is : List Item} : declaresAny is = true ↔ Offers is :=
  ⟨offers_of_declaresAny is, Offers.declaresAny_eq_true⟩

end SharpScript
