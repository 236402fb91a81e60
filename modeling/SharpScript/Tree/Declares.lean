import SharpScript.Tree.Basic

/-! # Whether there is anything to declare

## Main Definitions

* `Item.declares`: an item that is, or holds in nested namespaces, a class, an interface or an
  enumeration;
* `declaresAny`: a list with such an item.
-/

namespace SharpScript

mutual

/-- Whether an item is a class, an interface or an enumeration, or a
namespace with one inside. -/
def Item.declares : Item → Bool
  | .type .. | .enumeration .. => true
  | .scope _ _ items => declaresAny items
  | .member _ | .skipped .. => false

/-- Whether one of the items declares something. -/
def declaresAny : List Item → Bool
  | [] => false
  | i :: is => i.declares || declaresAny is

end

theorem declaresAny_eq_any (items : List Item) :
    declaresAny items = items.any Item.declares := by
  induction items with
  | nil => rfl
  | cons i is ih => simp [declaresAny, ih]

end SharpScript
