import SharpScript.Proofs.Tree.Agreement

/-! # Names renamed in trees

## Main Definitions

* `renameDotted`: the parts of a dotted name renamed;
* `Item.rename`, `CompilationUnit.rename`: trees in which names are
  renamed, and texts are kept.

## Main Results

* `renameDotted_intercalate`: a name that is put together from parts is renamed part by part;
* `renameItems_append`: declarations are renamed one by one.
-/

namespace SharpScript

variable (f : String → String)

/-- A parameter with its name renamed. -/
def Param.rename (p : Param) : Param := { p with name := f p.name }

/-- The form of a member with its names renamed. -/
def MemberForm.rename : MemberForm → MemberForm
  | method name params body => method (f name) (params.map (Param.rename f)) body
  | constructor name params body => constructor (f name) (params.map (Param.rename f)) body
  | property name getter setter => property (f name) getter setter
  | form => form

/-- A member with its names renamed. -/
def Member.rename (m : Member) : Member := { m with form := m.form.rename f }

/-- A member of an enumeration with its name renamed. -/
def EnumMember.rename (m : EnumMember) : EnumMember := { m with name := f m.name }

/-- A dotted name with its parts renamed. -/
def renameDotted (name : String) : String :=
  ".".intercalate ((name.toList.splitOn '.').map fun part => f (String.ofList part))

mutual

/-- A declaration with its names renamed. -/
def Item.rename (f : String → String) : Item → Item
  | .member m => .member (m.rename f)
  | .scope pos name items => .scope pos (renameDotted f name) (renameItems f items)
  | .type sort lead name bases items => .type sort lead (f name) bases (renameItems f items)
  | .enumeration lead name members =>
    .enumeration lead (f name) (members.map (EnumMember.rename f))
  | .skipped pos name kind => .skipped pos (f name) kind

/-- Declarations with their names renamed. -/
def renameItems (f : String → String) : List Item → List Item
  | [] => []
  | i :: is => i.rename f :: renameItems f is

end

/-- A compilation unit with its names renamed. -/
def CompilationUnit.rename (u : CompilationUnit) : CompilationUnit :=
  { u with items := renameItems f u.items }

variable {f}

theorem renameItems_append (is js : List Item) :
    renameItems f (is ++ js) = renameItems f is ++ renameItems f js := by
  induction is with
  | nil => rfl
  | cons i is ih => rw [List.cons_append, renameItems, ih, renameItems, List.cons_append]

/-- A name that is put together from parts is renamed part by part. -/
theorem renameDotted_intercalate {parts : List String} (hne : parts ≠ [])
    (hparts : ∀ s ∈ parts, '.' ∉ s.toList) :
    renameDotted f (".".intercalate parts) = ".".intercalate (parts.map f) := by
  have hpoint : (".".intercalate parts).toList = ['.'].intercalate (parts.map String.toList) :=
    String.toList_intercalate
  have hsplit : (".".intercalate parts).toList.splitOn '.' = parts.map String.toList := by
    rw [hpoint]
    refine List.splitOn_intercalate '.' (fun l hl => ?_) (by simpa using hne)
    obtain ⟨s, hs, rfl⟩ := List.mem_map.mp hl
    exact hparts s hs
  rw [renameDotted, hsplit, List.map_map]
  congr 1
  exact List.map_congr_left fun s _ => congrArg f String.ofList_toList

end SharpScript
