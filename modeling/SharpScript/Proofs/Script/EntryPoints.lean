import SharpScript.Proofs.Script.Writing

/-! # Entry points

The entry points of a script are collected while it is written, and called behind all that has
been written.  Which methods are called, and in which order, is told from the tree alone; and
whatever is called has been written.

## Main Definitions

* `Reached`: the classes of a tree that are written;
* `Item.classMembers`, `classMembersIn`: the members of these classes, each with its class, in
  the order of the source text;
* `CompilationUnit.entryPoints`: the methods among them that are marked as entry points;
* `StandsIn`: a text stands in another one, at the start of a line;
* `ClassNode.Shows`: a text holds the script of a class, and in it a method of the class.

## Main Results

* `mem_classMembersIn_iff`: the members that are listed are those of the
  classes that are reached;
* `Item.entryPoints_write`: the entry points that are collected are those of the tree;
* `Reached.standsIn`: a class that is reached is written;
* `assemble_entryPoints`: **entry points are called in order, each once,
  and have been written**.
-/

namespace SharpScript

/-! ## Classes and their members -/

/-- A class of a tree. -/
structure ClassNode where
  lead : Lead
  name : String
  bases : List String
  items : List Item

/-- The item that a class is. -/
def ClassNode.item (c : ClassNode) : Item := .type .classType c.lead c.name c.bases c.items

/-- A class is reached from items when it stands among them, in a namespace or in a class among
them, and so on.  It is not excluded, and neither is a class on the way to it; no way leads
through an interface. -/
inductive Reached : List Item → ClassNode → Prop
  | here {is : List Item} {c : ClassNode} (h : c.item ∈ is)
      (hc : isExcluded c.lead.annotations = false) : Reached is c
  | scope {is : List Item} {c : ClassNode} {pos : Pos} {name : String} {items : List Item}
      (h : Item.scope pos name items ∈ is) (hitems : Reached items c) : Reached is c
  | nested {is : List Item} {c d : ClassNode} (h : d.item ∈ is)
      (hd : isExcluded d.lead.annotations = false) (hitems : Reached d.items c) : Reached is c

mutual

/-- The members of the classes that are reached from an item, each with
its class, depth first. -/
def Item.classMembers : Item → List (ClassNode × Member)
  | .scope _ _ items => classMembersIn items
  | .type .classType lead name bases items =>
    if isExcluded lead.annotations then [] else membersOf ⟨lead, name, bases, items⟩ items
  | _ => []

/-- The members of the classes that are reached from items. -/
def classMembersIn : List Item → List (ClassNode × Member)
  | [] => []
  | i :: is => i.classMembers ++ classMembersIn is

/-- The members of the class `c` among its items, and between them those
of the classes in it. -/
def membersOf (c : ClassNode) : List Item → List (ClassNode × Member)
  | [] => []
  | i :: is => (i.member?.map fun m => (c, m)).toList ++ i.classMembers ++ membersOf c is

end

/-- The entry point that a member of the class `c` is: a method that is marked as
one, and is not excluded. -/
def ClassNode.entryPoint? (c : ClassNode) (m : Member) : Option EntryPoint :=
  match m.form with
  | .method name _ _ =>
    if m.lead.annotations.any Marker.entryPoint.selects && !isExcluded m.lead.annotations then
      some ⟨c.name, name⟩
    else none
  | _ => none

/-- The entry points among members. -/
def entryPointsOf (ps : List (ClassNode × Member)) : List EntryPoint :=
  ps.filterMap fun p => p.1.entryPoint? p.2

/-- The entry points of a tree, in the order of the source text. -/
def CompilationUnit.entryPoints (u : CompilationUnit) : List EntryPoint :=
  entryPointsOf (classMembersIn u.items)

/-- Entry points are found member by member. -/
theorem entryPointsOf_append (ps qs : List (ClassNode × Member)) :
    entryPointsOf (ps ++ qs) = entryPointsOf ps ++ entryPointsOf qs :=
  List.filterMap_append

theorem entryPointsOf_singleton (c : ClassNode) (m : Member) :
    entryPointsOf [(c, m)] = (c.entryPoint? m).toList := by
  rw [entryPointsOf, List.filterMap_cons]
  cases c.entryPoint? m with
  | none => rfl
  | some e => rfl

/-! ## The members that are listed -/

/-- Each function lists the members of the classes that the definition of `Reached` allows;
here the members of an item are those of a list that holds it. -/
theorem mem_classMembersIn {is : List Item} {i : Item} (hi : i ∈ is) {p : ClassNode × Member}
    (hp : p ∈ i.classMembers) : p ∈ classMembersIn is := by
  induction is with
  | nil => cases hi
  | cons j is ih =>
    rcases List.mem_cons.mp hi with rfl | hi
    · exact List.mem_append_left _ hp
    · exact List.mem_append_right _ (ih hi)

/-- The members of a class are listed with the class. -/
theorem member_mem_membersOf (c : ClassNode) {is : List Item} {m : Member}
    (h : Item.member m ∈ is) : (c, m) ∈ membersOf c is := by
  induction is with
  | nil => cases h
  | cons i is ih =>
    rw [membersOf]
    rcases List.mem_cons.mp h with rfl | h
    · exact List.mem_append_left _ List.mem_cons_self
    · exact List.mem_append_right _ (ih h)

/-- So are the members of the classes in it. -/
theorem classMembersIn_subset_membersOf (c : ClassNode) (is : List Item) :
    classMembersIn is ⊆ membersOf c is := by
  induction is with
  | nil => exact List.Subset.refl []
  | cons i is ih =>
    rw [classMembersIn, membersOf]
    exact List.append_subset.mpr
      ⟨fun _ h => List.mem_append_left _ (List.mem_append_right _ h),
        fun _ h => List.mem_append_right _ (ih h)⟩

/-- A class that is not excluded lists its own members and those of the classes in it. -/
theorem ClassNode.classMembers_item {c : ClassNode}
    (hc : isExcluded c.lead.annotations = false) :
    c.item.classMembers = membersOf c c.items := by
  rw [ClassNode.item, Item.classMembers, hc]
  rfl

/-- A class is reached among more items, too. -/
theorem Reached.mono {is js : List Item} {c : ClassNode} (h : Reached is c) (hsub : is ⊆ js) :
    Reached js c := by
  cases h with
  | here h hc => exact .here (hsub h) hc
  | scope h hitems => exact .scope (hsub h) hitems
  | nested h hd hitems => exact .nested (hsub h) hd hitems

/-- The members of a class that is reached are listed. -/
theorem Reached.mem_classMembersIn {is : List Item} {c : ClassNode} (h : Reached is c)
    {m : Member} (hm : Item.member m ∈ c.items) : (c, m) ∈ classMembersIn is := by
  induction h with
  | here h hc =>
    exact SharpScript.mem_classMembersIn h
      (ClassNode.classMembers_item hc ▸ member_mem_membersOf _ hm)
  | scope h _ ih => exact SharpScript.mem_classMembersIn h (ih hm)
  | nested h hd _ ih =>
    exact SharpScript.mem_classMembersIn h
      (ClassNode.classMembers_item hd ▸ classMembersIn_subset_membersOf _ _ (ih hm))

mutual

theorem Item.reached_of_mem {c : ClassNode} {m : Member} :
    ∀ i : Item, (c, m) ∈ i.classMembers → Reached [i] c ∧ .member m ∈ c.items
  | .member _, h => nomatch h
  | .scope pos name items, h =>
    have ⟨hreached, hm⟩ := reached_of_mem_classMembersIn items h
    ⟨.scope List.mem_cons_self hreached, hm⟩
  | .type .classType lead name bases items, h => by
    rw [Item.classMembers] at h
    split at h
    · cases h
    · rename_i hlead
      have hexcluded : isExcluded lead.annotations = false := Bool.eq_false_iff.mpr hlead
      let d : ClassNode := ⟨lead, name, bases, items⟩
      have hd : d.item ∈ [Item.type .classType lead name bases items] :=
        List.mem_singleton.mpr rfl
      rcases reached_of_mem_membersOf d items h with ⟨rfl, hm⟩ | ⟨hreached, hm⟩
      · exact ⟨.here hd hexcluded, hm⟩
      · exact ⟨.nested hd hexcluded hreached, hm⟩
  | .type .interfaceType _ _ _ _, h => nomatch h
  | .enumeration _ _ _, h => nomatch h
  | .skipped _ _ _, h => nomatch h

/-- Only members of classes that are reached are listed. -/
theorem reached_of_mem_classMembersIn {c : ClassNode} {m : Member} :
    ∀ is : List Item, (c, m) ∈ classMembersIn is → Reached is c ∧ .member m ∈ c.items
  | [], h => nomatch h
  | i :: is, h => by
    rcases List.mem_append.mp h with h | h
    · obtain ⟨hreached, hm⟩ := Item.reached_of_mem i h
      exact ⟨hreached.mono (List.cons_subset_cons i (List.nil_subset is)), hm⟩
    · obtain ⟨hreached, hm⟩ := reached_of_mem_classMembersIn is h
      exact ⟨hreached.mono (List.subset_cons_self i is), hm⟩

theorem reached_of_mem_membersOf {c : ClassNode} {m : Member} (d : ClassNode) :
    ∀ is : List Item, (c, m) ∈ membersOf d is →
      (c = d ∧ .member m ∈ is) ∨ (Reached is c ∧ .member m ∈ c.items)
  | [], h => nomatch h
  | i :: is, h => by
    rw [membersOf, List.mem_append, List.mem_append] at h
    rcases h with (h | h) | h
    · cases i with
      | member n =>
        obtain ⟨rfl, rfl⟩ := Prod.mk.inj (List.mem_singleton.mp h)
        exact .inl ⟨rfl, List.mem_cons_self⟩
      | _ => cases h
    · obtain ⟨hreached, hm⟩ := Item.reached_of_mem i h
      exact .inr ⟨hreached.mono (List.cons_subset_cons i (List.nil_subset is)), hm⟩
    · rcases reached_of_mem_membersOf d is h with ⟨hc, hm⟩ | ⟨hreached, hm⟩
      · exact .inl ⟨hc, List.mem_cons_of_mem i hm⟩
      · exact .inr ⟨hreached.mono (List.subset_cons_self i is), hm⟩

end

/-- The members that are listed are those of the classes that are reached. -/
theorem mem_classMembersIn_iff {is : List Item} {c : ClassNode} {m : Member} :
    (c, m) ∈ classMembersIn is ↔ Reached is c ∧ .member m ∈ c.items :=
  ⟨reached_of_mem_classMembersIn is, fun h => h.1.mem_classMembersIn h.2⟩

/-! ## Collecting -/

section Collecting

variable (r : Replacement)

/-- The comments around a declaration add no entry point. -/
theorem entryPoints_bracketed (kind name : String) (f : Fragment) :
    (bracketed kind name f).entryPoints = f.entryPoints := by
  simp [bracketed]

theorem entryPoints_writeClass (name : String) (base : Option String) (f : Fragment) :
    (writeClass name base f).entryPoints = f.entryPoints := by
  simp [writeClass]

/-- The members of an interface are no entry points. -/
theorem Member.entryPoints_stub (m : Member) : m.stub.entryPoints = [] := by
  unfold Member.stub
  split
  · rfl
  · split
    · split <;> rfl
    · rfl
    · rfl

theorem entryPoints_writeStubs (is : List Item) : (writeStubs is).entryPoints = [] := by
  induction is with
  | nil => rfl
  | cons i is ih =>
    rw [writeStubs, Fragment.entryPoints_append, ih]
    cases i with
    | member m => exact congrArg (· ++ []) m.entryPoints_stub
    | _ => rfl

/-- A member that is written is collected if it is an entry point,
whatever is replaced in it. -/
theorem ClassNode.entryPoints_write (c : ClassNode) {m : Member} {f : Fragment}
    (h : (m.replace r).write? c.name = .ok f) : f.entryPoints = (c.entryPoint? m).toList := by
  obtain ⟨lead, form⟩ := m
  unfold Member.write? at h
  unfold ClassNode.entryPoint?
  split at h
  · rename_i hexcluded
    have hlead : isExcluded lead.annotations = true := hexcluded
    cases h
    cases form <;> simp [hlead]
  · rename_i hexcluded
    have hlead : isExcluded lead.annotations = false := Bool.eq_false_iff.mpr hexcluded
    cases form with
    | method name params body =>
      cases h
      change (if lead.annotations.any Marker.entryPoint.selects then [_] else []) =
        (if lead.annotations.any Marker.entryPoint.selects && !isExcluded lead.annotations then
          some _ else none).toList
      rw [hlead, Bool.not_false, Bool.and_true]
      by_cases hmark : lead.annotations.any Marker.entryPoint.selects = true
      · rw [if_pos hmark, if_pos hmark]
        rfl
      · rw [if_neg hmark, if_neg hmark]
        rfl
    | constructor => cases h; rfl
    | field => cases h; rfl
    | property => cases h; rfl
    | other => cases h; rfl
    | unknown => cases h

/-- How a class that is not excluded is written. -/
theorem ClassNode.write?_item {c : ClassNode} (hc : isExcluded c.lead.annotations = false)
    {g : Fragment} : c.item.write? r = .ok g ↔
      ∃ inside, writeMembers? r c.name c.items = .ok inside ∧
        g = bracketed "Class" c.name (writeClass c.name (extendsTarget c.bases) inside) := by
  rw [ClassNode.item, Item.write?_class, hc, if_neg Bool.false_ne_true]
  cases writeMembers? r c.name c.items with
  | error e => exact ⟨nofun, nofun⟩
  | ok inside =>
    exact ⟨fun h => ⟨inside, rfl, (Except.ok.inj h).symm⟩, by rintro ⟨_, ⟨⟩, rfl⟩; rfl⟩

mutual

/-- The entry points that are collected in writing an item are those of its classes. -/
theorem Item.entryPoints_write : ∀ (i : Item) {f : Fragment}, i.write? r = .ok f →
    f.entryPoints = entryPointsOf i.classMembers
  | .member _, _, h => by cases h; rfl
  | .scope _ _ items, _, h => entryPoints_writeItems items h
  | .type .classType lead name bases items, f, h => by
    cases hlead : isExcluded lead.annotations with
    | true =>
      rw [Item.write?_class, if_pos hlead] at h
      cases h
      rw [Item.classMembers, if_pos hlead]
      rfl
    | false =>
      let c : ClassNode := ⟨lead, name, bases, items⟩
      obtain ⟨inside, hinside, rfl⟩ := (c.write?_item r hlead).mp h
      rw [entryPoints_bracketed, entryPoints_writeClass,
        entryPoints_writeMembers c items hinside]
      exact congrArg entryPointsOf (c.classMembers_item hlead).symm
  | .type .interfaceType lead name bases items, f, h => by
    rw [Item.write?_interface] at h
    split at h
    · cases h
      rfl
    · cases h
      rw [entryPoints_bracketed, entryPoints_writeClass, entryPoints_writeStubs]
      rfl
  | .enumeration lead name members, f, h => by
    rw [Item.write?_enumeration] at h
    split at h <;> cases h <;> rfl
  | .skipped _ _ _, _, h => by cases h; rfl

/-- **The entry points of a script are those of the members that are listed**, in this order.
-/
theorem entryPoints_writeItems : ∀ (is : List Item) {f : Fragment}, writeItems? r is = .ok f →
    f.entryPoints = entryPointsOf (classMembersIn is)
  | [], _, h => by cases h; rfl
  | i :: is, _, h => by
    obtain ⟨f, g, hf, hg, rfl⟩ := writeItems?_cons_eq_ok.mp h
    rw [Fragment.entryPoints_append, Item.entryPoints_write i hf, entryPoints_writeItems is hg,
      classMembersIn, entryPointsOf_append]

/-- The same for the members of a class. -/
theorem entryPoints_writeMembers (c : ClassNode) : ∀ (is : List Item) {f : Fragment},
    writeMembers? r c.name is = .ok f → f.entryPoints = entryPointsOf (membersOf c is)
  | [], _, h => by cases h; rfl
  | i :: is, _, h => by
    obtain ⟨f, g, hf, hg, rfl⟩ := writeMembers?_cons_eq_ok.mp h
    have hfirst : f.entryPoints =
        entryPointsOf ((i.member?.map fun m => (c, m)).toList ++ i.classMembers) := by
      cases i with
      | member m =>
        rw [c.entryPoints_write r hf]
        exact (entryPointsOf_singleton c m).symm
      | scope pos name items => exact Item.entryPoints_write (.scope pos name items) hf
      | type sort lead name bases items =>
        exact Item.entryPoints_write (.type sort lead name bases items) hf
      | enumeration lead name members =>
        exact Item.entryPoints_write (.enumeration lead name members) hf
      | skipped pos name kind => exact Item.entryPoints_write (.skipped pos name kind) hf
    rw [Fragment.entryPoints_append, hfirst, entryPoints_writeMembers c is hg, membersOf,
      entryPointsOf_append _ (membersOf c is)]

end

end Collecting

/-! ## Lines -/

/-- A text that ends with the end of a line. -/
def EndsLine (s : String) : Prop := ∃ t, s = t ++ "\n"

/-- A text ends with a line if its last part does. -/
theorem EndsLine.behind (s : String) {t : String} (ht : EndsLine t) : EndsLine (s ++ t) := by
  obtain ⟨t, rfl⟩ := ht
  exact ⟨s ++ t, String.append_assoc.symm⟩

/-- A text of whole lines. -/
def IsLines (s : String) : Prop := s = "" ∨ EndsLine s

theorem isLines_empty : IsLines "" := .inl rfl

/-- Whole lines behind whole lines. -/
theorem IsLines.append {s t : String} (hs : IsLines s) (ht : IsLines t) :
    IsLines (s ++ t) := by
  rcases ht with rfl | ht
  · rwa [String.append_empty]
  · exact .inr (ht.behind s)

/-- The text `s` stands in the text `t`, at the start of a line. -/
def StandsIn (s t : String) : Prop := ∃ before after, IsLines before ∧ t = before ++ s ++ after

/-- What stands in a part stands in the whole. -/
theorem StandsIn.trans {s t u : String} (hst : StandsIn s t) (htu : StandsIn t u) :
    StandsIn s u := by
  obtain ⟨a, b, ha, rfl⟩ := hst
  obtain ⟨c, d, hc, rfl⟩ := htu
  exact ⟨c ++ a, b ++ d, hc.append ha, by simp only [String.append_assoc]⟩

theorem standsIn_append_left (s t : String) : StandsIn s (s ++ t) :=
  ⟨"", t, isLines_empty, by rw [String.empty_append]⟩

theorem standsIn_append_right {s : String} (hs : IsLines s) (t : String) :
    StandsIn t (s ++ t) :=
  ⟨s, "", hs, by rw [String.append_empty]⟩

section Lines

variable (r : Replacement)

/-- A function ends with its brace, on a line of its own. -/
theorem endsLine_writeFunction (name : String) (ps : List Param) (lines : String) :
    EndsLine (writeFunction name ps lines) :=
  ⟨_, rfl⟩

theorem isLines_writeField (declarators : List String) : IsLines (writeField declarators) := by
  cases declarators with
  | nil => exact isLines_empty
  | cons first _ => exact .inr (.behind ("static " ++ first) ⟨";", rfl⟩)

/-- The accessors of a property are functions, if there are any. -/
theorem isLines_writeProperty (name : String) (getter setter : Bool) :
    IsLines (writeProperty name getter setter) := by
  refine .append ?_ ?_
  · split
    · exact .inr ⟨_, rfl⟩
    · exact isLines_empty
  · split
    · exact .inr ⟨_, rfl⟩
    · exact isLines_empty

/-- **A member is written in whole lines.** -/
theorem Member.isLines_write {m : Member} {owner : String} {f : Fragment}
    (h : m.write? owner = .ok f) : IsLines f.text := by
  unfold Member.write? at h
  split at h
  · cases h
    exact isLines_empty
  · split at h
    · cases h
      exact .inr ((endsLine_writeFunction ..).behind _)
    · cases h
      exact .inr (endsLine_writeFunction ..)
    · cases h
      exact isLines_writeField _
    · cases h
      exact isLines_writeProperty ..
    · cases h
      exact isLines_empty
    · cases h

theorem isLines_bracketed (kind name : String) (f : Fragment) :
    IsLines (bracketed kind name f).text :=
  .inr (.behind _ (.behind _ ⟨"", rfl⟩))

mutual

/-- Whatever is written is written in whole lines. -/
theorem Item.isLines_write : ∀ (i : Item) {f : Fragment}, i.write? r = .ok f → IsLines f.text
  | .member _, _, h => by cases h; exact isLines_empty
  | .scope _ _ items, _, h => isLines_writeItems items h
  | .type .classType lead name bases items, f, h => by
    cases hlead : isExcluded lead.annotations with
    | true =>
      rw [Item.write?_class, if_pos hlead] at h
      cases h
      exact isLines_empty
    | false =>
      let c : ClassNode := ⟨lead, name, bases, items⟩
      obtain ⟨inside, -, rfl⟩ := (c.write?_item r hlead).mp h
      exact isLines_bracketed ..
  | .type .interfaceType lead name bases items, f, h => by
    rw [Item.write?_interface] at h
    split at h
    · cases h
      exact isLines_empty
    · cases h
      exact isLines_bracketed ..
  | .enumeration lead name members, f, h => by
    rw [Item.write?_enumeration] at h
    split at h
    · cases h
      exact isLines_empty
    · cases h
      exact isLines_bracketed ..
  | .skipped _ _ _, _, h => by cases h; exact isLines_empty

/-- Declarations are written in whole lines. -/
theorem isLines_writeItems : ∀ (is : List Item) {f : Fragment}, writeItems? r is = .ok f →
    IsLines f.text
  | [], _, h => by cases h; exact isLines_empty
  | i :: is, _, h => by
    obtain ⟨f, g, hf, hg, rfl⟩ := writeItems?_cons_eq_ok.mp h
    exact (Item.isLines_write i hf).append (isLines_writeItems is hg)

end

theorem Item.isLines_writeIn {i : Item} {owner : String} {f : Fragment}
    (h : i.writeIn? r owner = .ok f) : IsLines f.text := by
  cases i with
  | member m => exact Member.isLines_write h
  | scope pos name items => exact Item.isLines_write r (.scope pos name items) h
  | type sort lead name bases items =>
    exact Item.isLines_write r (.type sort lead name bases items) h
  | enumeration lead name members =>
    exact Item.isLines_write r (.enumeration lead name members) h
  | skipped pos name kind => exact Item.isLines_write r (.skipped pos name kind) h

/-! ## What has been written -/

/-- What is written item by item holds what is written of each item. -/
theorem standsIn_of_mem {w : Item → Except ScriptError Fragment}
    {ws : List Item → Except ScriptError Fragment}
    (hcons : ∀ {i is h}, ws (i :: is) = .ok h → ∃ f g, w i = .ok f ∧ ws is = .ok g ∧
      h = f ++ g)
    (hlines : ∀ {i f}, w i = .ok f → IsLines f.text) {i : Item} {is : List Item} (hi : i ∈ is)
    {f : Fragment} (h : ws is = .ok f) : ∃ g, w i = .ok g ∧ StandsIn g.text f.text := by
  induction is generalizing f with
  | nil => cases hi
  | cons j is ih =>
    obtain ⟨g, g', hg, hg', rfl⟩ := hcons h
    rcases List.mem_cons.mp hi with rfl | hi
    · exact ⟨g, hg, standsIn_append_left g.text g'.text⟩
    · obtain ⟨k, hk, hstands⟩ := ih hi hg'
      exact ⟨k, hk, hstands.trans (standsIn_append_right (hlines hg) g'.text)⟩

/-- What is written for a member stands in what is written for its class. -/
theorem standsIn_writeMembers {owner : String} {i : Item} {is : List Item} (hi : i ∈ is)
    {f : Fragment} (h : writeMembers? r owner is = .ok f) :
    ∃ g, i.writeIn? r owner = .ok g ∧ StandsIn g.text f.text :=
  standsIn_of_mem writeMembers?_cons_eq_ok.mp (Item.isLines_writeIn r) hi h

/-- The items of a class stand between the first and the last line of its script. -/
theorem ClassNode.text_class (c : ClassNode) (inside : Fragment) :
    ∃ lines, StandsIn inside.text lines ∧
      (bracketed "Class" c.name (writeClass c.name (extendsTarget c.bases) inside)).text =
        "// BEGIN C# Class: " ++ c.name ++ "\n" ++ lines ++
          ("// END C# Class: " ++ c.name ++ "\n") := by
  have hclass : ∃ head, EndsLine head ∧
      (writeClass c.name (extendsTarget c.bases) inside).text =
      head ++ inside.text ++ "\x7d\n" :=
    ⟨_, .behind _ ⟨" \x7b", rfl⟩, rfl⟩
  obtain ⟨head, hhead, hclass⟩ := hclass
  refine ⟨head ++ inside.text ++ "\x7d\n", ⟨head, "\x7d\n", .inr hhead, rfl⟩, ?_⟩
  rw [bracketed, Fragment.text_append, Fragment.text_append, hclass]
  rfl

/-- The body of a class stands between the lines of its head and its end. -/
theorem ClassNode.standsIn_class (c : ClassNode) (inside : Fragment) :
    StandsIn inside.text
      (bracketed "Class" c.name (writeClass c.name (extendsTarget c.bases) inside)).text := by
  obtain ⟨lines, hlines, htext⟩ := c.text_class inside
  rw [htext]
  exact hlines.trans
    ((standsIn_append_right (.inr ⟨_, rfl⟩) lines).trans (standsIn_append_left _ _))

/-- A class that is reached is written, at the start of a line. -/
theorem Reached.standsIn {is : List Item} {c : ClassNode} (hreached : Reached is c)
    {f : Fragment} (h : writeItems? r is = .ok f ∨ ∃ owner, writeMembers? r owner is = .ok f) :
    ∃ g, c.item.write? r = .ok g ∧ StandsIn g.text f.text := by
  have hitem : ∀ {i : Item} {is : List Item} {f : Fragment}, i ∈ is → i.member? = none →
      (writeItems? r is = .ok f ∨ ∃ owner, writeMembers? r owner is = .ok f) →
      ∃ g, i.write? r = .ok g ∧ StandsIn g.text f.text := by
    rintro i is f hi hmember (h | ⟨owner, h⟩)
    · exact standsIn_of_mem writeItems?_cons_eq_ok.mp (Item.isLines_write r _) hi h
    · have := standsIn_writeMembers r hi h
      rwa [Item.writeIn?, hmember] at this
  induction hreached generalizing f with
  | here hi _ => exact hitem hi rfl h
  | scope hi _ ih =>
    obtain ⟨g, hg, hstands⟩ := hitem hi rfl h
    obtain ⟨k, hk, hin⟩ := ih (.inl hg)
    exact ⟨k, hk, hin.trans hstands⟩
  | @nested _ _ d hi hd _ ih =>
    obtain ⟨g, hg, hstands⟩ := hitem hi rfl h
    obtain ⟨inside, hinside, rfl⟩ := (d.write?_item r hd).mp hg
    obtain ⟨k, hk, hin⟩ := ih (.inr ⟨d.name, hinside⟩)
    exact ⟨k, hk, hin.trans ((d.standsIn_class inside).trans hstands)⟩

/-- A class that is reached is not excluded. -/
theorem Reached.not_excluded {is : List Item} {c : ClassNode} (h : Reached is c) :
    isExcluded c.lead.annotations = false := by
  induction h with
  | here _ hc => exact hc
  | scope _ _ ih => exact ih
  | nested _ _ _ ih => exact ih

end Lines

/-- A method of a class as it is written, with words replaced in its body. -/
def Member.methodText (r : Replacement) (m : Member) (name : String) (params : List Param)
    (body : Option (List String)) : String :=
  (if m.isStatic then "static " else "") ++
    writeFunction name params (methodLines m.lead.annotations (body.map (·.map r.apply)))

/-- The script of the class `c` stands in a text, and in it, between its first and its last
line, the method `m`. -/
def ClassNode.Shows (r : Replacement) (c : ClassNode) (m : Member) (text : String) : Prop :=
  ∃ g lines name params body, c.item.write? r = .ok g ∧ StandsIn g.text text ∧
    g.text = "// BEGIN C# Class: " ++ c.name ++ "\n" ++ lines ++
      ("// END C# Class: " ++ c.name ++ "\n") ∧
    m.form = .method name params body ∧ StandsIn (m.methodText r name params body) lines

/-- An entry point is a method that is marked as one and not excluded. -/
theorem ClassNode.entryPoint?_eq_some {c : ClassNode} {m : Member} {e : EntryPoint} :
    c.entryPoint? m = some e ↔ ∃ name params body, m.form = .method name params body ∧
      m.lead.annotations.any Marker.entryPoint.selects = true ∧
      isExcluded m.lead.annotations = false ∧ e = ⟨c.name, name⟩ := by
  unfold ClassNode.entryPoint?
  split
  · rename_i name params body hform
    rw [hform]
    constructor
    · intro h
      split at h
      · rename_i hmark
        rw [Bool.and_eq_true, Bool.not_eq_true'] at hmark
        exact ⟨name, params, body, rfl, hmark.1, hmark.2, (Option.some.inj h).symm⟩
      · cases h
    · rintro ⟨_, _, _, ⟨⟩, hmark, hexcluded, rfl⟩
      rw [hmark, hexcluded]
      rfl
  · rename_i hform
    exact ⟨nofun, fun ⟨name, params, body, h, _⟩ => absurd h (hform name params body)⟩

/-- An entry point of a class that is reached has been written, inside its class. -/
theorem Reached.shows {r : Replacement} {is : List Item} {c : ClassNode}
    (hreached : Reached is c) {m : Member} (hm : .member m ∈ c.items) {e : EntryPoint}
    (he : c.entryPoint? m = some e) {f : Fragment} (h : writeItems? r is = .ok f) :
    c.Shows r m f.text := by
  obtain ⟨name, params, body, hform, -, hexcluded, -⟩ := ClassNode.entryPoint?_eq_some.mp he
  obtain ⟨g, hg, hstands⟩ := hreached.standsIn r (.inl h)
  obtain ⟨inside, hinside, rfl⟩ := (c.write?_item r hreached.not_excluded).mp hg
  obtain ⟨k, hk, hin⟩ := standsIn_writeMembers r hm hinside
  obtain ⟨lines, hlines, htext⟩ := c.text_class inside
  refine ⟨_, lines, name, params, body, hg, hstands, htext, hform, ?_⟩
  have hwritten : k.text = m.methodText r name params body := by
    obtain ⟨lead, form⟩ := m
    subst hform
    change (if isExcluded lead.annotations = true then _ else _) = _ at hk
    rw [if_neg (Bool.eq_false_iff.mp hexcluded)] at hk
    cases hk
    rfl
  exact hwritten ▸ hin.trans hlines

/-! ## Scripts -/

/-- The script of several compilation units is theirs, with an empty line behind each. -/
theorem writeUnits?_eq_ok {r : Replacement} {us : List CompilationUnit} {f : Fragment}
    (h : writeUnits? r us = .ok f) :
    ∃ fs, List.Forall₂ (fun u g => u.write? r = .ok g) us fs ∧
      f.text = String.join (fs.map fun g => g.text ++ "\n\n") ∧
      f.entryPoints = us.flatMap CompilationUnit.entryPoints := by
  induction us generalizing f with
  | nil =>
    cases h
    exact ⟨[], .nil, rfl, rfl⟩
  | cons u us ih =>
    rw [writeUnits?_cons] at h
    cases hu : u.write? r with
    | error e => rw [hu] at h; cases h
    | ok g =>
      cases hus : writeUnits? r us with
      | error e => rw [hu, hus] at h; cases h
      | ok g' =>
        rw [hu, hus] at h
        cases h
        obtain ⟨fs, hfs, htext, hentries⟩ := ih hus
        refine ⟨g :: fs, .cons hu hfs, ?_, ?_⟩
        · rw [List.map_cons, String.join_cons, ← htext]
          rfl
        · rw [List.flatMap_cons, ← hentries, CompilationUnit.entryPoints,
            ← entryPoints_writeItems r u.items hu]
          change g.entryPoints ++ [] ++ g'.entryPoints = _
          rw [List.append_nil]

/-- An entry point of a compilation unit is a marked method of a class that is reached. -/
theorem CompilationUnit.mem_entryPoints {u : CompilationUnit} {e : EntryPoint} :
    e ∈ u.entryPoints ↔
      ∃ c m, Reached u.items c ∧ .member m ∈ c.items ∧ c.entryPoint? m = some e := by
  simp only [CompilationUnit.entryPoints, entryPointsOf, List.mem_filterMap, Prod.exists,
    mem_classMembersIn_iff, and_assoc]

/-- **Entry points are called in order, and each of them has been written**: behind the
script of the last unit stand the calls of the entry points of the units, in the order of
the source texts and whatever words are replaced.  They are the methods of the classes that
are reached which are marked and not excluded, and each of them stands in the script of its
unit, inside its class. -/
theorem assemble_entryPoints (r : Replacement) {us : List CompilationUnit} {script : String}
    (h : assemble r us = .ok script) :
    ∃ fs : List Fragment,
      script = extras ++ String.join (fs.map fun f => f.text ++ "\n\n") ++
        String.join ((us.flatMap CompilationUnit.entryPoints).map fun e =>
          e.owner ++ "." ++ e.method ++ "();\n") ++ trailer ∧
      List.Forall₂ (fun u f => u.write? r = .ok f ∧
        (∀ e, e ∈ u.entryPoints ↔
          ∃ c m, Reached u.items c ∧ .member m ∈ c.items ∧ c.entryPoint? m = some e) ∧
        ∀ c m e, Reached u.items c → .member m ∈ c.items → c.entryPoint? m = some e →
          c.Shows r m f.text) us fs := by
  unfold assemble assembleWith at h
  split at h
  · cases h
  split at h
  · cases h
  rename_i f hf
  obtain ⟨fs, hfs, htext, hentries⟩ := writeUnits?_eq_ok hf
  refine ⟨fs, ?_,
    hfs.imp fun u g hg => ⟨hg, fun e => u.mem_entryPoints, fun c m e hc hm he => ?_⟩⟩
  · have hline : ∀ e :
        EntryPoint, e.invocation ++ "\n" = e.owner ++ "." ++ e.method ++ "();\n" := by
      intro e
      rw [EntryPoint.invocation, String.append_assoc]
      rfl
    rw [← Except.ok.inj h, htext, hentries, invocations,
      List.map_congr_left fun e _ => hline e]
  · exact hc.shows hm he hg

theorem assemble_entryPoints_nested :
    let method (marks : List String) (name : String) : Item :=
      .member ⟨⟨⟨1, 1⟩, marks.map (⟨⟨1, 1⟩, ·, []⟩), []⟩, .method name [] (some ["run();"])⟩
    let type (sort : TypeSort) (marks : List String) (name : String) (items : List Item) :
    Item :=
      .type sort ⟨⟨1, 1⟩, marks.map (⟨⟨1, 1⟩, ·, []⟩), []⟩ name [] items
    let u : CompilationUnit := ⟨[], [.scope ⟨1, 1⟩ "N" [type .classType [] "A" [
      method ["EntryPoint"] "run",
      type .classType [] "B" [method ["EntryPoint"] "go",
        method ["EntryPoint", "Exclude"] "no"],
      type .interfaceType [] "I" [type .classType [] "C" [method ["EntryPoint"] "no"]],
      type .classType ["Exclude"] "D" [type .classType [] "E" [method ["EntryPoint"] "no"]],
      method ["EntryPoint"] "stop"]]]⟩
    u.entryPoints = [⟨"A", "run"⟩, ⟨"B", "go"⟩, ⟨"A", "stop"⟩] ∧
    ∃ (script : String) (fs : List Fragment), assemble ⟨[("run", "start")]⟩ [u, u] =
      .ok script ∧ script = extras ++ String.join (fs.map fun f => f.text ++ "\n\n") ++
        String.join (["A.run();\n", "B.go();\n", "A.stop();\n", "A.run();\n", "B.go();\n",
          "A.stop();\n"]) ++ trailer := by
  intro method type u
  have hentries : u.entryPoints = [⟨"A", "run"⟩, ⟨"B", "go"⟩, ⟨"A", "stop"⟩] := by decide
  have hok : (assemble ⟨[("run", "start")]⟩ [u, u]).isOk = true := by decide
  obtain ⟨script, h⟩ : ∃ script, assemble ⟨[("run", "start")]⟩ [u, u] = .ok script := by
    cases hassemble : assemble ⟨[("run", "start")]⟩ [u, u] with
    | error e => rw [hassemble] at hok; cases hok
    | ok script => exact ⟨script, rfl⟩
  obtain ⟨fs, hscript, -⟩ := assemble_entryPoints ⟨[("run", "start")]⟩ h
  rw [List.flatMap_cons, List.flatMap_cons, List.flatMap_nil, hentries] at hscript
  exact ⟨hentries, script, fs, h, hscript⟩

end SharpScript
