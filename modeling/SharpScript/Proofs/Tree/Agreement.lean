import Mathlib.Data.List.Forall2
import SharpScript.Tree.Basic

/-! # Trees that agree

Two trees agree when they differ in positions alone, and in their texts as far as two relations
on texts allow: one for the texts of types and using directives, and one for code, that is for
statements, initial and default values, arguments and members of enumerations.  Names,
modifiers and kinds are the same.

## Main Definitions

* `Item.Agrees`, `ItemsAgree`: declarations that agree, alone and in lists;
* `CompilationUnit.Agrees`: compilation units that agree.

## Main Results

* `ItemsAgree.append`, `CompilationUnit.Agrees.append`: what agrees may be put together, and
  `CompilationUnit.Agrees.of_append`: it may be taken away at the front;
* `CompilationUnit.Agrees.mono`: agreement for weaker relations;
* `CompilationUnit.Agrees.euclidean`: trees that agree with one tree agree with each other.

## Design Notes

A member of no known form agrees with nothing, since no source text declares one.
-/

namespace SharpScript

variable (T K : String → String → Prop)

/-- Annotations that agree. -/
structure Annotation.Agrees (a b : Annotation) : Prop where
  name : T a.name b.name
  args : List.Forall₂ K a.args b.args

/-- Lists of annotations that agree. -/
abbrev AnnotationsAgree : List Annotation → List Annotation → Prop :=
  List.Forall₂ fun a b => a.Agrees T K b

/-- Parameters that agree. -/
structure Param.Agrees (p q : Param) : Prop where
  name : p.name = q.name
  initial : Option.Rel K p.initial q.initial

/-- Leads that agree. -/
structure Lead.Agrees (l m : Lead) : Prop where
  annotations : AnnotationsAgree T K l.annotations m.annotations
  modifiers : l.modifiers = m.modifiers

/-- Forms of members that agree. -/
inductive MemberForm.Agrees : MemberForm → MemberForm → Prop
  | method (name : String) {ps qs : List Param} {b c : Option (List String)}
      (params : List.Forall₂ (Param.Agrees K) ps qs) (body : Option.Rel (List.Forall₂ K) b c) :
      MemberForm.Agrees (.method name ps b) (.method name qs c)
  | constructor (name : String) {ps qs : List Param} {b c : Option (List String)}
      (params : List.Forall₂ (Param.Agrees K) ps qs) (body : Option.Rel (List.Forall₂ K) b c) :
      MemberForm.Agrees (.constructor name ps b) (.constructor name qs c)
  | field {ds es : List String} (declarators : List.Forall₂ K ds es) :
      MemberForm.Agrees (.field ds) (.field es)
  | property (name : String) (getter setter : Bool) :
      MemberForm.Agrees (.property name getter setter) (.property name getter setter)
  | other (kind : String) : MemberForm.Agrees (.other kind) (.other kind)

/-- Members that agree. -/
structure Member.Agrees (m n : Member) : Prop where
  lead : Lead.Agrees T K m.lead n.lead
  form : MemberForm.Agrees K m.form n.form

/-- Members of enumerations that agree. -/
structure EnumMember.Agrees (m n : EnumMember) : Prop where
  name : m.name = n.name
  value : Option.Rel K m.value n.value
  text : K m.text n.text

mutual

/-- Declarations that agree. -/
inductive Item.Agrees : Item → Item → Prop
  | member {m n : Member} (h : m.Agrees T K n) : Item.Agrees (.member m) (.member n)
  | scope (pos pos' : Pos) (name : String) {is js : List Item} (h : ItemsAgree is js) :
      Item.Agrees (.scope pos name is) (.scope pos' name js)
  | type (sort : TypeSort) {l m : Lead} (lead : l.Agrees T K m) (name : String)
      {bs cs : List String} (bases : List.Forall₂ T bs cs) {is js : List Item}
      (h : ItemsAgree is js) : Item.Agrees (.type sort l name bs is) (.type sort m name cs js)
  | enumeration {l m : Lead} (lead : l.Agrees T K m) (name : String) {es fs : List EnumMember}
      (members : List.Forall₂ (EnumMember.Agrees K) es fs) :
      Item.Agrees (.enumeration l name es) (.enumeration m name fs)
  | skipped (pos pos' : Pos) (name : String) (kind : Option String) :
      Item.Agrees (.skipped pos name kind) (.skipped pos' name kind)

/-- Declarations that agree one by one. -/
inductive ItemsAgree : List Item → List Item → Prop
  | nil : ItemsAgree [] []
  | cons {i j : Item} {is js : List Item} (head : Item.Agrees i j) (tail : ItemsAgree is js) :
      ItemsAgree (i :: is) (j :: js)

end

/-- Compilation units that agree. -/
structure CompilationUnit.Agrees (u v : CompilationUnit) : Prop where
  usings : List.Forall₂ T u.usings v.usings
  items : ItemsAgree T K u.items v.items

variable {T K}

/-- Lists that agree may stand behind one another. -/
theorem ItemsAgree.append {is js is' js' : List Item} (h : ItemsAgree T K is js)
    (h' : ItemsAgree T K is' js') : ItemsAgree T K (is ++ is') (js ++ js') := by
  induction is generalizing js with
  | nil =>
    cases h
    exact h'
  | cons i is ih =>
    cases h with
    | cons head tail => exact .cons head (ih tail)

/-- Lists that agree are of one length. -/
theorem ItemsAgree.length_eq {is js : List Item} (h : ItemsAgree T K is js) :
    is.length = js.length := by
  induction is generalizing js with
  | nil =>
    cases h
    rfl
  | cons i is ih =>
    cases h with
    | cons head tail => rw [List.length_cons, List.length_cons, ih tail]

/-- What agrees may be taken away at the front. -/
theorem ItemsAgree.of_append {is js is' js' : List Item} (h : ItemsAgree T K is js)
    (happend : ItemsAgree T K (is ++ is') (js ++ js')) : ItemsAgree T K is' js' := by
  induction is generalizing js with
  | nil =>
    cases h
    exact happend
  | cons i is ih =>
    cases h with
    | cons _ tail =>
      cases happend with
      | cons _ htail => exact ih tail htail

namespace CompilationUnit

theorem agrees_empty : CompilationUnit.Agrees T K ∅ ∅ := ⟨.nil, .nil⟩

/-- Units that agree may stand behind one another. -/
theorem Agrees.append {u v u' v' : CompilationUnit} (h : CompilationUnit.Agrees T K u v)
    (h' : CompilationUnit.Agrees T K u' v') : CompilationUnit.Agrees T K (u ++ u') (v ++ v') :=
  ⟨List.rel_append h.usings h'.usings, h.items.append h'.items⟩

/-- If what stands before them agrees, units that agree as a whole agree behind it. -/
theorem Agrees.of_append {u v u' v' : CompilationUnit} (h : CompilationUnit.Agrees T K u v)
    (happend : CompilationUnit.Agrees T K (u ++ u') (v ++ v')) :
    CompilationUnit.Agrees T K u' v' where
  usings := by
    have hdrop : List.Forall₂ T ((u.usings ++ u'.usings).drop u.usings.length)
        ((v.usings ++ v'.usings).drop u.usings.length) := List.forall₂_drop _ happend.usings
    rwa [List.drop_left, List.drop_left' h.usings.length_eq.symm] at hdrop
  items := h.items.of_append happend.items

end CompilationUnit

/-! ## Weaker relations -/

variable {T' K' : String → String → Prop}

/-- What agrees for a relation agrees for a weaker one, part by part. -/
theorem Lead.Agrees.mono (hT : ∀ s s', T s s' → T' s s') (hK : ∀ s s', K s s' → K' s s')
    {l m : Lead} (h : l.Agrees T K m) : l.Agrees T' K' m where
  annotations := h.annotations.imp fun _ _ ha => ⟨hT _ _ ha.name, ha.args.imp hK⟩
  modifiers := h.modifiers

theorem Option.Rel.mono {α β : Type} {R S : α → β → Prop} (hRS : ∀ a b, R a b → S a b)
    {o : Option α} {o' : Option β} (h : Option.Rel R o o') : Option.Rel S o o' := by
  cases h with
  | none => exact .none
  | some h => exact .some (hRS _ _ h)

theorem MemberForm.Agrees.mono (hK : ∀ s s', K s s' → K' s s') {f g : MemberForm}
    (h : f.Agrees K g) : f.Agrees K' g := by
  have hparams : ∀ {ps qs : List Param}, List.Forall₂ (Param.Agrees K) ps qs →
      List.Forall₂ (Param.Agrees K') ps qs :=
    fun h => h.imp fun _ _ hp => ⟨hp.name, Option.Rel.mono hK hp.initial⟩
  have hbody : ∀ {b c : Option (List String)}, Option.Rel (List.Forall₂ K) b c →
      Option.Rel (List.Forall₂ K') b c :=
    fun h => Option.Rel.mono (fun _ _ h => h.imp hK) h
  cases h with
  | method name params body => exact .method name (hparams params) (hbody body)
  | constructor name params body => exact .constructor name (hparams params) (hbody body)
  | field declarators => exact .field (declarators.imp hK)
  | property name getter setter => exact .property name getter setter
  | other kind => exact .other kind

mutual

/-- Declarations that agree for a relation agree for a weaker one, with all that they hold. -/
theorem Item.Agrees.mono (hT : ∀ s s', T s s' → T' s s') (hK : ∀ s s', K s s' → K' s s') :
    ∀ {i j : Item}, Item.Agrees T K i j → Item.Agrees T' K' i j
  | _, _, .member h => .member ⟨h.lead.mono hT hK, h.form.mono hK⟩
  | _, _, .scope pos pos' name h => .scope pos pos' name (ItemsAgree.mono hT hK h)
  | _, _, .type sort lead name bases h =>
    .type sort (lead.mono hT hK) name (bases.imp hT) (ItemsAgree.mono hT hK h)
  | _, _, .enumeration lead name members =>
    .enumeration (lead.mono hT hK) name
      (members.imp fun _ _ hm => ⟨hm.name, Option.Rel.mono hK hm.value, hK _ _ hm.text⟩)
  | _, _, .skipped pos pos' name kind => .skipped pos pos' name kind

theorem ItemsAgree.mono (hT : ∀ s s', T s s' → T' s s') (hK : ∀ s s', K s s' → K' s s') :
    ∀ {is js : List Item}, ItemsAgree T K is js → ItemsAgree T' K' is js
  | _, _, .nil => .nil
  | _, _, .cons head tail => .cons (Item.Agrees.mono hT hK head) (ItemsAgree.mono hT hK tail)

end

/-- **Trees that agree for a relation agree for a weaker one.** -/
theorem CompilationUnit.Agrees.mono (hT : ∀ s s', T s s' → T' s s')
    (hK : ∀ s s', K s s' → K' s s') {u v : CompilationUnit} (h : u.Agrees T K v) :
    u.Agrees T' K' v :=
  ⟨h.usings.imp hT, ItemsAgree.mono hT hK h.items⟩

/-! ## Trees that agree with one tree -/

/-- Things that are related to one thing are related to each other. -/
def Euclidean {α : Type} (R : α → α → Prop) : Prop := ∀ ⦃a b c⦄, R a b → R a c → R b c

/-- Two values that are equal to one value are equal. -/
theorem euclidean_eq (α : Type) : Euclidean (@Eq α) := fun _ _ _ h h' => h.symm.trans h'

theorem Euclidean.forall₂ {α : Type} {R : α → α → Prop} (hR : Euclidean R) :
    Euclidean (List.Forall₂ R) := by
  intro l m n h
  induction h generalizing n with
  | nil =>
    rintro ⟨⟩
    exact .nil
  | cons head _ ih =>
    rintro (_ | ⟨head', tail'⟩)
    exact .cons (hR head head') (ih tail')

theorem Euclidean.option {α : Type} {R : α → α → Prop} (hR : Euclidean R) :
    Euclidean (Option.Rel R) := by
  intro a b c h h'
  cases h with
  | none =>
    cases h'
    exact .none
  | some h =>
    cases h' with
    | some h' => exact .some (hR h h')

theorem Lead.Agrees.euclidean (hT : Euclidean T) (hK : Euclidean K) :
    Euclidean (Lead.Agrees T K) := by
  have hmark : Euclidean fun a b : Annotation => a.Agrees T K b :=
    fun _ _ _ h h' => ⟨hT h.name h'.name, hK.forall₂ h.args h'.args⟩
  exact fun _ _ _ h h' =>
    ⟨hmark.forall₂ h.annotations h'.annotations, h.modifiers.symm.trans h'.modifiers⟩

theorem MemberForm.Agrees.euclidean (hK : Euclidean K) : Euclidean (MemberForm.Agrees K) := by
  have hparam : Euclidean (Param.Agrees K) :=
    fun _ _ _ h h' => ⟨h.name.symm.trans h'.name, hK.option h.initial h'.initial⟩
  intro f g g' h h'
  cases h with
  | method name params body =>
    cases h' with
    | method _ params' body' =>
      exact .method name (hparam.forall₂ params params') (hK.forall₂.option body body')
  | constructor name params body =>
    cases h' with
    | constructor _ params' body' =>
      exact .constructor name (hparam.forall₂ params params') (hK.forall₂.option body body')
  | field declarators =>
    cases h' with
    | field declarators' => exact .field (hK.forall₂ declarators declarators')
  | property name getter setter =>
    cases h' with
    | property => exact .property name getter setter
  | other kind =>
    cases h' with
    | other => exact .other kind

mutual

/-- Declarations that agree with one declaration agree with each other. -/
theorem Item.Agrees.euclidean (hT : Euclidean T) (hK : Euclidean K) :
    ∀ {i j j' : Item}, Item.Agrees T K i j → Item.Agrees T K i j' → Item.Agrees T K j j'
  | _, _, _, .member h, .member h' =>
    .member ⟨Lead.Agrees.euclidean hT hK h.lead h'.lead,
      MemberForm.Agrees.euclidean hK h.form h'.form⟩
  | _, _, _, .scope _ pos name h, .scope _ pos' _ h' =>
    .scope pos pos' name (ItemsAgree.euclidean hT hK h h')
  | _, _, _, .type sort lead name bases h, .type _ lead' _ bases' h' =>
    .type sort (Lead.Agrees.euclidean hT hK lead lead') name (hT.forall₂ bases bases')
      (ItemsAgree.euclidean hT hK h h')
  | _, _, _, .enumeration lead name members, .enumeration lead' _ members' =>
    .enumeration (Lead.Agrees.euclidean hT hK lead lead') name (Euclidean.forall₂
      (fun _ _ _ h h' => ⟨h.name.symm.trans h'.name, hK.option h.value h'.value,
        hK h.text h'.text⟩)
      members members')
  | _, _, _, .skipped _ pos name kind, .skipped _ pos' _ _ => .skipped pos pos' name kind

theorem ItemsAgree.euclidean (hT : Euclidean T) (hK : Euclidean K) :
    ∀ {is js js' : List Item}, ItemsAgree T K is js → ItemsAgree T K is js' →
      ItemsAgree T K js js'
  | _, _, _, .nil, .nil => .nil
  | _, _, _, .cons head tail, .cons head' tail' =>
    .cons (Item.Agrees.euclidean hT hK head head') (ItemsAgree.euclidean hT hK tail tail')

end

/-- Compilation units that agree with one agree with each other. -/
theorem CompilationUnit.Agrees.euclidean (hT : Euclidean T) (hK : Euclidean K) :
    Euclidean (CompilationUnit.Agrees T K) :=
  fun _ _ _ h h' =>
    ⟨hT.forall₂ h.usings h'.usings, ItemsAgree.euclidean hT hK h.items h'.items⟩

end SharpScript
