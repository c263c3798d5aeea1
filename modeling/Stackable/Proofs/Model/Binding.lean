import Stackable.Model.Binding
import Stackable.Proofs.Parser.Numbering

/-!
# What hides a name

`Introduces` lists the forms by which a function gives a name to a local. A name that is bound to
a constant field is introduced by none of them in the function around the use, and is the name of
no field of a type in between.
-/

set_option autoImplicit false

namespace Stackable

/-- Some argument has the form `out name`. -/
def DeclaresOut (args : List (Argument Expr)) (name : String) : Prop :=
  ∃ a ∈ args, a.modifier = some .byOut ∧ a.expr.ident? = some name

/-- The node itself gives the name to a local. -/
inductive Introduces : Node → String → Prop where
  | declarator (d : Declarator) : Introduces (.declarator d) d.name
  | forEach {id : NodeId} {type : TypeRef} {name : String} {iter : Expr} {body : Stmt}
      {span : Span} : Introduces (.stmt ⟨id, .forEach type name iter body, span⟩) name
  | handler {id : NodeId} {body : List Stmt} {catches : List (CatchClause Stmt)}
      {finish : Option (List Stmt)} {span : Span} {name : String}
      (h : ∃ c ∈ catches, c.name = some name) :
      Introduces (.stmt ⟨id, .tryCatch body catches finish, span⟩) name
  | pattern {id : NodeId} {e : Expr} {type : TypeRef} {name : String} {span : Span} :
      Introduces (.expr ⟨id, .isType e type (some name), span⟩) name
  | call {id : NodeId} {callee : Expr} {args : List (Argument Expr)} {span : Span} {name : String}
      (h : DeclaresOut args name) : Introduces (.expr ⟨id, .invocation callee args, span⟩) name
  | index {id : NodeId} {object : Expr} {args : List (Argument Expr)} {span : Span} {name : String}
      (h : DeclaresOut args name) : Introduces (.expr ⟨id, .elementAccess object args, span⟩) name
  | construction {id : NodeId} {type : Option TypeRef} {args : List (Argument Expr)}
      {initializer : Option (List Expr)} {span : Span} {name : String} (h : DeclaresOut args name) :
      Introduces (.expr ⟨id, .objectCreation type args initializer, span⟩) name
  /-- The initializer of a constructor. -/
  | chain {id : NodeId} {d : ConstructorDecl} {c : ConstructorChain} {span : Span} {name : String}
      (hc : d.chain = some c) (h : DeclaresOut c.args name) :
      Introduces (.member ⟨id, .constructor d, span⟩) name

def Binding.constField? : Binding → Option Declarator
  | .constField d => some d
  | _ => none

theorem Binding.constField?_eq_some {b : Binding} {d : Declarator} (h : b.constField? = some d) :
    b = .constField d := by
  cases b <;> simp_all [constField?]

/-- Some field among the members has the declarator. -/
def HasField (members : List Member) (isConst : Bool) (d : Declarator) : Prop :=
  ∃ member ∈ members, ∃ fd, member.kind = .field fd ∧ fd.modifiers.contains .constMod = isConst ∧
    d ∈ fd.declarators

namespace Model

variable {m : Model} {name : String}

theorem outArguments_eq_nil {args : List (Argument Expr)} :
    outArguments args name = [] ↔ ¬DeclaresOut args name := by
  simp [outArguments, DeclaresOut]

theorem declaredBy_eq_nil {n : Node} (hn : n.isCode = true) :
    m.declaredBy name n = [] ↔ ¬Introduces n name := by
  constructor
  · intro h hi
    cases hi with
    | declarator d => simp [declaredBy] at h
    | forEach => simp [declaredBy] at h
    | handler hc =>
      obtain ⟨c, hc, hName⟩ := hc
      simp only [declaredBy, List.map_eq_nil_iff, List.filter_eq_nil_iff] at h
      exact h c hc (by simp [hName])
    | pattern => simp [declaredBy] at h
    | call ho | index ho | construction ho => exact outArguments_eq_nil.mp h ho
    | chain => cases hn
  · intro h
    cases n with
    | decl | member | accessor => cases hn
    | declarator d =>
      refine if_neg fun hName => h ?_
      rw [← eq_of_beq hName]
      exact .declarator d
    | stmt s =>
      obtain ⟨id, kind, span⟩ := s
      cases kind with
      | forEach type var iter body =>
        refine if_neg fun hName => h ?_
        rw [← eq_of_beq hName]
        exact .forEach
      | tryCatch body catches finish =>
        simp only [declaredBy, List.map_eq_nil_iff, List.filter_eq_nil_iff]
        intro c hc hName
        exact h (.handler ⟨c, hc, eq_of_beq hName⟩)
      | _ => rfl
    | expr e =>
      obtain ⟨id, kind, span⟩ := e
      cases kind with
      | isType e type designation =>
        refine if_neg fun hName => h ?_
        rw [eq_of_beq hName]
        exact .pattern
      | invocation callee args => exact outArguments_eq_nil.mpr fun ho => h (.call ho)
      | elementAccess object args => exact outArguments_eq_nil.mpr fun ho => h (.index ho)
      | objectCreation type args initializer =>
        exact outArguments_eq_nil.mpr fun ho => h (.construction ho)
      | _ => rfl

theorem constant_mem_declaredBy {n : Node} {d : Declarator}
    (h : .constant d ∈ m.declaredBy name n) :
    n = .declarator d ∧ d.name = name ∧ m.isConstLocal d = true := by
  unfold declaredBy at h
  split at h
  next d' =>
    split at h
    next hName =>
      split at h
      next hConst =>
        obtain rfl : d = d' := by simpa using h
        exact ⟨rfl, eq_of_beq hName, hConst⟩
      next => simp at h
    next => simp at h
  next =>
    split at h
    · split at h <;> simp at h
    · simp at h
    · simp at h
  next =>
    split at h
    · split at h <;> simp at h
    all_goals simp [outArguments] at h
  next => simp at h

theorem localDeclarations_eq_nil {member : Member} (hf : member.function?.isSome) :
    m.localDeclarations member name = [] ↔
      ∀ x ∈ (Node.member member).descendants, ¬Introduces x name := by
  unfold localDeclarations
  rw [List.flatMap_eq_nil_iff]
  constructor
  · intro h x hx
    exact (declaredBy_eq_nil (member.isCode_of_mem_descendants hf hx)).mp (h x hx)
  · intro h x hx
    exact (declaredBy_eq_nil (member.isCode_of_mem_descendants hf hx)).mpr (h x hx)

theorem localDeclarations_eq_constant {member : Member} {d : Declarator}
    (hf : member.function?.isSome) (h : m.localDeclarations member name = [.constant d]) :
    .declarator d ∈ (Node.member member).descendants ∧ d.name = name ∧ m.isConstLocal d = true ∧
      ∀ x ∈ (Node.member member).descendants, Introduces x name → x = .declarator d := by
  have only : ∀ x ∈ (Node.member member).descendants, ∀ y ∈ m.declaredBy name x,
      y = .constant d := by
    intro x hx y hy
    have hMem : y ∈ m.localDeclarations member name := List.mem_flatMap.mpr ⟨x, hx, hy⟩
    rw [h] at hMem
    exact List.mem_singleton.mp hMem
  have hMem : .constant d ∈ m.localDeclarations member name := by simp [h]
  obtain ⟨n, hn, hd⟩ := List.mem_flatMap.mp hMem
  obtain ⟨rfl, hName, hConst⟩ := constant_mem_declaredBy hd
  refine ⟨hn, hName, hConst, fun x hx hi => ?_⟩
  have hCode := member.isCode_of_mem_descendants hf hx
  obtain ⟨y, hy⟩ : ∃ y, y ∈ m.declaredBy name x := List.exists_mem_of_ne_nil _ fun hNil =>
    (declaredBy_eq_nil hCode).mp hNil hi
  rw [only x hx y hy] at hy
  exact (constant_mem_declaredBy hy).1

theorem bindLocal?_eq_none {f : Function} {use : NodeId} (h : m.bindLocal? f use name = none) :
    (∀ p ∈ f.params, p.name ≠ name) ∧ m.localDeclarations f.member name = [] := by
  unfold bindLocal? at h
  split at h
  · cases h
  next hParams =>
    split at h
    next hNil => exact ⟨by simpa using hParams, hNil⟩
    next => cases h
    next => cases h

theorem bindLocal?_eq_constLocal {f : Function} {use : NodeId} {d : Declarator}
    (h : m.bindLocal? f use name = some (.constLocal d)) :
    m.localDeclarations f.member name = [.constant d] ∧ m.inScope d use = true := by
  unfold bindLocal? at h
  split at h
  · cases h
  · split at h
    · cases h
    next d' hOne =>
      split at h
      next hScope =>
        cases h
        exact ⟨hOne, hScope⟩
      next => cases h
    · cases h

theorem bindLocal?_ne_constField {f : Function} {use : NodeId} {d : Declarator} :
    m.bindLocal? f use name ≠ some (.constField d) := by
  unfold bindLocal?
  split
  · simp
  · split
    · simp
    · split <;> simp
    · simp

theorem bind_ident {u : Expr} (h : u.kind = .ident name) : m.bind u = m.bindSimple u.id name := by
  obtain ⟨id, kind, span⟩ := u
  obtain rfl : kind = .ident name := h
  rfl

theorem function?_of_isCode {n : Node} (h : n.isCode = true) : n.function? = none := by
  cases n with
  | decl | member | accessor => cases h
  | declarator | stmt | expr => rfl

theorem typeDecl?_of_isCode {n : Node} (h : n.isCode = true) : n.typeDecl? = none := by
  cases n with
  | decl | member | accessor => cases h
  | declarator | stmt | expr => rfl

section Use

variable {unit : CompilationUnit} {u : Expr} {member : Member} {f : Function}
  {inner outer : List Node}

theorem isCode_of_mem_inner (h : Lineage unit (.expr u) (inner ++ .member member :: outer))
    (hm : member.function? = some f) : ∀ x ∈ inner, x.isCode = true := fun x hx =>
  member.isCode_of_mem_descendants (by rw [hm]; rfl) (h.mem_descend hx)

theorem filterMap_typeDecl? (h : Lineage unit (.expr u) (inner ++ .member member :: outer))
    (hm : member.function? = some f) :
    (inner ++ .member member :: outer).filterMap Node.typeDecl? =
      outer.filterMap Node.typeDecl? := by
  have hMember : (Node.member member).typeDecl? = none := by
    obtain ⟨id, kind, span⟩ := member
    cases kind with
    | typeDecl => cases hm
    | _ => rfl
  rw [List.filterMap_append, List.filterMap_eq_nil_iff.mpr fun x hx =>
    typeDecl?_of_isCode (isCode_of_mem_inner h hm x hx), List.nil_append,
    List.filterMap_cons_none hMember]

/-- Inside a function its declarations come first, and then the fields of the types around it. -/
theorem bindSimple_of_function (hu : unit.Numbered)
    (h : Lineage unit (.expr u) (inner ++ .member member :: outer))
    (hm : member.function? = some f) :
    (Model.ofUnit unit).bindSimple u.id name =
      ((Model.ofUnit unit).bindLocal? f u.id name).getD
        (((outer.filterMap Node.typeDecl?).findSome? fun t =>
          fieldBinding? t.members name).getD .unresolved) := by
  have hInner := isCode_of_mem_inner h hm
  have hAround : (Model.ofUnit unit).tree.ancestors u.id = inner ++ .member member :: outer :=
    h.ancestors_eq hu
  have hFunction : (inner ++ .member member :: outer).findSome? Node.function? = some f := by
    rw [List.findSome?_append, List.findSome?_eq_none_iff.mpr fun x hx =>
      function?_of_isCode (hInner x hx)]
    simp [Node.function?, hm]
  have hTypes := filterMap_typeDecl? h hm
  unfold bindSimple bindField
  simp only [hAround, hFunction, hTypes, Option.bind_some]
  cases (Model.ofUnit unit).bindLocal? f u.id name <;> rfl

end Use

theorem fieldBinding?_eq_none {members : List Member} (h : fieldBinding? members name = none) :
    ∀ isConst d, HasField members isConst d → d.name ≠ name := by
  rintro isConst d ⟨member, hMember, fd, hKind, _, hd⟩ hName
  have hNone := List.findSome?_eq_none_iff.mp h member hMember
  rw [hKind] at hNone
  have hFind := Option.map_eq_none_iff.mp hNone
  exact List.find?_eq_none.mp hFind d hd (by simp [hName])

theorem fieldBinding?_eq_constField {members : List Member} {d : Declarator}
    (h : fieldBinding? members name = some (.constField d)) :
    HasField members true d ∧ d.name = name := by
  obtain ⟨member, hMember, h⟩ := List.exists_of_findSome?_eq_some h
  split at h
  next fd hKind =>
    obtain ⟨d', hFind, h⟩ := Option.map_eq_some_iff.mp h
    split at h
    next hConst =>
      cases h
      exact ⟨⟨member, hMember, fd, hKind, hConst, List.mem_of_find?_eq_some hFind⟩,
        by simpa using List.find?_some hFind⟩
    next => cases h
  next => cases h

theorem fieldBinding?_ne_constLocal {members : List Member} {d : Declarator} :
    fieldBinding? members name ≠ some (.constLocal d) := by
  intro h
  obtain ⟨member, _, h⟩ := List.exists_of_findSome?_eq_some h
  split at h
  · obtain ⟨_, _, h⟩ := Option.map_eq_some_iff.mp h
    split at h <;> cases h
  · cases h

theorem findSome?_fieldBinding? {types : List (TypeDecl Member)} {binding : Binding}
    (h : (types.findSome? fun t => fieldBinding? t.members name) = some binding) :
    ∃ nearer t farther, types = nearer ++ t :: farther ∧
      fieldBinding? t.members name = some binding ∧
      ∀ x ∈ nearer, ∀ isConst d, HasField x.members isConst d → d.name ≠ name := by
  obtain ⟨nearer, t, farther, rfl, ht, hNearer⟩ := List.findSome?_eq_some_iff.mp h
  exact ⟨nearer, t, farther, rfl, ht, fun x hx => fieldBinding?_eq_none (hNearer x hx)⟩

section Constants

variable {d : Declarator} {use : NodeId}

theorem bindField_eq_constField {around : List Node} (h : bindField around name = .constField d) :
    ∃ x ∈ around, ∃ t, x.typeDecl? = some t ∧ HasField t.members true d := by
  unfold bindField at h
  cases hField : (around.filterMap Node.typeDecl?).findSome? fun t => fieldBinding? t.members name with
  | none =>
    rw [hField] at h
    cases h
  | some binding =>
    rw [hField] at h
    obtain rfl : binding = .constField d := h
    obtain ⟨t, ht, hFound⟩ := List.exists_of_findSome?_eq_some hField
    obtain ⟨x, hx, ht⟩ := List.mem_filterMap.mp ht
    exact ⟨x, hx, t, ht, (fieldBinding?_eq_constField hFound).1⟩

theorem bindField_ne_constLocal {around : List Node} : bindField around name ≠ .constLocal d := by
  intro h
  unfold bindField at h
  cases hField : (around.filterMap Node.typeDecl?).findSome? fun t => fieldBinding? t.members name with
  | none =>
    rw [hField] at h
    cases h
  | some binding =>
    rw [hField] at h
    obtain rfl : binding = .constLocal d := h
    obtain ⟨t, _, hFound⟩ := List.exists_of_findSome?_eq_some hField
    exact fieldBinding?_ne_constLocal hFound

theorem bindSimple_eq_constLocal (h : m.bindSimple use name = .constLocal d) :
    ∃ x ∈ m.tree.ancestors use, ∃ f, x.function? = some f ∧
      m.bindLocal? f use name = some (.constLocal d) := by
  unfold bindSimple at h
  dsimp only at h
  split at h
  next binding hLocal =>
    obtain ⟨f, hf, hLocal⟩ := Option.bind_eq_some_iff.mp hLocal
    obtain ⟨x, hx, hf⟩ := List.exists_of_findSome?_eq_some hf
    rw [h] at hLocal
    exact ⟨x, hx, f, hf, hLocal⟩
  next => exact absurd h bindField_ne_constLocal

theorem bindSimple_eq_constField (h : m.bindSimple use name = .constField d) :
    ∃ x ∈ m.tree.ancestors use, ∃ t, x.typeDecl? = some t ∧ HasField t.members true d := by
  unfold bindSimple at h
  dsimp only at h
  split at h
  next binding hLocal =>
    obtain ⟨f, _, hLocal⟩ := Option.bind_eq_some_iff.mp hLocal
    rw [h] at hLocal
    exact absurd hLocal bindLocal?_ne_constField
  next => exact bindField_eq_constField h

theorem bindQualified_eq {path : List String} {binding : Binding}
    (h : m.bindQualified path name = binding) (hFound : binding ≠ .unresolved) :
    ∃ id x t, m.tree.node? id = some x ∧ x.typeDecl? = some t ∧
      fieldBinding? t.members name = some binding := by
  unfold bindQualified at h
  cases hField : ((m.findType? path).bind fun s => (m.tree.node? s.node).bind Node.typeDecl?).bind
      fun t => fieldBinding? t.members name with
  | none =>
    rw [hField] at h
    exact absurd h.symm hFound
  | some found =>
    rw [hField] at h
    obtain rfl : found = binding := h
    obtain ⟨t, ht, hMembers⟩ := Option.bind_eq_some_iff.mp hField
    obtain ⟨s, _, ht⟩ := Option.bind_eq_some_iff.mp ht
    obtain ⟨x, hx, ht⟩ := Option.bind_eq_some_iff.mp ht
    exact ⟨s.node, x, t, hx, ht, hMembers⟩

/-- A name is looked up by itself or behind the name of a type, or not at all. -/
theorem bind_cases (m : Model) (e : Expr) :
    (∃ name, e.unparenthesized.kind = .ident name ∧
      m.bind e = m.bindSimple e.unparenthesized.id name) ∨
    (∃ path name, m.bind e = m.bindQualified path name) ∨ m.bind e = .unresolved := by
  unfold bind
  dsimp only
  split
  next name hKind => exact .inl ⟨name, hKind, rfl⟩
  next =>
    split
    · exact .inr (.inl ⟨_, _, rfl⟩)
    · exact .inr (.inr rfl)
  next => exact .inr (.inr rfl)

end Constants

/-- A name inside a function that is bound to a constant field is the name of no parameter, is
introduced nowhere in the function, and names no field of a type between the function and the one
that has the constant. -/
theorem constField_not_hidden (source : List Char) (u : Expr) (name : String)
    (inner outer : List Node) (member : Member) (f : Function) (d : Declarator)
    (hUse : Lineage (parseSource source).1 (.expr u) (inner ++ .member member :: outer))
    (hFunction : member.function? = some f) (hName : u.kind = .ident name)
    (hBind : (Model.ofUnit (parseSource source).1).bind u = .constField d) :
    (∀ p ∈ f.params, p.name ≠ name) ∧
    (∀ x ∈ (Node.member member).descendants, ¬Introduces x name) ∧
    ∃ nearer t farther, outer.filterMap Node.typeDecl? = nearer ++ t :: farther ∧
      HasField t.members true d ∧ d.name = name ∧
      ∀ x ∈ nearer, ∀ isConst d', HasField x.members isConst d' → d'.name ≠ name := by
  rw [bind_ident hName, bindSimple_of_function (numbered_parseSource source) hUse hFunction] at hBind
  cases hLocal : (Model.ofUnit (parseSource source).1).bindLocal? f u.id name with
  | some binding =>
    rw [hLocal] at hBind
    obtain rfl : binding = .constField d := hBind
    exact absurd hLocal bindLocal?_ne_constField
  | none =>
    rw [hLocal] at hBind
    obtain ⟨hParams, hNone⟩ := bindLocal?_eq_none hLocal
    rw [member.member_of_function? hFunction] at hNone
    refine ⟨hParams, (localDeclarations_eq_nil (by rw [hFunction]; rfl)).mp hNone, ?_⟩
    cases hTypes : (outer.filterMap Node.typeDecl?).findSome? fun t =>
        fieldBinding? t.members name with
    | none =>
      rw [hTypes] at hBind
      cases hBind
    | some binding =>
      rw [hTypes] at hBind
      obtain rfl : binding = .constField d := hBind
      obtain ⟨nearer, t, farther, hSplit, hField, hNearer⟩ := findSome?_fieldBinding? hTypes
      obtain ⟨hConst, hd⟩ := fieldBinding?_eq_constField hField
      exact ⟨nearer, t, farther, hSplit, hConst, hd, hNearer⟩

/-- The scope of a declarator is the second of the nodes around it. -/
theorem scope?_eq {unit : CompilationUnit} (hu : unit.Numbered) {d : Declarator}
    {around : List Node} (h : Lineage unit (.declarator d) around) :
    (Model.ofUnit unit).scope? d = around[1]? := by
  have hParent : (Model.ofUnit unit).tree.parent? d.id = around.head? := h.parent?_eq hu
  rw [scope?, hParent]
  cases around with
  | nil => rfl
  | cons stmt above =>
    have hScope : (Model.ofUnit unit).tree.parent? stmt.id = above.head? := h.parent.1.parent?_eq hu
    rw [List.getElem?_cons_succ, ← List.head?_eq_getElem?]
    exact hScope

/-! ## Uses in a given source -/

/-- The entry is a use of the name inside a function. -/
def isUse (name : String) (e : Entry) : Bool :=
  match e.node with
  | .expr u => u.ident? == some name && (e.ancestors.findSome? Node.function?).isSome
  | _ => false

theorem exists_use (unit : CompilationUnit) (name : String) (P : Entry → Bool)
    (h : unit.entries.any (fun e => isUse name e && P e) = true) :
    ∃ u inner outer member f, Lineage unit (.expr u) (inner ++ .member member :: outer) ∧
      member.function? = some f ∧ u.kind = .ident name ∧
      P ⟨.expr u, inner ++ .member member :: outer⟩ = true := by
  obtain ⟨⟨n, around⟩, he, h⟩ := List.any_eq_true.mp h
  rw [Bool.and_eq_true] at h
  obtain ⟨hUse, hP⟩ := h
  unfold isUse at hUse
  split at hUse
  next u hu =>
    obtain rfl : n = .expr u := hu
    rw [Bool.and_eq_true, beq_iff_eq] at hUse
    obtain ⟨f, hf⟩ := Option.isSome_iff_exists.mp hUse.2
    obtain ⟨inner, x, outer, rfl, hx, _⟩ := List.findSome?_eq_some_iff.mp hf
    cases x with
    | member member =>
      refine ⟨u, inner, outer, member, f, Lineage.mem_entries_iff.mp he, hx, ?_, hP⟩
      have hIdent := hUse.1
      unfold Expr.ident? at hIdent
      split at hIdent
      next hKind =>
        cases hIdent
        exact hKind
      next => cases hIdent
    | _ => cases hx
  next => cases hUse

/-- The entry is an expression that is bound to a constant field. -/
def usesConstField (unit : CompilationUnit) (e : Entry) : Bool :=
  match e.node with
  | .expr u => ((Model.ofUnit unit).bind u).constField?.isSome
  | _ => false

theorem exists_constField {unit : CompilationUnit} {u : Expr} {around : List Node}
    (h : usesConstField unit ⟨.expr u, around⟩ = true) :
    ∃ d, (Model.ofUnit unit).bind u = .constField d := by
  obtain ⟨d, hd⟩ := Option.isSome_iff_exists.mp h
  exact ⟨d, Binding.constField?_eq_some hd⟩

def nestedUse : List Char :=
  "class T{const int N=4;class U{int P{get;set;}void M(int x){var b=new byte[N];}}int K;}".toList

set_option maxRecDepth 10000 in
theorem constField_not_hidden_in_nestedUse : ∃ u inner outer member f d,
    Lineage (parseSource nestedUse).1 (.expr u) (inner ++ .member member :: outer) ∧
    member.function? = some f ∧ u.kind = .ident "N" ∧
    (Model.ofUnit (parseSource nestedUse).1).bind u = .constField d ∧
    (∀ p ∈ f.params, p.name ≠ "N") ∧
    (∀ x ∈ (Node.member member).descendants, ¬Introduces x "N") ∧
    ∃ nearer t farther, outer.filterMap Node.typeDecl? = nearer ++ t :: farther ∧
      HasField t.members true d := by
  obtain ⟨u, inner, outer, member, f, hUse, hf, hName, hBind⟩ :=
    exists_use (parseSource nestedUse).1 "N" (usesConstField (parseSource nestedUse).1)
      (by decide +kernel)
  obtain ⟨d, hd⟩ := exists_constField hBind
  obtain ⟨hParams, hLocals, nearer, t, farther, hTypes, hField, _⟩ :=
    constField_not_hidden nestedUse u "N" inner outer member f d hUse hf hName hd
  exact ⟨u, inner, outer, member, f, d, hUse, hf, hName, hd, hParams, hLocals, nearer, t, farther,
    hTypes, hField⟩

def propertyBetween : List Char :=
  "class T{const int N=4;class U{int N{get;set;}void M(){var b=new byte[N];}}}".toList

/-- The innermost type around the use has a property of the name and no field at all. -/
def hasPropertyAndNoField (name : String) (e : Entry) : Bool :=
  match (e.ancestors.filterMap Node.typeDecl?).head? with
  | some t =>
    t.members.any (fun x => match x.kind with
      | .property p => p.name == name
      | _ => false) &&
    t.members.all fun x => match x.kind with
      | .field _ => false
      | _ => true
  | none => false

set_option maxRecDepth 10000 in
/-- Only fields hide a constant: a property of the type in between does not. -/
theorem constField_past_property : (parseSource propertyBetween).2 = [] ∧
    ∃ u inner outer member f d, ∃ t : TypeDecl Member,
      Lineage (parseSource propertyBetween).1 (.expr u) (inner ++ .member member :: outer) ∧
      member.function? = some f ∧ u.kind = .ident "N" ∧
      (Model.ofUnit (parseSource propertyBetween).1).bind u = .constField d ∧
      (outer.filterMap Node.typeDecl?).head? = some t ∧ ¬HasField t.members true d ∧
      ∃ x ∈ t.members, ∃ p, x.kind = .property p ∧ p.name = "N" := by
  refine ⟨by decide +kernel, ?_⟩
  obtain ⟨u, inner, outer, member, f, hUse, hf, hName, h⟩ :=
    exists_use (parseSource propertyBetween).1 "N"
      (fun e => usesConstField (parseSource propertyBetween).1 e && hasPropertyAndNoField "N" e)
      (by decide +kernel)
  rw [Bool.and_eq_true] at h
  obtain ⟨d, hd⟩ := exists_constField h.1
  have hTypes := h.2
  unfold hasPropertyAndNoField at hTypes
  rw [filterMap_typeDecl? hUse hf] at hTypes
  split at hTypes
  next t ht =>
    rw [Bool.and_eq_true, List.any_eq_true, List.all_eq_true] at hTypes
    obtain ⟨⟨x, hx, hProperty⟩, hNoField⟩ := hTypes
    refine ⟨u, inner, outer, member, f, d, t, hUse, hf, hName, hd, ht, ?_, x, hx, ?_⟩
    · rintro ⟨y, hy, fd, hKind, _⟩
      have := hNoField y hy
      rw [hKind] at this
      cases this
    · split at hProperty
      next p hKind => exact ⟨p, hKind, eq_of_beq hProperty⟩
      next => cases hProperty
  next => cases hTypes

end Model

end Stackable
