import Stackable.Proofs.Model.Binding
import Stackable.Proofs.Symbol.Declarations

/-!
# Which type a path names

The declared types of a tree, in the order of their declarations, carry the names of the namespaces
and types around them. A path is resolved to the first of them whose qualified name it ends,
wherever the path is written; a type nearer to the reference does not come before it.
-/

set_option autoImplicit false

namespace Stackable

structure DeclaredType where
  id : NodeId
  decl : TypeDecl Member
  /-- Namespaces, enclosing types and the name itself. -/
  path : List String

namespace DeclaredType

def qualifiedName (t : DeclaredType) : String := String.intercalate "." t.path

/-- The path ends the qualified name of the type, and its last name is the type's own. -/
def Answers (path : List String) (t : DeclaredType) : Prop :=
  path.getLast? = some t.decl.name ∧
    (t.qualifiedName = String.intercalate "." path ∨
      ('.' :: (String.intercalate "." path).toList) <:+ t.qualifiedName.toList)

instance (path : List String) (t : DeclaredType) : Decidable (t.Answers path) :=
  inferInstanceAs (Decidable (_ ∧ _))

/-- The path names the type from a place inside `scope`, as a prefix of `scope` leads to it. -/
def VisibleAs (scope path : List String) (t : DeclaredType) : Prop :=
  ∃ outer, outer <+: scope ∧ t.path = outer ++ path

end DeclaredType

def Entry.declaredType? (e : Entry) : Option DeclaredType :=
  e.node.typeDecl?.map fun d => ⟨e.node.id, d, scopeOf e.ancestors ++ [d.name]⟩

/-- The declared types in the order of their declarations. -/
def SyntaxTree.declaredTypes (t : SyntaxTree) : List DeclaredType :=
  t.entries.filterMap Entry.declaredType?

def Symbol.heading (s : Symbol) : String × String × NodeId := (s.name, s.qualifiedName, s.node)

def DeclaredType.heading (t : DeclaredType) : String × String × NodeId :=
  (t.decl.name, t.qualifiedName, t.id)

def typeHeadings (symbols : List Symbol) : List (String × String × NodeId) :=
  (symbols.filter Symbol.isType).map Symbol.heading

/-- A declared type is a declaration of a type. -/
theorem Entry.declaredType?_eq (all : List Declaration) (e : Entry) :
    ((e.declaration?.filter fun d => (d.symbol all).isType).map fun d => (d.symbol all).heading) =
      e.declaredType?.map DeclaredType.heading := by
  obtain ⟨n, around⟩ := e
  cases hType : n.typeDecl? with
  | some t =>
    rw [Entry.declaration?_of_typeDecl? hType, Entry.declaredType?, hType]
    rfl
  | none =>
    have hNot : ∀ d, Entry.declaration? ⟨n, around⟩ = some d → (d.symbol all).isType = false := by
      intro d hd
      rw [Declaration.isType_symbol, (Entry.of_declaration? hd).2.2, hType]
      rfl
    rw [Entry.declaredType?, hType]
    cases hd : Entry.declaration? ⟨n, around⟩ with
    | none => rfl
    | some d => rw [Option.filter_some, hNot d hd]; rfl

/-- The symbols of types stand in the table as the types stand in the tree. -/
theorem typeHeadings_ofUnit {unit : CompilationUnit} (hu : unit.Numbered) :
    typeHeadings (SymbolTable.ofUnit unit).symbols =
      (SyntaxTree.ofUnit unit).declaredTypes.map DeclaredType.heading := by
  rw [typeHeadings, symbols_ofUnit hu, List.filter_map, List.map_map]
  nth_rewrite 3 [SyntaxTree.declarations]
  rw [SyntaxTree.declaredTypes, List.filter_filterMap, List.map_filterMap, List.map_filterMap]
  congr 1
  funext e
  exact e.declaredType?_eq _

namespace Model

variable {unit : CompilationUnit} {path : List String} {name : String}

/-- Only the heading of a type decides whether a path names it. -/
def answersHeading (path : List String) (h : String × String × NodeId) : Bool :=
  path.getLast? == some h.1 &&
    (h.2.1 == String.intercalate "." path ||
      ('.' :: (String.intercalate "." path).toList).isSuffixOf h.2.1.toList)

theorem answersHeading_heading (t : DeclaredType) :
    answersHeading path t.heading = decide (t.Answers path) := by
  rw [Bool.eq_iff_iff, decide_eq_true_iff]
  simp [answersHeading, DeclaredType.heading, DeclaredType.Answers]

theorem findType?_eq_find? (unit : CompilationUnit) (path : List String) :
    (Model.ofUnit unit).findType? path =
      ((SymbolTable.ofUnit unit).symbols.filter Symbol.isType).find?
        (answersHeading path ∘ Symbol.heading) := by
  rw [List.find?_filter]
  change (path.getLast?.bind fun last => ((SymbolTable.ofUnit unit).typesNamed last).find? _) = _
  cases hLast : path.getLast? with
  | none =>
    symm
    apply List.find?_eq_none.mpr
    intro s _
    simp [answersHeading, hLast]
  | some last =>
    rw [Option.bind_some, (SymbolTable.indexed_ofUnit unit).typesNamed_eq, List.find?_filter]
    congr 1
    funext s
    have hName : (s.name == last) = (some last == some s.name) := by
      rw [Bool.eq_iff_iff, beq_iff_eq, beq_iff_eq, Option.some_inj, eq_comm]
    simp only [Function.comp, answersHeading, Symbol.heading, isNamedBy, hLast, hName,
      Bool.and_eq_true, and_assoc]

/-- The first declared type that answers to a path is the one that the path is resolved to. -/
theorem heading_findType? (hu : unit.Numbered) (path : List String) :
    ((Model.ofUnit unit).findType? path).map Symbol.heading =
      ((SyntaxTree.ofUnit unit).declaredTypes.find? fun t => decide (t.Answers path)).map
        DeclaredType.heading := by
  have hTypes := typeHeadings_ofUnit hu
  unfold typeHeadings at hTypes
  rw [findType?_eq_find?]
  calc
    _ = (((SymbolTable.ofUnit unit).symbols.filter Symbol.isType).map Symbol.heading).find?
        (answersHeading path) := (List.find?_map ..).symm
    _ = ((SyntaxTree.ofUnit unit).declaredTypes.map DeclaredType.heading).find?
        (answersHeading path) := by rw [hTypes]
    _ = _ := by
      rw [List.find?_map]
      congr 2
      funext t
      exact answersHeading_heading t

section First

variable {first : DeclaredType}

theorem exists_symbol_of_first (hu : unit.Numbered)
    (hFirst : (SyntaxTree.ofUnit unit).declaredTypes.find?
      (fun t => decide (t.Answers path)) = some first) :
    ∃ s, (Model.ofUnit unit).findType? path = some s ∧ s.qualifiedName = first.qualifiedName ∧
      s.node = first.id := by
  have hFind := heading_findType? hu path
  rw [hFirst] at hFind
  obtain ⟨s, hs, hHeading⟩ := Option.map_eq_some_iff.mp hFind
  exact ⟨s, hs, congrArg (·.2.1) hHeading, congrArg (·.2.2) hHeading⟩

theorem typeDecl?_of_mem_declaredTypes (hu : unit.Numbered) {t : DeclaredType}
    (ht : t ∈ (SyntaxTree.ofUnit unit).declaredTypes) :
    ((SyntaxTree.ofUnit unit).node? t.id).bind Node.typeDecl? = some t.decl := by
  rw [SyntaxTree.declaredTypes, SyntaxTree.entries_ofUnit hu] at ht
  obtain ⟨e, he, ht⟩ := List.mem_filterMap.mp ht
  obtain ⟨d, hd, rfl⟩ := Option.map_eq_some_iff.mp ht
  change ((SyntaxTree.ofUnit unit).node? e.node.id).bind Node.typeDecl? = some d
  rw [(Lineage.mem_entries_iff.mp he).node?_eq hu]
  exact hd

theorem bindQualified_of_first (hu : unit.Numbered)
    (hFirst : (SyntaxTree.ofUnit unit).declaredTypes.find?
      (fun t => decide (t.Answers path)) = some first) :
    (Model.ofUnit unit).bindQualified path name =
      (fieldBinding? first.decl.members name).getD .unresolved := by
  obtain ⟨s, hs, _, hNode⟩ := exists_symbol_of_first hu hFirst
  have hDecl := typeDecl?_of_mem_declaredTypes hu (List.mem_of_find?_eq_some hFirst)
  rw [bindQualified, hs, Option.bind_some, hNode]
  change ((((SyntaxTree.ofUnit unit).node? first.id).bind Node.typeDecl?).bind _).getD _ = _
  rw [hDecl, Option.bind_some]

theorem resolveType_of_first {source : List Char}
    (hFirst : (SyntaxTree.ofUnit (parseSource source).1).declaredTypes.find?
      (fun t => decide (t.Answers path)) = some first) (args : List TypeRef) (span : Span) :
    (Model.ofUnit (parseSource source).1).resolveType ⟨.named path args, span⟩ =
      .named first.qualifiedName := by
  obtain ⟨s, hs, hName, _⟩ := exists_symbol_of_first (numbered_parseSource source) hFirst
  rw [resolveType, resolveName, hs, ← hName]

end First

theorem bind_member {e object : Expr} (m : Model) (hKind : e.kind = .member object name false)
    (hPath : dottedPath? object = some path) : m.bind e = m.bindQualified path name := by
  obtain ⟨id, kind, span⟩ := e
  obtain rfl : kind = .member object name false := hKind
  unfold bind
  simp only [Expr.unparenthesized, hPath]

theorem dottedPath?_ne_nil {object : Expr} (h : dottedPath? object = some path) : path ≠ [] := by
  unfold dottedPath? at h
  split at h
  next =>
    cases h
    exact List.cons_ne_nil _ _
  next =>
    obtain ⟨front, _, rfl⟩ := Option.map_eq_some_iff.mp h
    exact List.append_ne_nil_of_right_ne_nil _ (List.cons_ne_nil _ _)
  next => cases h

end Model

/-- What is visible under a path from some place answers to the path. -/
theorem DeclaredType.VisibleAs.answers {unit : CompilationUnit} {scope path : List String}
    {t : DeclaredType} (ht : t ∈ (SyntaxTree.ofUnit unit).declaredTypes) (hPath : path ≠ [])
    (h : t.VisibleAs scope path) : t.Answers path := by
  obtain ⟨outer, _, h⟩ := h
  obtain ⟨e, he, ht⟩ := List.mem_filterMap.mp ht
  obtain ⟨d, hd, rfl⟩ := Option.map_eq_some_iff.mp ht
  change scopeOf e.ancestors ++ [d.name] = outer ++ path at h
  constructor
  · have hLast := congrArg List.getLast? h
    rw [List.getLast?_append_of_ne_nil _ (List.cons_ne_nil _ _),
      List.getLast?_append_of_ne_nil _ hPath] at hLast
    exact hLast.symm
  · change String.intercalate "." (scopeOf e.ancestors ++ [d.name]) = _ ∨
      _ <:+ (String.intercalate "." (scopeOf e.ancestors ++ [d.name])).toList
    rw [h]
    by_cases hOuter : outer = []
    · left
      rw [hOuter, List.nil_append]
    · right
      rw [String.intercalate_append_of_ne_nil hOuter hPath, String.toList_append,
        String.toList_append, List.append_assoc]
      exact List.suffix_append _ _

/-- A qualified reference stands for a field of the first type that answers to its path, and the
path written as a type for that type, wherever they are written. So a type visible from there is
the one meant only if none that answers is declared before it. -/
theorem qualified_first_declared (source : List Char) (u object : Expr) (path scope : List String)
    (name : String) (t : DeclaredType) (hKind : u.kind = .member object name false)
    (hPath : Model.dottedPath? object = some path)
    (ht : t ∈ (SyntaxTree.ofUnit (parseSource source).1).declaredTypes)
    (hVisible : t.VisibleAs scope path) :
    ∃ before first after,
      (SyntaxTree.ofUnit (parseSource source).1).declaredTypes = before ++ first :: after ∧
      first.Answers path ∧ (∀ x ∈ before, ¬x.Answers path) ∧
      (Model.ofUnit (parseSource source).1).bind u =
        (Model.fieldBinding? first.decl.members name).getD .unresolved ∧
      (∀ args span, (Model.ofUnit (parseSource source).1).resolveType ⟨.named path args, span⟩ =
        .named first.qualifiedName) ∧
      (first = t ↔ ∃ front back,
        (SyntaxTree.ofUnit (parseSource source).1).declaredTypes = front ++ t :: back ∧
          ∀ x ∈ front, ¬x.Answers path) := by
  have hAnswers := hVisible.answers ht (Model.dottedPath?_ne_nil hPath)
  cases hFirst : (SyntaxTree.ofUnit (parseSource source).1).declaredTypes.find?
      fun t => decide (t.Answers path) with
  | none => exact absurd (decide_eq_true hAnswers) (List.find?_eq_none.mp hFirst t ht)
  | some first =>
    obtain ⟨hFirstAnswers, before, after, hSplit, hNot⟩ := List.find?_eq_some_iff_append.mp hFirst
    have hBefore : ∀ x ∈ before, ¬x.Answers path := by
      intro x hx
      simpa using hNot x hx
    refine ⟨before, first, after, hSplit, of_decide_eq_true hFirstAnswers, hBefore, ?_, ?_, ?_⟩
    · rw [Model.bind_member _ hKind hPath]
      exact Model.bindQualified_of_first (numbered_parseSource source) hFirst
    · exact Model.resolveType_of_first hFirst
    · constructor
      · rintro rfl
        exact ⟨before, after, hSplit, hBefore⟩
      · rintro ⟨front, back, hFront, hNone⟩
        have hHead : (t :: back).find? (fun t => decide (t.Answers path)) = some t := by
          rw [List.find?_cons, decide_eq_true hAnswers]
        rw [hFront, List.find?_append, List.find?_eq_none.mpr, Option.none_or, hHead] at hFirst
        · exact (Option.some_inj.mp hFirst).symm
        · intro x hx
          simpa using hNone x hx

/-- The entry is a reference `path.name`. -/
def isReference (path : List String) (name : String) (e : Entry) : Bool :=
  match e.node with
  | .expr ⟨_, .member object n false, _⟩ => n == name && Model.dottedPath? object == some path
  | _ => false

theorem exists_reference (unit : CompilationUnit) (path : List String) (name : String)
    (P : Entry → Bool)
    (h : unit.entries.any (fun e => isReference path name e && P e) = true) :
    ∃ u object around, Lineage unit (.expr u) around ∧ u.kind = .member object name false ∧
      Model.dottedPath? object = some path ∧ P ⟨.expr u, around⟩ = true := by
  obtain ⟨⟨n, around⟩, he, h⟩ := List.any_eq_true.mp h
  rw [Bool.and_eq_true] at h
  obtain ⟨hUse, hP⟩ := h
  unfold isReference at hUse
  split at hUse
  next id object name' span hn =>
    rw [Bool.and_eq_true, beq_iff_eq, beq_iff_eq] at hUse
    obtain ⟨rfl, hPath⟩ := hUse
    obtain rfl : n = .expr ⟨id, .member object name' false, span⟩ := hn
    exact ⟨_, object, around, Lineage.mem_entries_iff.mp he, rfl, hPath, hP⟩
  next => cases hUse

def nearestFirst : List Char :=
  "class A{class K{const int N=2;int n=K.N;}}class K{const int N=1;}".toList

set_option maxRecDepth 10000 in
theorem qualified_first_declared_in_nearestFirst : ∃ u object t,
    u.kind = .member object "N" false ∧ Model.dottedPath? object = some ["K"] ∧
    t ∈ (SyntaxTree.ofUnit (parseSource nearestFirst).1).declaredTypes ∧
    t.VisibleAs ["A", "K"] ["K"] ∧
    ∃ before first after,
      (SyntaxTree.ofUnit (parseSource nearestFirst).1).declaredTypes = before ++ first :: after ∧
      first.Answers ["K"] ∧ (∀ x ∈ before, ¬x.Answers ["K"]) ∧
      (Model.ofUnit (parseSource nearestFirst).1).bind u =
        (Model.fieldBinding? first.decl.members "N").getD .unresolved := by
  have hRun : (parseSource nearestFirst).1.entries.any (fun e =>
        isReference ["K"] "N" e && true) = true ∧
      ["A", "K"] ∈ (SyntaxTree.ofUnit (parseSource nearestFirst).1).declaredTypes.map (·.path) := by
    decide +kernel
  obtain ⟨u, object, _, _, hKind, hPath, _⟩ :=
    exists_reference (parseSource nearestFirst).1 ["K"] "N" (fun _ => true) hRun.1
  obtain ⟨t, ht, hType⟩ := List.mem_map.mp hRun.2
  have hVisible : t.VisibleAs ["A", "K"] ["K"] := ⟨["A"], by decide, hType⟩
  obtain ⟨before, first, after, hSplit, hFirst, hBefore, hBind, _⟩ :=
    qualified_first_declared nearestFirst u object ["K"] ["A", "K"] "N" t hKind hPath ht hVisible
  exact ⟨u, object, t, hKind, hPath, ht, hVisible, before, first, after, hSplit, hFirst, hBefore,
    hBind⟩

def nearestLast : List Char :=
  "class K{const int N=1;}class A{class K{const int N=2;int n=K.N;}}".toList

/-- The entry stands in `scope`, and the constant it refers to is none of the type at `path`. -/
def missesType (unit : CompilationUnit) (scope path : List String) (name : String) (e : Entry) :
    Bool :=
  match e.node with
  | .expr u =>
    scopeOf e.ancestors == scope &&
      (SyntaxTree.ofUnit unit).declaredTypes.all fun t => t.path != path ||
        ((Model.ofUnit unit).bind u).constField?.map (·.id) !=
          ((Model.fieldBinding? t.decl.members name).getD .unresolved).constField?.map (·.id)
  | _ => false

theorem bind_ne_of_missesType {unit : CompilationUnit} {scope path : List String} {name : String}
    {u : Expr} {around : List Node} (h : missesType unit scope path name ⟨.expr u, around⟩ = true)
    {t : DeclaredType} (ht : t ∈ (SyntaxTree.ofUnit unit).declaredTypes) (hPath : t.path = path) :
    scopeOf around = scope ∧ (Model.ofUnit unit).bind u ≠
      (Model.fieldBinding? t.decl.members name).getD .unresolved := by
  unfold missesType at h
  rw [Bool.and_eq_true, beq_iff_eq] at h
  refine ⟨h.1, ?_⟩
  intro hBind
  have hMisses := List.all_eq_true.mp h.2 t ht
  rw [hBind, hPath] at hMisses
  simp at hMisses

set_option maxRecDepth 10000 in
/-- From inside `A.K` the nearest type called `K` is `A.K`, but the one declared first is meant. -/
theorem qualified_past_nearest : (parseSource nearestLast).2 = [] ∧
    ∃ u object around t, Lineage (parseSource nearestLast).1 (.expr u) around ∧
    u.kind = .member object "N" false ∧ Model.dottedPath? object = some ["K"] ∧
    t ∈ (SyntaxTree.ofUnit (parseSource nearestLast).1).declaredTypes ∧ t.path = ["A"] ++ ["K"] ∧
    ["A"] <+: scopeOf around ∧
    (∀ t' ∈ (SyntaxTree.ofUnit (parseSource nearestLast).1).declaredTypes, ∀ outer,
      outer <+: scopeOf around → t'.path = outer ++ ["K"] → outer.length ≤ 1) ∧
    (Model.ofUnit (parseSource nearestLast).1).bind u ≠
      (Model.fieldBinding? t.decl.members "N").getD .unresolved := by
  have hRun : (parseSource nearestLast).2 = [] ∧
      (SyntaxTree.ofUnit (parseSource nearestLast).1).declaredTypes.map (·.path) =
        [["K"], ["A"], ["A", "K"]] ∧
      (parseSource nearestLast).1.entries.any (fun e =>
        isReference ["K"] "N" e &&
          missesType (parseSource nearestLast).1 ["A", "K"] ["A", "K"] "N" e) = true := by
    decide +kernel
  obtain ⟨hErrors, hPaths, hReference⟩ := hRun
  obtain ⟨u, object, around, hUse, hKind, hPath, hMisses⟩ :=
    exists_reference (parseSource nearestLast).1 ["K"] "N" _ hReference
  have hLast : ["A", "K"] ∈
      (SyntaxTree.ofUnit (parseSource nearestLast).1).declaredTypes.map (·.path) := by
    rw [hPaths]
    decide
  obtain ⟨t, ht, hType⟩ := List.mem_map.mp hLast
  obtain ⟨hScope, hBind⟩ := bind_ne_of_missesType hMisses ht hType
  refine ⟨hErrors, u, object, around, t, hUse, hKind, hPath, ht, hType, ?_, ?_, hBind⟩
  · rw [hScope]
    decide
  · intro t' ht' outer _ hOuter
    have hTwo : ∀ p ∈ [["K"], ["A"], ["A", "K"]], p.length ≤ 2 := by decide
    have hLength := hTwo t'.path (hPaths ▸ List.mem_map_of_mem ht')
    rw [hOuter, List.length_append, List.length_singleton] at hLength
    omega

end Stackable
