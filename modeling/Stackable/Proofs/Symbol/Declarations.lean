import Stackable.Proofs.Symbol.Collection
import Stackable.Proofs.Syntax.Lineage

/-!
# What a tree declares

The declarations of a tree are its types, the declarators of its fields, its methods and its
constructors, in the order of the walk. The symbol table of a unit with distinct numbers lists
them: a symbol is numbered by the place of its declaration, belongs to the nearest type around it
and is named by the path of namespaces and types that leads to it.
-/

set_option autoImplicit false

namespace Stackable

/-- The names that a node puts in front of those declared inside it. -/
def Node.scopeNames : Node → List String
  | .decl ⟨_, .namespaceDecl n, _⟩ => n.name
  | n => (n.typeDecl?.map (·.name)).toList

/-- The path of namespaces and types around a place, outermost first. -/
def scopeOf (around : List Node) : List String := around.reverse.flatMap Node.scopeNames

theorem scopeOf_cons (n : Node) (around : List Node) :
    scopeOf (n :: around) = scopeOf around ++ n.scopeNames := by
  simp [scopeOf]

theorem Node.scopeNames_of_typeDecl? {n : Node} {t : TypeDecl Member} (h : n.typeDecl? = some t) :
    n.scopeNames = [t.name] ∧ n.children = t.members.map Node.member := by
  unfold Node.typeDecl? at h
  split at h <;> cases h <;> exact ⟨rfl, rfl⟩

/-- The nearest type around a place. -/
def nearestType? (around : List Node) : Option NodeId :=
  (around.find? (·.typeDecl?.isSome)).map Node.id

theorem nearestType?_cons {t : Node} (h : t.typeDecl?.isSome) (outer : List Node) :
    nearestType? (t :: outer) = some t.id := by
  rw [nearestType?, List.find?_cons, h]
  rfl

theorem nearestType?_append {inner : List Node} (h : ∀ n ∈ inner, n.typeDecl? = none)
    (outer : List Node) : nearestType? (inner ++ outer) = nearestType? outer := by
  have hNone : inner.find? (·.typeDecl?.isSome) = none := by
    apply List.find?_eq_none.mpr
    intro n hn
    simp [h n hn]
  rw [nearestType?, List.find?_append, hNone, Option.none_or, nearestType?]

/-- The field that a member declares. -/
def Node.field? : Node → Option FieldDecl
  | .member ⟨_, .field f, _⟩ => some f
  | _ => none

inductive DeclaredKind where
  | type (kind : TypeKind)
  | field (isConst : Bool)
  | method (isAsync : Bool)
  | constructor
deriving Repr, DecidableEq

/-- What a node declares, and the nodes around it, nearest first. -/
structure Declaration where
  node : NodeId
  name : String
  nameSpan : Span
  kind : DeclaredKind
  around : List Node

namespace Declaration

def isType (d : Declaration) : Bool :=
  match d.kind with
  | .type _ => true
  | _ => false

/-- Namespaces, enclosing types and the name itself. -/
def qualifiedName (d : Declaration) : String :=
  String.intercalate "." (scopeOf d.around ++ [d.name])

def owner? (d : Declaration) : Option NodeId := nearestType? d.around

end Declaration

def Entry.declaration? (e : Entry) : Option Declaration :=
  match e.node with
  | .decl ⟨id, .typeDecl t, _⟩ | .member ⟨id, .typeDecl t, _⟩ =>
    some ⟨id, t.name, t.nameSpan, .type t.kind, e.ancestors⟩
  | .member ⟨id, .method d, _⟩ =>
    some ⟨id, d.name, d.nameSpan, .method (d.modifiers.contains .asyncMod), e.ancestors⟩
  | .member ⟨id, .constructor d, _⟩ => some ⟨id, d.name, d.nameSpan, .constructor, e.ancestors⟩
  | .declarator d => (e.ancestors.head?.bind Node.field?).map fun f =>
    ⟨d.id, d.name, d.nameSpan, .field (f.modifiers.contains .constMod), e.ancestors⟩
  | _ => none

/-- The declarations of a node and of all that is below it. -/
def Node.declarations (around : List Node) (n : Node) : List Declaration :=
  (n.entries around).filterMap Entry.declaration?

/-- The declarations in the order of the walk. -/
def SyntaxTree.declarations (t : SyntaxTree) : List Declaration :=
  t.entries.filterMap Entry.declaration?

/-- Only types are declared as types. -/
theorem Entry.of_declaration? {e : Entry} {d : Declaration} (h : e.declaration? = some d) :
    d.node = e.node.id ∧ d.around = e.ancestors ∧ d.isType = e.node.typeDecl?.isSome := by
  unfold declaration? at h
  split at h
  case h_5 hNode =>
    obtain ⟨f, _, rfl⟩ := Option.map_eq_some_iff.mp h
    rw [hNode]
    exact ⟨rfl, rfl, rfl⟩
  case h_6 => cases h
  all_goals
    next hNode =>
      cases h
      rw [hNode]
      exact ⟨rfl, rfl, rfl⟩

theorem Entry.declaration?_of_typeDecl? {n : Node} {t : TypeDecl Member} (h : n.typeDecl? = some t)
    (around : List Node) : Entry.declaration? ⟨n, around⟩ =
      some ⟨n.id, t.name, t.nameSpan, .type t.kind, around⟩ := by
  unfold Node.typeDecl? at h
  split at h <;> cases h <;> rfl

theorem Node.declarations_eq (around : List Node) (n : Node) :
    n.declarations around = (Entry.declaration? ⟨n, around⟩).toList ++
      n.children.flatMap (Node.declarations (n :: around)) := by
  unfold declarations
  rw [entries_eq, List.filterMap_cons, List.filterMap_flatMap]
  cases Entry.declaration? ⟨n, around⟩ with
  | none => rfl
  | some d => rfl

theorem SyntaxTree.declarations_ofUnit {unit : CompilationUnit} (hu : unit.Numbered) :
    (SyntaxTree.ofUnit unit).declarations =
      (unit.decls.map Node.decl).flatMap (Node.declarations []) := by
  rw [declarations, entries_ofUnit hu, CompilationUnit.entries, List.filterMap_flatMap,
    List.flatMap_map]
  rfl

/-- Declarators, accessors, statements and expressions. -/
def Node.isPart : Node → Bool
  | .decl _ | .member _ => false
  | _ => true

theorem Node.isPart_of_isCode {n : Node} (h : n.isCode = true) : n.isPart = true := by
  cases n with
  | decl _ | member _ => cases h
  | _ => rfl

theorem FnBody.all_isPart (b : Option FnBody) :
    ((b.map FnBody.nodes).getD []).all Node.isPart = true := by
  cases b with
  | none => rfl
  | some b =>
    apply List.all_eq_true.mpr
    intro c hc
    exact Node.isPart_of_isCode (List.all_eq_true.mp b.all_isCode c hc)

theorem Node.isPart_of_mem_children {n c : Node} (hn : n.isPart = true) (hc : c ∈ n.children) :
    c.isPart = true := by
  cases n with
  | decl _ | member _ => cases hn
  | accessor a => exact List.all_eq_true.mp (FnBody.all_isPart a.body) c hc
  | declarator _ | stmt _ | expr _ => exact isPart_of_isCode (isCode_of_mem_children rfl hc)

theorem Member.isPart_of_mem_children {m : Member} (hm : (Node.member m).typeDecl? = none)
    {c : Node} (hc : c ∈ (Node.member m).children) : c.isPart = true := by
  obtain ⟨id, kind, span⟩ := m
  have parts : kind.nodes.all Node.isPart = true := by
    cases kind with
    | field d => exact all_map (fun _ => rfl) d.declarators
    | method d =>
      rw [MemberKind.nodes, List.all_append, FnBody.all_isPart, Bool.and_true]
      exact all_map (fun _ => rfl) _
    | constructor d =>
      have chain : (((d.chain.map fun c => c.args.map fun a => Node.expr a.expr).getD []).all
          Node.isPart) = true := by
        cases d.chain with
        | none => rfl
        | some c => exact all_map (fun _ => rfl) c.args
      rw [MemberKind.nodes, List.all_append, List.all_append, FnBody.all_isPart, chain,
        Bool.and_true, Bool.and_true]
      exact all_map (fun _ => rfl) _
    | property d =>
      rw [MemberKind.nodes, List.all_append, List.all_append, all_map (fun _ => rfl),
        all_toList_map (fun _ => rfl), all_toList_map (fun _ => rfl)]
      rfl
    | typeDecl d => cases hm
    | enumMember d => exact all_toList_map (fun _ => rfl) d.value
  exact List.all_eq_true.mp parts c hc

theorem Node.field?_of_isPart {n : Node} (h : n.isPart = true) : n.field? = none := by
  cases n with
  | decl _ | member _ => cases h
  | _ => rfl

theorem Node.declaration?_of_isPart {n p : Node} (hn : n.isPart = true) (hp : p.field? = none)
    (around : List Node) : Entry.declaration? ⟨n, p :: around⟩ = none := by
  cases n with
  | decl _ | member _ => cases hn
  | declarator d =>
    rw [Entry.declaration?, List.head?_cons, Option.bind_some, hp]
    rfl
  | accessor _ | stmt _ | expr _ => rfl

/-- A part declares nothing, and nothing is declared below it, unless it is part of a field. -/
theorem Node.declarations_of_isPart {n p : Node} (hn : n.isPart = true) (hp : p.field? = none)
    (around : List Node) : n.declarations (p :: around) = [] := by
  rw [declarations_eq, declaration?_of_isPart hn hp]
  apply List.flatMap_eq_nil_iff.mpr
  intro c hc
  have := sizeOf_lt_of_mem_children hc
  exact declarations_of_isPart (isPart_of_mem_children hn hc) (field?_of_isPart hn) _
termination_by sizeOf n

/-- Members other than fields and types declare themselves at most. -/
theorem Member.declarations_eq {m : Member} (hType : (Node.member m).typeDecl? = none)
    (hField : (Node.member m).field? = none) (around : List Node) :
    (Node.member m).declarations around =
      (Entry.declaration? ⟨.member m, around⟩).toList := by
  have hBelow :
      (Node.member m).children.flatMap (Node.declarations (.member m :: around)) = [] := by
    apply List.flatMap_eq_nil_iff.mpr
    intro c hc
    exact Node.declarations_of_isPart (isPart_of_mem_children hType hc) hField _
  rw [Node.declarations_eq, hBelow, List.append_nil]

/-- A field declares its declarators. -/
theorem FieldDecl.declarations_eq (id : NodeId) (f : FieldDecl) (span : Span) (around : List Node) :
    (Node.member ⟨id, .field f, span⟩).declarations around =
      f.declarators.map fun d => ⟨d.id, d.name, d.nameSpan,
        .field (f.modifiers.contains .constMod), .member ⟨id, .field f, span⟩ :: around⟩ := by
  have hOne : ∀ d : Declarator, (Node.declarator d).declarations
      (.member ⟨id, .field f, span⟩ :: around) = [⟨d.id, d.name, d.nameSpan,
        .field (f.modifiers.contains .constMod), .member ⟨id, .field f, span⟩ :: around⟩] := by
    intro d
    have hBelow : (Node.declarator d).children.flatMap (Node.declarations
        (.declarator d :: .member ⟨id, .field f, span⟩ :: around)) = [] := by
      apply List.flatMap_eq_nil_iff.mpr
      intro c hc
      exact Node.declarations_of_isPart (Node.isPart_of_mem_children rfl hc) rfl _
    rw [Node.declarations_eq, hBelow]
    rfl
  rw [Node.declarations_eq, List.map_eq_flatMap]
  change (f.declarators.map Node.declarator).flatMap _ = _
  rw [List.flatMap_map]
  simp only [hOne]

/-- A type declares itself, in front of what its members declare. -/
theorem Node.declarations_of_typeDecl? {n : Node} {t : TypeDecl Member} (h : n.typeDecl? = some t)
    (around : List Node) :
    n.declarations around = ⟨n.id, t.name, t.nameSpan, .type t.kind, around⟩ ::
      (t.members.map Node.member).flatMap (Node.declarations (n :: around)) := by
  rw [declarations_eq, Entry.declaration?_of_typeDecl? h, (scopeNames_of_typeDecl? h).2]
  rfl

theorem Node.exists_ancestors {n : Node} {around : List Node} {e : Entry}
    (h : e ∈ n.entries around) : ∃ inner, e.ancestors = inner ++ around := by
  rw [entries_eq] at h
  rcases List.mem_cons.mp h with rfl | h
  · exact ⟨[], rfl⟩
  · obtain ⟨c, hc, h⟩ := List.mem_flatMap.mp h
    have := sizeOf_lt_of_mem_children hc
    obtain ⟨inner, hInner⟩ := exists_ancestors h
    exact ⟨inner ++ [n], by rw [hInner, List.append_assoc]; rfl⟩
termination_by sizeOf n

/-- The declarations with the type at a node for their nearest. -/
def directlyIn (owner : NodeId) (l : List Declaration) : List Declaration :=
  l.filter (·.owner? == some owner)

theorem directlyIn_append (owner : NodeId) (a b : List Declaration) :
    directlyIn owner (a ++ b) = directlyIn owner a ++ directlyIn owner b :=
  List.filter_append a b

section Nearest

variable {unit : CompilationUnit} {n x : Node} {inner outer around : List Node} {d : Declaration}

/-- The way to a node is an entry of each node around it. -/
theorem Lineage.mem_entries (h : Lineage unit x (inner ++ n :: outer)) :
    ⟨x, inner ++ n :: outer⟩ ∈ n.entries outer := by
  have hSelf : ⟨n, outer⟩ ∈ n.entries outer := by
    rw [Node.entries_eq]
    exact List.mem_cons_self
  induction inner generalizing x with
  | nil => exact child_mem_entries hSelf h.parent.2
  | cons y inner ih => exact child_mem_entries (ih h.parent.1) h.parent.2

/-- The entries of a node stand together. -/
theorem Lineage.exists_entries (h : Lineage unit n around) : ∃ before after,
    unit.entries = before ++ n.entries around ++ after := by
  induction h with
  | top hd =>
    obtain ⟨front, back, hSplit⟩ := List.append_of_mem hd
    refine ⟨front.flatMap fun d => (Node.decl d).entries [],
      back.flatMap fun d => (Node.decl d).entries [], ?_⟩
    rw [CompilationUnit.entries, hSplit, List.flatMap_append, List.flatMap_cons, ← List.append_assoc]
  | @child n c around h hc ih =>
    obtain ⟨before, after, hEntries⟩ := ih
    obtain ⟨front, back, hSplit⟩ := List.append_of_mem hc
    refine ⟨before ++ ⟨n, around⟩ :: front.flatMap (Node.entries (n :: around)),
      back.flatMap (Node.entries (n :: around)) ++ after, ?_⟩
    rw [hEntries, Node.entries_eq around n, hSplit, List.flatMap_append, List.flatMap_cons]
    simp only [List.append_assoc, List.cons_append]

/-- Only the way through a type leads to what has the type for its nearest. -/
theorem Lineage.of_owner? (hu : unit.Numbered) (h : Lineage unit n outer)
    (hd : Lineage unit x d.around) (hOwner : d.owner? = some n.id) :
    ∃ inner, d.around = inner ++ n :: outer ∧ ∀ y ∈ inner, y.typeDecl? = none := by
  obtain ⟨y, hFind, hId⟩ := Option.map_eq_some_iff.mp hOwner
  obtain ⟨_, inner, outer', hAround, hInner⟩ := List.find?_eq_some_iff_append.mp hFind
  rw [hAround] at hd
  obtain ⟨rfl, rfl⟩ := hd.outward.1.unique hu h hId
  refine ⟨inner, hAround, ?_⟩
  intro z hz
  simpa using hInner z hz

theorem directlyIn_elsewhere (hu : unit.Numbered) (h : Lineage unit n around) {l : List Entry}
    (hl : l ⊆ unit.entries) (hDisjoint : List.Disjoint l (n.entries around)) :
    directlyIn n.id (l.filterMap Entry.declaration?) = [] := by
  apply List.filter_eq_nil_iff.mpr
  intro d hd hOwner
  obtain ⟨⟨x, ancestors⟩, he, hd⟩ := List.mem_filterMap.mp hd
  obtain ⟨_, rfl, _⟩ := Entry.of_declaration? hd
  have hx := Lineage.mem_entries_iff.mp (hl he)
  obtain ⟨inner, hAround, _⟩ := h.of_owner? hu hx (beq_iff_eq.mp hOwner)
  rw [hAround] at hx he
  exact hDisjoint he hx.mem_entries

/-- What has a type for its nearest is declared below the type. -/
theorem directlyIn_declarations (hu : unit.Numbered) (h : Lineage unit n around) :
    directlyIn n.id (SyntaxTree.ofUnit unit).declarations =
      directlyIn n.id (n.declarations around) := by
  obtain ⟨before, after, hEntries⟩ := h.exists_entries
  have hNodup := hu
  rw [CompilationUnit.Numbered, ← unit.map_node_entries, List.map_map, hEntries] at hNodup
  obtain ⟨hFront, _, hBehind⟩ := List.nodup_append'.mp (List.Nodup.of_map _ hNodup)
  have hBefore := directlyIn_elsewhere hu h (l := before)
    (fun e he => hEntries ▸ List.mem_append_left _ (List.mem_append_left _ he))
    (List.nodup_append'.mp hFront).2.2
  have hAfter := directlyIn_elsewhere hu h (l := after)
    (fun e he => hEntries ▸ List.mem_append_right _ he)
    (fun e he hMid => hBehind (List.mem_append_right _ hMid) he)
  rw [SyntaxTree.declarations, SyntaxTree.entries_ofUnit hu, hEntries, List.filterMap_append,
    List.filterMap_append, directlyIn_append, directlyIn_append, hBefore, hAfter,
    List.append_nil, List.nil_append]
  rfl

/-- What is declared below a type does not have a type around it for its nearest. -/
theorem directlyIn_outer (hu : unit.Numbered) {t : Node} (hType : n.typeDecl?.isSome)
    (h : Lineage unit n (t :: outer)) :
    directlyIn t.id (n.children.flatMap (Node.declarations (n :: t :: outer))) = [] := by
  apply List.filter_eq_nil_iff.mpr
  intro d hd hOwner
  obtain ⟨c, hc, hd⟩ := List.mem_flatMap.mp hd
  obtain ⟨⟨x, ancestors⟩, he, hd⟩ := List.mem_filterMap.mp hd
  obtain ⟨_, rfl, _⟩ := Entry.of_declaration? hd
  have hx := (h.child hc).of_mem_entries he
  obtain ⟨inner, hInner⟩ := Node.exists_ancestors he
  obtain ⟨nearer, hNearer, hNone⟩ := h.parent.1.of_owner? hu hx (beq_iff_eq.mp hOwner)
  have hSame : inner ++ [n] = nearer := by
    rw [← List.append_left_inj (t :: outer), List.append_assoc, ← hNearer]
    exact hInner.symm
  have hn := hNone n (hSame ▸ List.mem_append_right _ (List.mem_singleton_self n))
  rw [hn] at hType
  cases hType

/-- No type is declared inside itself. -/
theorem owner?_ne_self (hu : unit.Numbered) (h : Lineage unit n d.around) :
    d.owner? ≠ some n.id := by
  intro hOwner
  obtain ⟨inner, hAround, _⟩ := h.of_owner? hu h hOwner
  have hLength := congrArg List.length hAround
  rw [List.length_append, List.length_cons] at hLength
  omega

end Nearest

/-- The place of what a node declares. -/
def placeOf (all : List Declaration) (node : NodeId) : SymbolId := (all.map (·.node)).idxOf node

def DeclaredKind.symbolKind (members : List SymbolId) (owner : SymbolId) : DeclaredKind → SymbolKind
  | .type kind => .type kind members
  | .field isConst => .field owner isConst
  | .method isAsync => .method owner isAsync
  | .constructor => .constructor owner

namespace Declaration

variable (all : List Declaration) (d : Declaration)

/-- The places of the declarations directly inside a type. -/
def memberPlaces : List SymbolId := (directlyIn d.node all).map fun m => placeOf all m.node

def ownerPlace : SymbolId := d.owner?.elim all.length (placeOf all)

/-- The symbol of one of the declarations `all`. -/
def symbol : Symbol :=
  ⟨placeOf all d.node, d.name, d.qualifiedName,
    d.kind.symbolKind (d.memberPlaces all) (d.ownerPlace all), d.node, d.nameSpan⟩

theorem isType_symbol : (d.symbol all).isType = d.isType := by
  unfold symbol Symbol.isType isType
  cases d.kind <;> rfl

theorem qualifiedName_eq (h : scopeOf d.around ≠ []) :
    d.qualifiedName = String.intercalate "." (scopeOf d.around) ++ "." ++ d.name := by
  rw [qualifiedName, String.intercalate_append_of_ne_nil h (List.cons_ne_nil _ _),
    String.intercalate_singleton]

end Declaration

/-- What is collected for a part of the declarations inside the type at `owner`. -/
def Collected.ofDeclarations (all : List Declaration) (owner : NodeId) (l : List Declaration) :
    Collected :=
  ⟨l.map (·.symbol all), (directlyIn owner l).map fun d => placeOf all d.node⟩

/-- Declarations that stand side by side among all of them, from a place on. -/
def StandFrom (all : List Declaration) (next : SymbolId) (l : List Declaration) : Prop :=
  l.map (fun d => placeOf all d.node) = List.range' next l.length

section Places

variable {all a b l : List Declaration} {d : Declaration} {next : SymbolId} {owner : NodeId}

theorem Collected.ofDeclarations_append : ofDeclarations all owner (a ++ b) =
    (ofDeclarations all owner a).append (ofDeclarations all owner b) := by
  simp only [ofDeclarations, append, directlyIn_append, List.map_append]

theorem Collected.ofDeclarations_cons : ofDeclarations all owner (d :: l) =
    (ofDeclarations all owner [d]).append (ofDeclarations all owner l) :=
  ofDeclarations_append (a := [d])

theorem StandFrom.append (h : StandFrom all next (a ++ b)) :
    StandFrom all next a ∧ StandFrom all (next + a.length) b := by
  unfold StandFrom at h ⊢
  rw [List.map_append, List.length_append, ← List.range'_append_1] at h
  exact List.append_inj h (by rw [List.length_map, List.length_range'])

theorem StandFrom.cons (h : StandFrom all next (d :: l)) :
    placeOf all d.node = next ∧ StandFrom all (next + 1) l := by
  obtain ⟨hOne, hRest⟩ := StandFrom.append (a := [d]) h
  exact ⟨List.singleton_inj.mp hOne, hRest⟩

theorem Collected.ofDeclarations_singleton (all : List Declaration) (d : Declaration)
    (h : d.owner? = some owner) :
    ofDeclarations all owner [d] = ⟨[d.symbol all], [placeOf all d.node]⟩ := by
  unfold ofDeclarations directlyIn
  rw [List.filter_cons, h, beq_self_eq_true]
  rfl

theorem placeOf_getElem (hNodup : (all.map (·.node)).Nodup) {i : Nat} (hi : i < all.length) :
    placeOf all all[i].node = i := by
  have hPlace := hNodup.idxOf_getElem i (by rwa [List.length_map])
  rwa [List.getElem_map] at hPlace

theorem standFrom_zero (hNodup : (all.map (·.node)).Nodup) : StandFrom all 0 all := by
  apply List.ext_getElem
  · rw [List.length_map, List.length_range']
  · intro i h _
    rw [List.length_map] at h
    rw [List.getElem_range', List.getElem_map, placeOf_getElem hNodup h, Nat.zero_add, Nat.one_mul]

end Places

theorem nodup_declarations {unit : CompilationUnit} (hu : unit.Numbered) :
    ((SyntaxTree.ofUnit unit).declarations.map (·.node)).Nodup := by
  rw [List.Nodup, List.pairwise_map, SyntaxTree.declarations, SyntaxTree.entries_ofUnit hu,
    List.pairwise_filterMap]
  rw [CompilationUnit.Numbered, ← unit.map_node_entries, List.map_map, List.Nodup,
    List.pairwise_map] at hu
  apply hu.imp
  intro e e' hNe d hd d' hd'
  rw [(Entry.of_declaration? hd).1, (Entry.of_declaration? hd').1]
  exact hNe

/-! ## The symbols list the declarations

The induction is on the syntax. `StandFrom` says at which number the symbols of a part start, and
`Lineage` that the members collected for a type are all that the tree has for it.
-/

section Collecting

variable {all : List Declaration} {d : Declaration} {owner : NodeId} {next : SymbolId}

theorem Declaration.ownerPlace_eq (d : Declaration) (h : d.owner? = some owner) :
    d.ownerPlace all = placeOf all owner := by
  rw [ownerPlace, h]
  rfl

/-- A member that declares itself alone. -/
theorem Collected.ofDeclarations_member (d : Declaration) (hOwner : d.owner? = some owner)
    (hScope : scopeOf d.around ≠ []) (hPlace : placeOf all d.node = next) :
    ofDeclarations all owner [d] =
      ⟨[⟨next, d.name, String.intercalate "." (scopeOf d.around) ++ "." ++ d.name,
        d.kind.symbolKind (d.memberPlaces all) (placeOf all owner), d.node, d.nameSpan⟩],
        [next]⟩ := by
  rw [ofDeclarations_singleton all d hOwner, Declaration.symbol, hPlace, d.qualifiedName_eq hScope,
    d.ownerPlace_eq hOwner]

theorem declaratorSymbols_eq {around : List Node} (isConst : Bool)
    (hOwner : nearestType? around = some owner) (hScope : scopeOf around ≠ [])
    (ds : List Declarator) (hStand : StandFrom all next
      (ds.map fun d => ⟨d.id, d.name, d.nameSpan, .field isConst, around⟩)) :
    declaratorSymbols (placeOf all owner) (String.intercalate "." (scopeOf around)) isConst next
        ds =
      .ofDeclarations all owner
        (ds.map fun d => ⟨d.id, d.name, d.nameSpan, .field isConst, around⟩) := by
  induction ds generalizing next with
  | nil => rfl
  | cons d ds ih =>
    obtain ⟨hPlace, hRest⟩ := hStand.cons
    have hOne := Collected.ofDeclarations_member
      ⟨d.id, d.name, d.nameSpan, .field isConst, around⟩ hOwner hScope hPlace
    rw [List.map_cons, Collected.ofDeclarations_cons, hOne, declaratorSymbols, ih hRest]
    rfl

variable {unit : CompilationUnit} {n t : Node} {around outer : List Node}

theorem scopeOf_ne_nil (hType : t.typeDecl?.isSome) : scopeOf (t :: outer) ≠ [] := by
  obtain ⟨decl, hDecl⟩ := Option.isSome_iff_exists.mp hType
  rw [scopeOf_cons, (Node.scopeNames_of_typeDecl? hDecl).1]
  exact List.append_ne_nil_of_right_ne_nil _ (List.cons_ne_nil _ _)

/-- A type at the top and a type inside another one are collected alike. -/
theorem symbols_typeDecl (hu : unit.Numbered) (hAll : (SyntaxTree.ofUnit unit).declarations = all)
    {decl : TypeDecl Member} (hDecl : n.typeDecl? = some decl) (h : Lineage unit n around)
    {next : SymbolId} (hStand : StandFrom all next (n.declarations around)) (first : SymbolId)
    (span : Span)
    (members : ∀ next, StandFrom all next
        ((decl.members.map Node.member).flatMap (Node.declarations (n :: around))) →
      memberSymbols (placeOf all n.id) (scopeOf (n :: around)) next decl.members =
        .ofDeclarations all n.id
          ((decl.members.map Node.member).flatMap (Node.declarations (n :: around)))) :
    (⟨n.id, .typeDecl decl, span⟩ : Member).symbols first (scopeOf around) next =
      ⟨(n.declarations around).map (·.symbol all), [next]⟩ := by
  have hDirect : directlyIn n.id all = directlyIn n.id
      ((decl.members.map Node.member).flatMap (Node.declarations (n :: around))) := by
    rw [← hAll, directlyIn_declarations hu h, Node.declarations_of_typeDecl? hDecl]
    apply List.filter_cons_of_neg
    rw [beq_iff_eq]
    exact owner?_ne_self hu h
  rw [Node.declarations_of_typeDecl? hDecl] at hStand ⊢
  obtain ⟨hPlace, hInner⟩ := hStand.cons
  have hMembers := members _ hInner
  rw [scopeOf_cons, (Node.scopeNames_of_typeDecl? hDecl).1, hPlace] at hMembers
  obtain ⟨kind, name, nameSpan, modifiers, typeParams, bases, ms⟩ := decl
  rw [Member.symbols, hMembers, List.map_cons, Declaration.symbol, Declaration.memberPlaces, hPlace,
    hDirect]
  rfl

/-- Of what a type inside another one declares, the type itself belongs to the outer one. -/
theorem Collected.ofDeclarations_typeDecl (hu : unit.Numbered) {decl : TypeDecl Member}
    (hDecl : n.typeDecl? = some decl) (hType : t.typeDecl?.isSome)
    (h : Lineage unit n (t :: outer)) {next : SymbolId}
    (hStand : StandFrom all next (n.declarations (t :: outer))) :
    ofDeclarations all t.id (n.declarations (t :: outer)) =
      ⟨(n.declarations (t :: outer)).map (·.symbol all), [next]⟩ := by
  have hOuter := directlyIn_outer hu (Option.isSome_of_eq_some hDecl) h
  rw [(Node.scopeNames_of_typeDecl? hDecl).2] at hOuter
  rw [Node.declarations_of_typeDecl? hDecl] at hStand ⊢
  obtain ⟨hPlace, _⟩ := hStand.cons
  have hOne := ofDeclarations_singleton all
    ⟨n.id, decl.name, decl.nameSpan, .type decl.kind, t :: outer⟩
    (nearestType?_cons hType outer)
  rw [ofDeclarations_cons, hOne, hPlace, ofDeclarations, hOuter]
  rfl

mutual

theorem symbols_member (hu : unit.Numbered) (hAll : (SyntaxTree.ofUnit unit).declarations = all)
    (m : Member) {t : Node} {outer : List Node} (hType : t.typeDecl?.isSome)
    (h : Lineage unit (.member m) (t :: outer)) (next : SymbolId)
    (hStand : StandFrom all next ((Node.member m).declarations (t :: outer))) :
    m.symbols (placeOf all t.id) (scopeOf (t :: outer)) next =
      .ofDeclarations all t.id ((Node.member m).declarations (t :: outer)) := by
  obtain ⟨id, kind, span⟩ := m
  cases kind with
  | field f =>
    rw [FieldDecl.declarations_eq] at hStand ⊢
    have hScope : scopeOf (.member ⟨id, .field f, span⟩ :: t :: outer) = scopeOf (t :: outer) := by
      rw [scopeOf_cons]
      exact List.append_nil _
    have hNone : ∀ n ∈ [Node.member ⟨id, .field f, span⟩], n.typeDecl? = none := by
      simp [Node.typeDecl?]
    rw [Member.symbols, ← hScope]
    apply declaratorSymbols_eq _ _ _ _ hStand
    · exact (nearestType?_append hNone _).trans (nearestType?_cons hType outer)
    · rw [hScope]
      exact scopeOf_ne_nil hType
  | method d =>
    rw [Member.declarations_eq rfl rfl] at hStand ⊢
    exact (Collected.ofDeclarations_member ⟨id, d.name, d.nameSpan, _, t :: outer⟩
      (nearestType?_cons hType outer) (scopeOf_ne_nil hType) hStand.cons.1).symm
  | constructor d =>
    rw [Member.declarations_eq rfl rfl] at hStand ⊢
    exact (Collected.ofDeclarations_member ⟨id, d.name, d.nameSpan, .constructor, t :: outer⟩
      (nearestType?_cons hType outer) (scopeOf_ne_nil hType) hStand.cons.1).symm
  | typeDecl decl =>
    -- The record is taken apart for the recursion to see that `members` is a part of `m`.
    obtain ⟨kind, name, nameSpan, modifiers, typeParams, bases, members⟩ := decl
    rw [Collected.ofDeclarations_typeDecl hu rfl hType h hStand]
    exact symbols_typeDecl
      (n := .member
        ⟨id, .typeDecl ⟨kind, name, nameSpan, modifiers, typeParams, bases, members⟩, span⟩)
      hu hAll rfl h hStand _ span fun next hInner => symbols_members hu hAll members rfl
        (fun m hm => h.child (List.mem_map_of_mem hm)) next hInner
  | property d | enumMember d =>
    rw [Member.declarations_eq rfl rfl]
    rfl

theorem symbols_members (hu : unit.Numbered) (hAll : (SyntaxTree.ofUnit unit).declarations = all)
    (ms : List Member) {t : Node} {outer : List Node} (hType : t.typeDecl?.isSome)
    (h : ∀ m ∈ ms, Lineage unit (.member m) (t :: outer)) (next : SymbolId)
    (hStand : StandFrom all next
      ((ms.map Node.member).flatMap (Node.declarations (t :: outer)))) :
    memberSymbols (placeOf all t.id) (scopeOf (t :: outer)) next ms =
      .ofDeclarations all t.id ((ms.map Node.member).flatMap (Node.declarations (t :: outer))) := by
  match ms with
  | [] => rfl
  | m :: ms =>
    rw [List.map_cons, List.flatMap_cons] at hStand ⊢
    obtain ⟨hFirst, hRest⟩ := hStand.append
    have first := symbols_member hu hAll m hType (h m List.mem_cons_self) next hFirst
    have rest := symbols_members hu hAll ms hType (fun m hm => h m (List.mem_cons_of_mem _ hm)) _
      hRest
    rw [← List.length_map (fun d => d.symbol all)] at rest
    rw [memberSymbols, Collected.ofDeclarations_append, first, ← rest]
    rfl

end

mutual

theorem symbols_decl (hu : unit.Numbered) (hAll : (SyntaxTree.ofUnit unit).declarations = all)
    (d : Decl) {around : List Node} (h : Lineage unit (.decl d) around) (next : SymbolId)
    (hStand : StandFrom all next ((Node.decl d).declarations around)) :
    d.symbols (scopeOf around) next =
      ((Node.decl d).declarations around).map (·.symbol all) := by
  obtain ⟨id, kind, span⟩ := d
  cases kind with
  | usingDecl directive =>
    rw [Node.declarations_eq]
    rfl
  | namespaceDecl n =>
    obtain ⟨name, decls, fileScoped⟩ := n
    rw [Node.declarations_eq] at hStand ⊢
    have inner := symbols_decls hu hAll decls
      (fun d hd => h.child (c := .decl d) (List.mem_map_of_mem hd)) next hStand
    rw [scopeOf_cons] at inner
    exact inner
  | typeDecl t =>
    have hType := symbols_typeDecl (n := .decl ⟨id, .typeDecl t, span⟩) hu hAll rfl h hStand next
      span fun next hInner => symbols_members hu hAll t.members rfl
        (fun m hm => h.child (c := .member m) (List.mem_map_of_mem hm)) next hInner
    exact congrArg Collected.symbols hType

theorem symbols_decls (hu : unit.Numbered) (hAll : (SyntaxTree.ofUnit unit).declarations = all)
    (ds : List Decl) {around : List Node} (h : ∀ d ∈ ds, Lineage unit (.decl d) around)
    (next : SymbolId)
    (hStand : StandFrom all next ((ds.map Node.decl).flatMap (Node.declarations around))) :
    declSymbols (scopeOf around) next ds =
      ((ds.map Node.decl).flatMap (Node.declarations around)).map (·.symbol all) := by
  match ds with
  | [] => rfl
  | d :: ds =>
    rw [List.map_cons, List.flatMap_cons] at hStand ⊢
    obtain ⟨hFirst, hRest⟩ := hStand.append
    have first := symbols_decl hu hAll d (h d List.mem_cons_self) next hFirst
    have rest := symbols_decls hu hAll ds (fun d hd => h d (List.mem_cons_of_mem _ hd)) _ hRest
    rw [declSymbols, List.map_append, first, List.length_map, rest]

end

/-- The symbols of a unit are those of its declarations, in the same order. -/
theorem symbols_ofUnit (hu : unit.Numbered) : (SymbolTable.ofUnit unit).symbols =
    (SyntaxTree.ofUnit unit).declarations.map
      (·.symbol (SyntaxTree.ofUnit unit).declarations) := by
  have hStand := standFrom_zero (nodup_declarations hu)
  have hDecls := symbols_decls hu rfl unit.decls (fun d hd => .top hd) 0
    ((SyntaxTree.declarations_ofUnit hu).symm ▸ hStand)
  rw [← SyntaxTree.declarations_ofUnit hu] at hDecls
  rw [SymbolTable.ofUnit_eq, SymbolTable.symbols_extend]
  exact hDecls

end Collecting

end Stackable
