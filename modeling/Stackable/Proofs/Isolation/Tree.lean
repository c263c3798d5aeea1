import Stackable.Proofs.Symbol.Collection
import Stackable.Proofs.Syntax.Navigation

/-!
# Another body for one function

A change puts another body in the place of the one that a method or constructor has. It changes
no number, no symbol, and no node outside the function but the types and namespaces around it.
`Outside` says that a node is reached without going through the function: there the tree of the
changed unit is the tree of the unit itself.
-/

set_option autoImplicit false

namespace Stackable

/-- The method or constructor with the number gets the body. -/
structure BodyChange where
  target : NodeId
  body : Option FnBody

namespace BodyChange

variable (c : BodyChange)

def methodDecl (id : NodeId) (d : MethodDecl) : MethodDecl :=
  if id = c.target then { d with body := c.body } else d

def constructorDecl (id : NodeId) (d : ConstructorDecl) : ConstructorDecl :=
  if id = c.target then { d with body := c.body } else d

mutual

def member : Member → Member
  | ⟨id, kind, span⟩ => ⟨id, memberKind id kind, span⟩

def memberKind (id : NodeId) : MemberKind Member → MemberKind Member
  | .method decl => .method (c.methodDecl id decl)
  | .constructor decl => .constructor (c.constructorDecl id decl)
  | .typeDecl decl => .typeDecl (typeDecl decl)
  | .field decl => .field decl
  | .property decl => .property decl
  | .enumMember decl => .enumMember decl

def typeDecl : TypeDecl Member → TypeDecl Member
  | ⟨kind, name, nameSpan, modifiers, typeParams, bases, list⟩ =>
    ⟨kind, name, nameSpan, modifiers, typeParams, bases, members list⟩

def members : List Member → List Member
  | [] => []
  | m :: rest => member m :: members rest

end

mutual

def decl : Decl → Decl
  | ⟨id, kind, span⟩ => ⟨id, declKind kind, span⟩

def declKind : DeclKind Decl → DeclKind Decl
  | .usingDecl directive => .usingDecl directive
  | .namespaceDecl d => .namespaceDecl (namespaceDecl d)
  | .typeDecl d => .typeDecl (c.typeDecl d)

def namespaceDecl : NamespaceDecl Decl → NamespaceDecl Decl
  | ⟨name, list, fileScoped⟩ => ⟨name, decls list, fileScoped⟩

def decls : List Decl → List Decl
  | [] => []
  | d :: rest => decl d :: decls rest

end

def unit (u : CompilationUnit) : CompilationUnit := ⟨u.decls.map c.decl, u.span⟩

/-- Accessors and code have no function below them. -/
def node : Node → Node
  | .decl d => .decl (c.decl d)
  | .member m => .member (c.member m)
  | .declarator d => .declarator d
  | .accessor a => .accessor a
  | .stmt s => .stmt s
  | .expr e => .expr e

@[simp] theorem members_eq (l : List Member) : c.members l = l.map c.member := by
  induction l with
  | nil => rfl
  | cons m rest ih => exact congrArg _ ih

@[simp] theorem decls_eq (l : List Decl) : c.decls l = l.map c.decl := by
  induction l with
  | nil => rfl
  | cons d rest ih => exact congrArg _ ih

@[simp] theorem typeDecl_members (t : TypeDecl Member) :
    (c.typeDecl t).members = t.members.map c.member := by
  cases t
  exact c.members_eq _

@[simp] theorem namespaceDecl_decls (n : NamespaceDecl Decl) :
    (c.namespaceDecl n).decls = n.decls.map c.decl := by
  cases n
  exact c.decls_eq _

@[simp] theorem node_id (n : Node) : (c.node n).id = n.id := by
  cases n with
  | decl d => cases d; rfl
  | member m => cases m; rfl
  | declarator | accessor | stmt | expr => rfl

theorem node_of_isCode {n : Node} (h : n.isCode = true) : c.node n = n := by
  cases n with
  | decl | member | accessor => cases h
  | declarator | stmt | expr => rfl

theorem typeDecl?_node (n : Node) : (c.node n).typeDecl? = n.typeDecl?.map c.typeDecl := by
  cases n with
  | decl d =>
    obtain ⟨id, kind, span⟩ := d
    cases kind <;> rfl
  | member m =>
    obtain ⟨id, kind, span⟩ := m
    cases kind <;> rfl
  | declarator | accessor | stmt | expr => rfl

theorem isSome_function?_node (n : Node) : (c.node n).function?.isSome = n.function?.isSome := by
  cases n with
  | member m =>
    obtain ⟨id, kind, span⟩ := m
    cases kind <;> rfl
  | decl | declarator | accessor | stmt | expr => rfl

end BodyChange

/-- The node is not the method or constructor with the number. -/
def Node.IsNot (id : NodeId) (n : Node) : Prop := n.function?.isSome → n.id ≠ id

namespace BodyChange

variable (c : BodyChange)

theorem isNot_node {id : NodeId} {n : Node} : (c.node n).IsNot id ↔ n.IsNot id := by
  unfold Node.IsNot
  rw [isSome_function?_node, node_id]

/-- Another function keeps all it has. -/
theorem member_of_function {m : Member} (hf : m.function?.isSome)
    (h : (Node.member m).IsNot c.target) : c.member m = m := by
  have hId : m.id ≠ c.target := h hf
  obtain ⟨id, kind, span⟩ := m
  cases kind with
  | method d => simp only [member, memberKind, methodDecl, if_neg hId]
  | constructor d => simp only [member, memberKind, constructorDecl, if_neg hId]
  | _ => cases hf

theorem function?_node {n : Node} (h : n.IsNot c.target) : (c.node n).function? = n.function? := by
  cases n with
  | member m =>
    by_cases hf : m.function?.isSome
    · rw [node, c.member_of_function hf h]
    · have hNone := c.isSome_function?_node (.member m)
      rw [Bool.not_eq_true, Option.isSome_eq_false_iff, Option.isNone_iff_eq_none] at hf
      rw [show (Node.member m).function? = none from hf] at hNone ⊢
      simpa using hNone
  | decl | declarator | accessor | stmt | expr => rfl

theorem map_node_of_isCode {l : List Node} (h : ∀ x ∈ l, x.isCode = true) : l.map c.node = l := by
  have hSame : ∀ x ∈ l, c.node x = id x := fun x hx => c.node_of_isCode (h x hx)
  rw [List.map_congr_left hSame, List.map_id]

theorem children_member {m : Member} (h : (Node.member m).IsNot c.target) :
    (Node.member (c.member m)).children = (Node.member m).children.map c.node := by
  have declarators : c.node ∘ Node.declarator = Node.declarator := rfl
  have accessors : c.node ∘ Node.accessor = Node.accessor := rfl
  by_cases hf : m.function?.isSome
  · rw [c.member_of_function hf h, map_node_of_isCode]
    intro x hx
    exact m.isCode_of_mem_descendants hf (Node.mem_descendants_of_child hx)
  · obtain ⟨id, kind, span⟩ := m
    cases kind with
    | method | constructor => exact absurd rfl hf
    | typeDecl d => simp [member, memberKind, Node.children, MemberKind.nodes, node]
    | field d => simp [member, memberKind, Node.children, MemberKind.nodes, declarators]
    | enumMember d =>
      cases hValue : d.value <;> simp [member, memberKind, Node.children, MemberKind.nodes, hValue, node]
    | property d =>
      simp only [member, memberKind, Node.children, MemberKind.nodes, List.map_append, List.map_map,
        accessors]
      cases d.exprBody <;> cases d.init <;> rfl

/-- Only the function itself gets other children. -/
theorem children_node {n : Node} (h : n.IsNot c.target) :
    (c.node n).children = n.children.map c.node := by
  have code : ∀ n : Node, n.isCode = true → n.children = n.children.map c.node := by
    intro n hn
    rw [map_node_of_isCode]
    exact fun x hx => Node.isCode_of_mem_children hn hx
  cases n with
  | decl d =>
    obtain ⟨id, kind, span⟩ := d
    cases kind <;> simp [node, decl, declKind, Node.children]
  | member m => exact c.children_member h
  | accessor a =>
    cases hBody : a.body with
    | none => simp [node, Node.children, hBody]
    | some b =>
      simp only [node, Node.children, hBody, Option.map_some, Option.getD_some]
      rw [map_node_of_isCode]
      exact List.all_eq_true.mp b.all_isCode
  | declarator d => exact code (.declarator d) rfl
  | stmt s => exact code (.stmt s) rfl
  | expr e => exact code (.expr e) rfl

end BodyChange

/-- A way down to a node that does not lead through the method or constructor with the number. -/
structure Outside (unit : CompilationUnit) (id : NodeId) (n : Node) (around : List Node) : Prop where
  lineage : Lineage unit n around
  isNot : ∀ m ∈ around, m.IsNot id

theorem Node.isNot_of_isCode {id : NodeId} {n : Node} (h : n.isCode = true) : n.IsNot id := by
  intro hf
  cases n with
  | decl | member | accessor => cases h
  | declarator | stmt | expr => cases hf

theorem Node.isNot_of_typeDecl? {id : NodeId} {n : Node} (h : n.typeDecl?.isSome) : n.IsNot id := by
  intro hf
  cases n with
  | member m =>
    obtain ⟨id, kind, span⟩ := m
    cases kind with
    | typeDecl => cases hf
    | _ => cases h
  | decl | declarator | accessor | stmt | expr => cases hf

namespace Outside

variable {unit : CompilationUnit} {id : NodeId} {n m x : Node} {around inner outer : List Node}

theorem child (h : Outside unit id n around) (hn : n.IsNot id) (hx : x ∈ n.children) :
    Outside unit id x (n :: around) := by
  refine ⟨h.lineage.child hx, fun m hm => ?_⟩
  rcases List.mem_cons.mp hm with rfl | hm
  · exact hn
  · exact h.isNot m hm

theorem outward (h : Outside unit id n (inner ++ m :: outer)) :
    Outside unit id m outer ∧ m.IsNot id :=
  ⟨⟨h.lineage.outward.1, fun x hx => h.isNot x (by simp [hx])⟩, h.isNot m (by simp)⟩

/-- Below another function there is nothing but code, and no function. -/
theorem below {f : Member} (h : Outside unit id (.member f) outer) (hf : f.function?.isSome)
    (hn : (Node.member f).IsNot id) (hx : x ∈ (Node.member f).descendants) :
    ∃ around, Outside unit id x around := by
  obtain ⟨inner, hWay⟩ := h.lineage.of_mem_descendants hx
  refine ⟨_, hWay, fun m hm => ?_⟩
  rcases List.mem_append.mp hm with hm | hm
  · exact Node.isNot_of_isCode (f.isCode_of_mem_descendants hf (hWay.mem_descend hm))
  · rcases List.mem_cons.mp hm with rfl | hm
    · exact hn
    · exact h.isNot m hm

/-- No type is declared in a function. -/
theorem of_typeDecl? (h : Lineage unit n around) (hn : n.typeDecl?.isSome) :
    Outside unit id n around := by
  refine ⟨h, fun m hm hf => ?_⟩
  obtain ⟨inner, outer, rfl⟩ := List.append_of_mem hm
  cases m with
  | member f =>
    have hCode := f.isCode_of_mem_descendants hf h.outward.2
    cases n with
    | decl | member | accessor => cases hCode
    | declarator | stmt | expr => cases hn
  | _ => cases hf

end Outside

namespace BodyChange

variable {u : CompilationUnit} {c : BodyChange} {n : Node} {around : List Node}

/-- A way that avoids the function is still there after the change. -/
theorem outside_unit (h : Outside u c.target n around) :
    Outside (c.unit u) c.target (c.node n) (around.map c.node) := by
  obtain ⟨hWay, hNot⟩ := h
  constructor
  · induction hWay with
    | top hd => exact .top (List.mem_map_of_mem hd)
    | @child n x around _ hx ih =>
      have hn := hNot n List.mem_cons_self
      refine .child (ih fun m hm => hNot m (List.mem_cons_of_mem _ hm)) ?_
      rw [c.children_node hn]
      exact List.mem_map_of_mem hx
  · intro m hm
    obtain ⟨x, hx, rfl⟩ := List.mem_map.mp hm
    exact c.isNot_node.mpr (hNot x hx)

/-- And there are no others. -/
theorem exists_outside (h : Outside (c.unit u) c.target n around) :
    ∃ m outer, Outside u c.target m outer ∧ n = c.node m ∧ around = outer.map c.node := by
  obtain ⟨hWay, hNot⟩ := h
  induction hWay with
  | top hd =>
    obtain ⟨d, hMem, rfl⟩ := List.mem_map.mp hd
    exact ⟨.decl d, [], ⟨.top hMem, by simp⟩, rfl, rfl⟩
  | @child n x around _ hx ih =>
    obtain ⟨m, outer, hm, rfl, rfl⟩ := ih fun y hy => hNot y (List.mem_cons_of_mem _ hy)
    have hIsNot := c.isNot_node.mp (hNot _ List.mem_cons_self)
    rw [c.children_node hIsNot] at hx
    obtain ⟨y, hy, rfl⟩ := List.mem_map.mp hx
    exact ⟨y, m :: outer, hm.child hIsNot hy, rfl, rfl⟩

mutual

theorem symbols_member (c : BodyChange) (owner : SymbolId) (path : List String) (next : SymbolId)
    (m : Member) : (c.member m).symbols owner path next = m.symbols owner path next := by
  obtain ⟨id, kind, span⟩ := m
  cases kind with
  | field d => rfl
  | property d => rfl
  | enumMember d => rfl
  | method d =>
    simp only [member, memberKind, methodDecl, Member.symbols]
    split <;> rfl
  | constructor d =>
    simp only [member, memberKind, constructorDecl, Member.symbols]
    split <;> rfl
  | typeDecl d =>
    obtain ⟨kind, name, nameSpan, modifiers, typeParams, bases, members⟩ := d
    have hMembers := symbols_members c next (path ++ [name]) (next + 1) members
    simp only [member, memberKind, typeDecl, members_eq, Member.symbols, hMembers]

theorem symbols_members (c : BodyChange) (owner : SymbolId) (path : List String) (next : SymbolId)
    (ms : List Member) :
    memberSymbols owner path next (ms.map c.member) = memberSymbols owner path next ms := by
  match ms with
  | [] => rfl
  | m :: ms =>
    rw [List.map_cons, memberSymbols, memberSymbols, symbols_member, symbols_members]

end

mutual

theorem symbols_decl (c : BodyChange) (path : List String) (next : SymbolId) (d : Decl) :
    (c.decl d).symbols path next = d.symbols path next := by
  obtain ⟨id, kind, span⟩ := d
  cases kind with
  | usingDecl directive => rfl
  | namespaceDecl n =>
    obtain ⟨name, decls, fileScoped⟩ := n
    simp only [decl, declKind, namespaceDecl, decls_eq, Decl.symbols]
    exact symbols_decls c (path ++ name) next decls
  | typeDecl t =>
    exact congrArg Collected.symbols (symbols_member c next path next ⟨id, .typeDecl t, span⟩)

theorem symbols_decls (c : BodyChange) (path : List String) (next : SymbolId) (ds : List Decl) :
    declSymbols path next (ds.map c.decl) = declSymbols path next ds := by
  match ds with
  | [] => rfl
  | d :: ds => rw [List.map_cons, declSymbols, declSymbols, symbols_decl, symbols_decls]

end

/-- Bodies declare no symbols. -/
theorem symbols_unit (c : BodyChange) (u : CompilationUnit) :
    SymbolTable.ofUnit (c.unit u) = SymbolTable.ofUnit u := by
  rw [SymbolTable.ofUnit_eq, SymbolTable.ofUnit_eq]
  exact congrArg SymbolTable.empty.extend (symbols_decls c [] 0 u.decls)

end BodyChange

end Stackable
