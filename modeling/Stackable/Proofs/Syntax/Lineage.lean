import Stackable.Proofs.Syntax.Traversal

/-!
# Ways down to a node

`Lineage unit n around` says that `n` is reached from the top of a unit by going from nodes to
their children, through `around`. The entries of a unit are exactly these ways. Where numbers are
distinct, going from parent to parent in the tables follows the one way that leads to a node.
-/

set_option autoImplicit false

namespace Stackable

/-- The way down to a node: the nodes around it, nearest first. -/
inductive Lineage (unit : CompilationUnit) : Node → List Node → Prop where
  | top {d : Decl} (h : d ∈ unit.decls) : Lineage unit (.decl d) []
  | child {n c : Node} {around : List Node} (h : Lineage unit n around) (hc : c ∈ n.children) :
      Lineage unit c (n :: around)

namespace Node

theorem mem_descend_self (n : Node) : n ∈ n.descend := by
  rw [descend_eq]
  exact List.mem_cons_self

theorem mem_descendants_of_child {n c : Node} (h : c ∈ n.children) : c ∈ n.descendants :=
  mem_descendants.mpr ⟨c, h, c.mem_descend_self⟩

theorem mem_descend_iff {n x : Node} : x ∈ n.descend ↔ x = n ∨ x ∈ n.descendants := by
  rw [descend_eq, List.mem_cons]

/-- A property of a node that its children inherit holds all the way down. -/
theorem descend_induct {P : Node → Prop} {n : Node} (h : P n)
    (step : ∀ m c, P m → c ∈ m.children → P c) : ∀ x ∈ n.descend, P x := by
  intro x hx
  rcases mem_descend_iff.mp hx with rfl | hx
  · exact h
  · obtain ⟨c, hc, hx⟩ := mem_descendants.mp hx
    have := sizeOf_lt_of_mem_children hc
    exact descend_induct (step n c h hc) step x hx
termination_by sizeOf n

theorem children_mem_descend {n x c : Node} (hx : x ∈ n.descend) (hc : c ∈ x.children) :
    c ∈ n.descend := by
  rcases mem_descend_iff.mp hx with rfl | hx
  · exact mem_descend_iff.mpr (.inr (mem_descendants_of_child hc))
  · obtain ⟨y, hy, hx⟩ := mem_descendants.mp hx
    have := sizeOf_lt_of_mem_children hy
    exact mem_descend_iff.mpr (.inr (mem_descendants.mpr ⟨y, hy, children_mem_descend hx hc⟩))
termination_by sizeOf n

/-- Below an expression there are expressions only. -/
theorem exists_expr_of_mem_descend {e : Expr} {n : Node} (h : n ∈ (Node.expr e).descend) :
    ∃ x, n = .expr x := by
  apply descend_induct (P := fun n => ∃ x, n = .expr x) ⟨e, rfl⟩ _ n h
  rintro _ c ⟨x, rfl⟩ hc
  obtain ⟨y, _, rfl⟩ := List.mem_map.mp hc
  exact ⟨y, rfl⟩

end Node

namespace Lineage

variable {unit : CompilationUnit} {n m : Node} {around inner outer : List Node}

theorem of_mem_entries {n : Node} {around : List Node} (h : Lineage unit n around) {e : Entry}
    (he : e ∈ n.entries around) : Lineage unit e.node e.ancestors := by
  rw [Node.entries_eq] at he
  rcases List.mem_cons.mp he with rfl | he
  · exact h
  · obtain ⟨c, hc, he⟩ := List.mem_flatMap.mp he
    have := Node.sizeOf_lt_of_mem_children hc
    exact of_mem_entries (h.child hc) he
termination_by sizeOf n

theorem child_mem_entries {m c : Node} {start : List Node} (h : ⟨n, around⟩ ∈ m.entries start)
    (hc : c ∈ n.children) : ⟨c, n :: around⟩ ∈ m.entries start := by
  rw [Node.entries_eq] at h ⊢
  rcases List.mem_cons.mp h with h | h
  · obtain ⟨rfl, rfl⟩ : n = m ∧ around = start := by simpa using h
    refine List.mem_cons_of_mem _ (List.mem_flatMap.mpr ⟨c, hc, ?_⟩)
    rw [Node.entries_eq]
    exact List.mem_cons_self
  · obtain ⟨x, hx, h⟩ := List.mem_flatMap.mp h
    have := Node.sizeOf_lt_of_mem_children hx
    exact List.mem_cons_of_mem _ (List.mem_flatMap.mpr ⟨x, hx, child_mem_entries h hc⟩)
termination_by sizeOf m

/-- The entries of a unit are the ways down to its nodes. -/
theorem mem_entries_iff : ⟨n, around⟩ ∈ unit.entries ↔ Lineage unit n around := by
  constructor
  · intro h
    obtain ⟨d, hd, h⟩ := List.mem_flatMap.mp h
    exact of_mem_entries (.top hd) h
  · intro h
    induction h with
    | top hd =>
      refine List.mem_flatMap.mpr ⟨_, hd, ?_⟩
      rw [Node.entries_eq]
      exact List.mem_cons_self
    | child _ hc ih =>
      obtain ⟨d, hd, ih⟩ := List.mem_flatMap.mp ih
      exact List.mem_flatMap.mpr ⟨d, hd, child_mem_entries ih hc⟩

theorem mem_walk_iff : n ∈ (SyntaxTree.ofUnit unit).walk ↔ ∃ around, Lineage unit n around := by
  rw [← unit.map_node_entries]
  constructor
  · intro h
    obtain ⟨⟨x, around⟩, he, rfl⟩ := List.mem_map.mp h
    exact ⟨around, mem_entries_iff.mp he⟩
  · rintro ⟨around, h⟩
    exact List.mem_map.mpr ⟨⟨n, around⟩, mem_entries_iff.mpr h, rfl⟩

theorem child_mem_walk {c : Node} (hn : n ∈ (SyntaxTree.ofUnit unit).walk) (hc : c ∈ n.children) :
    c ∈ (SyntaxTree.ofUnit unit).walk := by
  obtain ⟨around, h⟩ := mem_walk_iff.mp hn
  exact mem_walk_iff.mpr ⟨_, h.child hc⟩

theorem parent (h : Lineage unit n (m :: outer)) : Lineage unit m outer ∧ n ∈ m.children := by
  cases h with
  | child h hc => exact ⟨h, hc⟩

/-- The way to a node goes on from the way to each of the nodes around it. -/
theorem outward {inner : List Node} (h : Lineage unit n (inner ++ m :: outer)) :
    Lineage unit m outer ∧ n ∈ m.descendants := by
  generalize hAround : inner ++ m :: outer = around at h
  induction h generalizing inner with
  | top => simp at hAround
  | @child x c around hx hc ih =>
    cases inner with
    | nil =>
      obtain ⟨rfl, rfl⟩ : m = x ∧ outer = around := by simpa using hAround
      exact ⟨hx, Node.mem_descendants_of_child hc⟩
    | cons y inner =>
      obtain ⟨rfl, hRest⟩ := List.cons.inj hAround
      obtain ⟨hm, hxm⟩ := ih hRest
      obtain ⟨z, hz, hxz⟩ := Node.mem_descendants.mp hxm
      exact ⟨hm, Node.mem_descendants.mpr ⟨z, hz, Node.children_mem_descend hxz hc⟩⟩

theorem mem_descend (h : Lineage unit n (inner ++ m :: outer)) {x : Node} (hx : x ∈ inner) :
    x ∈ m.descendants := by
  obtain ⟨before, after, rfl⟩ := List.append_of_mem hx
  rw [List.append_assoc, List.cons_append] at h
  exact h.outward.1.outward.2

/-- Every node below `m` is reached through `m`. -/
theorem inward (h : Lineage unit m outer) :
    ∀ x ∈ m.descend, ∃ inner, Lineage unit x (inner ++ outer) ∧
      (x = m ∧ inner = [] ∨ ∃ nearer, inner = nearer ++ [m]) := by
  refine Node.descend_induct ⟨[], h, .inl ⟨rfl, rfl⟩⟩ ?_
  rintro x c ⟨inner, hx, hInner⟩ hc
  refine ⟨x :: inner, hx.child hc, .inr ?_⟩
  rcases hInner with ⟨rfl, rfl⟩ | ⟨nearer, rfl⟩
  · exact ⟨[], rfl⟩
  · exact ⟨x :: nearer, rfl⟩

theorem of_mem_descendants (h : Lineage unit m outer) {x : Node} (hx : x ∈ m.descendants) :
    ∃ inner, Lineage unit x (inner ++ m :: outer) := by
  obtain ⟨c, hc, hx⟩ := Node.mem_descendants.mp hx
  obtain ⟨inner, hx, _⟩ := (h.child hc).inward x hx
  exact ⟨inner, hx⟩

end Lineage

/-- Statements, expressions and the names that statements declare. -/
def Node.isCode : Node → Bool
  | .declarator _ | .stmt _ | .expr _ => true
  | _ => false

@[simp] theorem Node.isCode_declarator (d : Declarator) : (Node.declarator d).isCode = true := rfl

@[simp] theorem Node.isCode_stmt (s : Stmt) : (Node.stmt s).isCode = true := rfl

@[simp] theorem Node.isCode_expr (e : Expr) : (Node.expr e).isCode = true := rfl

theorem all_map {α : Type} {P : Node → Bool} {f : α → Node} (h : ∀ a, P (f a) = true)
    (l : List α) : (l.map f).all P = true := by
  simp [h]

theorem all_toList_map {α : Type} {P : Node → Bool} {f : α → Node} (h : ∀ a, P (f a) = true)
    (o : Option α) : (o.map f).toList.all P = true := by
  cases o <;> simp [h]

theorem StmtKind.all_isCode (k : StmtKind Stmt) : k.nodes.all Node.isCode = true := by
  cases k
  case ret | throwStmt => exact all_toList_map Node.isCode_expr _
  case switch subject sections =>
    simp only [nodes, List.all_cons, Node.isCode_expr, List.all_flatMap, List.all_append,
      all_map Node.isCode_expr, all_map Node.isCode_stmt, Bool.and_self]
    simp
  all_goals simp [nodes, Function.comp_def]

theorem FnBody.all_isCode (b : FnBody) : b.nodes.all Node.isCode = true := by
  cases b <;> simp [nodes, Function.comp_def]

theorem Node.isCode_of_mem_children {n c : Node} (hn : n.isCode = true) (h : c ∈ n.children) :
    c.isCode = true := by
  revert c
  rw [← List.all_eq_true]
  cases n with
  | decl | member | accessor => simp [isCode] at hn
  | stmt s => exact s.kind.all_isCode
  | declarator d => exact all_toList_map (fun i => isCode_expr i.value) d.init
  | expr e => simp [children]

theorem Node.isCode_of_mem_descend {n x : Node} (hn : n.isCode = true) (h : x ∈ n.descend) :
    x.isCode = true :=
  descend_induct (P := (·.isCode = true)) hn (fun _ _ hm hc => isCode_of_mem_children hm hc) x h

theorem Member.member_of_function? {m : Member} {f : Function} (h : m.function? = some f) :
    f.member = m := by
  unfold function? at h
  split at h <;> cases h <;> rfl

/-- Below a method or constructor there is code only. -/
theorem Member.isCode_of_mem_descendants {m : Member} (hm : m.function?.isSome) {x : Node}
    (h : x ∈ (Node.member m).descendants) : x.isCode = true := by
  obtain ⟨c, hc, hx⟩ := Node.mem_descendants.mp h
  refine Node.isCode_of_mem_descend ?_ hx
  have body : ∀ b : Option FnBody, ((b.map FnBody.nodes).getD []).all Node.isCode = true := by
    intro b
    cases b with
    | none => rfl
    | some b => exact b.all_isCode
  revert c
  obtain ⟨id, kind, span⟩ := m
  cases kind with
  | method d =>
    intro c hc _
    refine List.all_eq_true.mp ?_ c hc
    have defaults := all_map Node.isCode_expr (d.params.filterMap (·.default))
    simp only [Node.children, MemberKind.nodes, Param.defaults, List.all_append, defaults, body,
      Bool.and_self]
  | constructor d =>
    intro c hc _
    refine List.all_eq_true.mp ?_ c hc
    have defaults := all_map Node.isCode_expr (d.params.filterMap (·.default))
    have args : (((d.chain.map fun c => c.args.map fun a => Node.expr a.expr).getD []).all
        Node.isCode) = true := by
      cases d.chain with
      | none => rfl
      | some c => exact all_map (fun a => Node.isCode_expr a.expr) c.args
    simp only [Node.children, MemberKind.nodes, Param.defaults, List.all_append, defaults, args, body,
      Bool.and_self]
  | _ => cases hm

/-- No two nodes of a unit have one number. -/
def CompilationUnit.Numbered (unit : CompilationUnit) : Prop :=
  ((SyntaxTree.ofUnit unit).walk.map Node.id).Nodup

namespace Lineage

variable {unit : CompilationUnit} {n m : Node} {around around' : List Node}

/-- A number leads to one node by one way. -/
theorem unique (hu : unit.Numbered) (h : Lineage unit n around) (k : Lineage unit m around')
    (hid : n.id = m.id) : n = m ∧ around = around' := by
  rw [CompilationUnit.Numbered, ← unit.map_node_entries, List.map_map] at hu
  have hEq : (⟨n, around⟩ : Entry) = ⟨m, around'⟩ :=
    List.inj_on_of_nodup_map hu (mem_entries_iff.mpr h) (mem_entries_iff.mpr k) hid
  exact ⟨congrArg Entry.node hEq, congrArg Entry.ancestors hEq⟩

theorem node?_eq (hu : unit.Numbered) (h : Lineage unit n around) :
    (SyntaxTree.ofUnit unit).node? n.id = some n := by
  rw [SyntaxTree.ofUnit_eq, SyntaxTree.node?,
    Table.get?_addAll_empty_iff (SyntaxTree.map_fst_numbered unit ▸ hu)]
  exact List.mem_map.mpr ⟨_, mem_entries_iff.mpr h, rfl⟩

/-- The parent of a node is the nearest of the nodes around it. -/
theorem parent?_eq (hu : unit.Numbered) (h : Lineage unit n around) :
    (SyntaxTree.ofUnit unit).parent? n.id = around.head? := by
  have hUpward : ∀ id, (SyntaxTree.ofUnit unit).parents.get? n.id = some id ↔
      around.head?.map Node.id = some id := by
    have hNodup : ((unit.entries.filterMap Entry.upward?).map (·.1)).Nodup := by
      rw [CompilationUnit.Numbered, ← unit.map_node_entries, List.map_map, List.Nodup,
        List.pairwise_map] at hu
      rw [List.Nodup, List.pairwise_map, List.pairwise_filterMap]
      apply hu.imp
      intro e e' hNe x hx x' hx'
      obtain ⟨_, _, rfl⟩ := Option.map_eq_some_iff.mp hx
      obtain ⟨_, _, rfl⟩ := Option.map_eq_some_iff.mp hx'
      exact hNe
    intro id
    rw [SyntaxTree.ofUnit_eq, Table.get?_addAll_empty_iff hNodup, List.mem_filterMap]
    constructor
    · rintro ⟨⟨x, outer⟩, he, hx⟩
      obtain ⟨p, hHead, hEq⟩ := Option.map_eq_some_iff.mp hx
      obtain ⟨hId, rfl⟩ := Prod.mk.inj hEq
      obtain ⟨rfl, rfl⟩ := (mem_entries_iff.mp he).unique hu h hId
      exact Option.map_eq_some_iff.mpr ⟨p, hHead, rfl⟩
    · intro hHead
      obtain ⟨p, hParent, rfl⟩ := Option.map_eq_some_iff.mp hHead
      exact ⟨_, mem_entries_iff.mpr h, Option.map_eq_some_iff.mpr ⟨p, hParent, rfl⟩⟩
  have hParent : (SyntaxTree.ofUnit unit).parents.get? n.id = around.head?.map Node.id :=
    Option.ext hUpward
  rw [SyntaxTree.parent?, hParent]
  cases h with
  | top _ => rfl
  | child hm _ => exact hm.node?_eq hu

/-- Going from parent to parent follows the way to its end. -/
theorem yields_ancestors (hu : unit.Numbered) (h : Lineage unit n around) :
    Yields Ancestors.next? ⟨.ofUnit unit, n.id⟩ around := by
  induction h with
  | top hd =>
    refine .done ?_
    rw [Ancestors.next?, (Lineage.top hd).parent?_eq hu]
    rfl
  | child h hc ih =>
    refine .next ?_ ih
    rw [Ancestors.next?, (h.child hc).parent?_eq hu]
    rfl

theorem pairwise_sizeOf (h : Lineage unit n around) :
    (n :: around).Pairwise fun a b => sizeOf a < sizeOf b := by
  induction h with
  | top _ => exact List.pairwise_singleton _ _
  | child _ hc ih =>
    have hChild := Node.sizeOf_lt_of_mem_children hc
    refine List.pairwise_cons.mpr ⟨fun x hx => ?_, ih⟩
    rcases List.mem_cons.mp hx with rfl | hx
    · exact hChild
    · exact Nat.lt_trans hChild (List.rel_of_pairwise_cons ih hx)

/-- A way is no longer than there are nodes. -/
theorem length_le_size (hu : unit.Numbered) (h : Lineage unit n around) :
    around.length ≤ (SyntaxTree.ofUnit unit).size := by
  have hMem : ∀ x ∈ around, ∃ outer, Lineage unit x outer := fun x hx => by
    obtain ⟨inner, outer, rfl⟩ := List.append_of_mem hx
    exact ⟨outer, h.outward.1⟩
  have hNodup : (around.map Node.id).Nodup := by
    rw [List.Nodup, List.pairwise_map]
    refine (List.Pairwise.of_cons h.pairwise_sizeOf).imp_of_mem fun {a b} ha hb hLt hId => ?_
    obtain ⟨_, ha⟩ := hMem a ha
    obtain ⟨_, hb⟩ := hMem b hb
    rw [(ha.unique hu hb hId).1] at hLt
    exact absurd hLt (Nat.lt_irrefl _)
  rw [← List.length_map Node.id]
  refine Table.length_le_size hNodup fun id hid => ?_
  obtain ⟨x, hx, rfl⟩ := List.mem_map.mp hid
  exact SyntaxTree.isSome_node? (mem_walk_iff.mpr (hMem x hx))

theorem ancestors_eq (hu : unit.Numbered) (h : Lineage unit n around) :
    (SyntaxTree.ofUnit unit).ancestors n.id = around :=
  Ancestors.take_eq (h.yields_ancestors hu) (h.length_le_size hu)

/-- An initial value is below no other expression. -/
theorem eq_of_mem_descend (hu : unit.Numbered) {d : Declarator} {x : Expr}
    (h : Lineage unit n (.declarator d :: around)) (hx : Lineage unit (.expr x) around')
    (hn : n ∈ (Node.expr x).descend) : n = .expr x := by
  rcases Node.mem_descend_iff.mp hn with rfl | hn
  · rfl
  · obtain ⟨inner, hInner⟩ := hx.of_mem_descendants hn
    obtain ⟨_, hAround⟩ := h.unique hu hInner rfl
    cases inner with
    | nil => cases hAround
    | cons y inner =>
      obtain ⟨rfl, _⟩ := List.cons.inj hAround
      have hd := hInner.mem_descend (List.mem_cons_self (l := inner))
      obtain ⟨z, hz⟩ := Node.exists_expr_of_mem_descend (Node.mem_descend_iff.mpr (.inr hd))
      cases hz

end Lineage

/-- The entries read off the tables are those of the recursion. -/
theorem SyntaxTree.entries_ofUnit {unit : CompilationUnit} (hu : unit.Numbered) :
    (SyntaxTree.ofUnit unit).entries = unit.entries := by
  rw [entries, ← unit.map_node_entries, List.map_map]
  refine (List.map_congr_left fun e he => ?_).trans (List.map_id _)
  exact congrArg (Entry.mk e.node) ((Lineage.mem_entries_iff.mp he).ancestors_eq hu)

end Stackable
