import Stackable.Proofs.Table
import Stackable.Syntax.Tree

/-!
# Loops over a tree and the recursion over its nodes

`Node.descend` and `Node.entries` go down a tree by recursion over the children. The loops with a
stack give out the same nodes in the same order, and the tables are filled with one entry for each
of them.
-/

set_option autoImplicit false

namespace Stackable

/-- What an iterator gives out until it ends. -/
inductive Yields {σ α : Type} (next? : σ → Option (α × σ)) : σ → List α → Prop where
  | done {s : σ} (h : next? s = none) : Yields next? s []
  | next {s t : σ} {a : α} {l : List α} (h : next? s = some (a, t)) (hl : Yields next? t l) :
      Yields next? s (a :: l)

namespace Descendants

variable {it rest : Descendants} {n : Node}

theorem toList_of_next? (h : it.next? = some (n, rest)) : it.toList = n :: rest.toList := by
  rw [toList]
  split
  · next h' =>
    rw [h] at h'
    cases h'
    rfl
  · next h' =>
    rw [h] at h'
    cases h'

theorem toList_of_next?_eq_none (h : it.next? = none) : it.toList = [] := by
  rw [toList]
  split
  · next h' =>
    rw [h] at h'
    cases h'
  · rfl

/-- One step leaves all that is still to be given out. -/
theorem descend_next? (h : it.next? = some (n, rest)) :
    it.stack.reverse.flatMap Node.descend = n :: rest.stack.reverse.flatMap Node.descend := by
  obtain ⟨m, hLast, hNext⟩ := Option.map_eq_some_iff.mp h
  obtain ⟨rfl, rfl⟩ := Prod.mk.inj hNext
  obtain ⟨front, hStack⟩ := List.getLast?_eq_some_iff.mp hLast
  rw [hStack, List.dropLast_concat, List.reverse_concat, List.flatMap_cons, Node.descend_eq_cons,
    List.reverse_append, List.reverse_reverse, List.flatMap_append, List.cons_append]

theorem toList_eq (it : Descendants) : it.toList = it.stack.reverse.flatMap Node.descend := by
  induction it using toList.induct with
  | case1 it n rest h ih => rw [toList_of_next? h, descend_next? h, ih]
  | case2 it h =>
    have hStack : it.stack = [] := List.getLast?_eq_none_iff.mp (Option.map_eq_none_iff.mp h)
    rw [toList_of_next?_eq_none h, hStack]
    rfl

theorem yields_toList (it : Descendants) : Yields next? it it.toList := by
  induction it using toList.induct with
  | case1 it n rest h ih =>
    rw [toList_of_next? h]
    exact .next h ih
  | case2 it h =>
    rw [toList_of_next?_eq_none h]
    exact .done h

end Descendants

namespace Node

theorem descendants_eq (n : Node) : n.descendants = n.children.flatMap descend := by
  rw [descendants, Descendants.toList_eq, List.reverse_reverse]

theorem descend_eq (n : Node) : n.descend = n :: n.descendants := by
  rw [descend_eq_cons, descendants_eq]

theorem mem_descendants {n x : Node} : x ∈ n.descendants ↔ ∃ c ∈ n.children, x ∈ c.descend := by
  rw [descendants_eq, List.mem_flatMap]

/-- The entries of a node below `around` and of all that is below the node, parents first. -/
def entries (around : List Node) (n : Node) : List Entry :=
  ⟨n, around⟩ :: n.children.attach.flatMap fun c => c.1.entries (n :: around)
termination_by sizeOf n
decreasing_by exact sizeOf_lt_of_mem_children c.2

theorem entries_eq (around : List Node) (n : Node) :
    n.entries around = ⟨n, around⟩ :: n.children.flatMap (entries (n :: around)) := by
  rw [entries, List.flatMap_subtype (g := entries (n :: around)) (fun _ _ => rfl),
    List.unattach_attach]

theorem map_node_entries (around : List Node) (n : Node) :
    (n.entries around).map (·.node) = n.descend := by
  rw [entries_eq, descend_eq_cons, List.map_cons, List.map_flatMap]
  congr 1
  apply List.flatMap_congr
  intro c hc
  have := sizeOf_lt_of_mem_children hc
  exact map_node_entries (n :: around) c
termination_by sizeOf n

end Node

/-- The nodes of a unit with the nodes around them, by recursion. -/
def CompilationUnit.entries (unit : CompilationUnit) : List Entry :=
  unit.decls.flatMap fun d => (Node.decl d).entries []

/-- The walk is the descent through the declarations one after the other. -/
theorem SyntaxTree.walk_eq (t : SyntaxTree) :
    t.walk = t.unit.decls.flatMap fun d => (Node.decl d).descend := by
  rw [walk, Descendants.toList_eq, ← List.map_reverse, List.reverse_reverse, List.flatMap_map]

theorem SyntaxTree.walk_ofUnit (unit : CompilationUnit) :
    (SyntaxTree.ofUnit unit).walk = unit.decls.flatMap fun d => (Node.decl d).descend :=
  walk_eq _

theorem CompilationUnit.map_node_entries (unit : CompilationUnit) :
    unit.entries.map (·.node) = (SyntaxTree.ofUnit unit).walk := by
  rw [SyntaxTree.walk_ofUnit, entries, List.map_flatMap]
  simp only [Node.map_node_entries]

namespace Entry

def below (e : Entry) : List Entry := e.node.entries e.ancestors

/-- What stands on the stack for an entry. -/
def waiting (e : Entry) : Node × Option NodeId := (e.node, e.ancestors.head?.map Node.id)

def numbered (e : Entry) : NodeId × Node := (e.node.id, e.node)

def upward? (e : Entry) : Option (NodeId × NodeId) :=
  e.ancestors.head?.map fun p => (e.node.id, p.id)

def children (e : Entry) : List Entry := e.node.children.map fun c => ⟨c, e.node :: e.ancestors⟩

theorem below_eq (e : Entry) : e.below = e :: e.children.flatMap below := by
  rw [below, Node.entries_eq, children, List.flatMap_map]
  rfl

end Entry

namespace Indexing

theorem run_of_next? {s t : Indexing} (h : s.next? = some t) : s.run = t.run := by
  rw [run]
  split
  · next h' =>
    rw [h] at h'
    cases h'
    rfl
  · next h' =>
    rw [h] at h'
    cases h'

/-- The first entry is entered, and its children are the first to come. -/
theorem next?_waiting (e : Entry) (l : List Entry) (nodes : Table NodeId Node)
    (parents : Table NodeId NodeId) :
    next? ⟨((e :: l).map Entry.waiting).reverse, nodes, parents⟩ =
      some ⟨((e.children ++ l).map Entry.waiting).reverse, nodes.addAll [e.numbered],
        parents.addAll e.upward?.toList⟩ := by
  rw [next?, List.map_cons, List.reverse_cons, List.getLast?_concat, Option.map_some,
    List.dropLast_concat, List.map_append, List.reverse_append, Entry.children, List.map_map,
    ← List.map_reverse]
  obtain ⟨n, around⟩ := e
  cases around <;> simp [Entry.waiting, Entry.upward?, Entry.numbered, Table.addAll]

/-- The tables are filled with the entries in the order of the recursion. -/
theorem run_eq (l : List Entry) (nodes : Table NodeId Node) (parents : Table NodeId NodeId) :
    run ⟨(l.map Entry.waiting).reverse, nodes, parents⟩ =
      ⟨[], nodes.addAll ((l.flatMap Entry.below).map Entry.numbered),
        parents.addAll ((l.flatMap Entry.below).filterMap Entry.upward?)⟩ := by
  -- Each turn enters one of the entries that are still to come.
  induction hLength : (l.flatMap Entry.below).length generalizing l nodes parents with
  | zero =>
    cases l with
    | nil =>
      rw [run]
      rfl
    | cons e l =>
      rw [List.flatMap_cons, Entry.below_eq] at hLength
      cases hLength
  | succ k ih =>
    cases l with
    | nil => cases hLength
    | cons e l =>
      rw [List.flatMap_cons, Entry.below_eq, List.cons_append, ← List.flatMap_append] at hLength ⊢
      rw [run_of_next? (next?_waiting e l nodes parents), ih _ _ _ (Nat.succ.inj hLength),
        ← Table.addAll_append, ← Table.addAll_append, List.map_cons, List.filterMap_cons]
      cases e.upward? <;> rfl

end Indexing

namespace SyntaxTree

variable {unit : CompilationUnit} {id : NodeId} {n : Node}

theorem ofUnit_eq (unit : CompilationUnit) :
    SyntaxTree.ofUnit unit = ⟨unit, Table.empty.addAll (unit.entries.map Entry.numbered),
      Table.empty.addAll (unit.entries.filterMap Entry.upward?)⟩ := by
  have hStack : (unit.decls.reverse.map fun d => (Node.decl d, (none : Option NodeId))) =
      ((unit.decls.map fun d => ⟨.decl d, []⟩ : List Entry).map Entry.waiting).reverse := by
    rw [List.map_map, ← List.map_reverse]
    rfl
  rw [ofUnit, hStack, Indexing.run_eq, List.flatMap_map]
  rfl

theorem map_fst_numbered (unit : CompilationUnit) :
    (unit.entries.map Entry.numbered).map (·.1) = (SyntaxTree.ofUnit unit).walk.map Node.id := by
  rw [← unit.map_node_entries, List.map_map, List.map_map]
  rfl

/-- A number leads to a node that has it. -/
theorem of_node?_eq_some (h : (SyntaxTree.ofUnit unit).node? id = some n) :
    n ∈ (SyntaxTree.ofUnit unit).walk ∧ n.id = id := by
  rw [ofUnit_eq, node?, Table.get?_addAll, Table.get?_empty, Option.or_none,
    List.lookup_eq_some_iff] at h
  obtain ⟨front, back, hSplit, _⟩ := h
  have hMem : (id, n) ∈ (unit.entries.map Entry.numbered).reverse :=
    hSplit ▸ List.mem_append_right _ List.mem_cons_self
  obtain ⟨e, he, hNumbered⟩ := List.mem_map.mp (List.mem_reverse.mp hMem)
  obtain ⟨rfl, rfl⟩ := Prod.mk.inj hNumbered
  exact ⟨unit.map_node_entries ▸ List.mem_map_of_mem he, rfl⟩

/-- The number of a node leads to a node. -/
theorem isSome_node? (h : n ∈ (SyntaxTree.ofUnit unit).walk) :
    ((SyntaxTree.ofUnit unit).node? n.id).isSome := by
  have hMem : n.id ∈ (unit.entries.map Entry.numbered).map (·.1) :=
    map_fst_numbered unit ▸ List.mem_map_of_mem h
  obtain ⟨e, he, hId⟩ := List.mem_map.mp hMem
  rw [ofUnit_eq, node?, Table.get?_addAll, Table.get?_empty, Option.or_none, List.lookup_isSome_iff]
  exact ⟨e, List.mem_reverse.mpr he, beq_iff_eq.mpr hId.symm⟩

/-- Only nodes have parents. -/
theorem exists_of_parent?_eq_some (h : (SyntaxTree.ofUnit unit).parent? id = some n) :
    ∃ c ∈ (SyntaxTree.ofUnit unit).walk, c.id = id := by
  obtain ⟨up, hUp, _⟩ := Option.bind_eq_some_iff.mp h
  rw [ofUnit_eq, Table.get?_addAll, Table.get?_empty, Option.or_none,
    List.lookup_eq_some_iff] at hUp
  obtain ⟨front, back, hSplit, _⟩ := hUp
  have hMem : (id, up) ∈ (unit.entries.filterMap Entry.upward?).reverse :=
    hSplit ▸ List.mem_append_right _ List.mem_cons_self
  obtain ⟨e, he, hUpward⟩ := List.mem_filterMap.mp (List.mem_reverse.mp hMem)
  obtain ⟨p, _, hEq⟩ := Option.map_eq_some_iff.mp hUpward
  exact ⟨e.node, unit.map_node_entries ▸ List.mem_map_of_mem he, congrArg Prod.fst hEq⟩

end SyntaxTree

namespace Ancestors

/-- A bound that is not met makes no difference. -/
theorem take_eq {it : Ancestors} {l : List Node} {steps : Nat} (h : Yields next? it l)
    (hSteps : l.length ≤ steps) : it.take steps = l := by
  induction h generalizing steps with
  | done h =>
    cases steps with
    | zero => rfl
    | succ steps => rw [take, h]
  | next h _ ih =>
    cases steps with
    | zero => cases hSteps
    | succ steps =>
      rw [take, h]
      exact congrArg _ (ih (Nat.le_of_succ_le_succ hSteps))

/-- What is given out stands in the table. -/
theorem exists_node?_of_mem_take (it : Ancestors) {n : Node} {steps : Nat}
    (h : n ∈ it.take steps) : ∃ id, it.tree.node? id = some n := by
  induction steps generalizing it with
  | zero => cases h
  | succ steps ih =>
    rw [take] at h
    split at h
    · next p rest hNext =>
      obtain ⟨q, hParent, hEq⟩ := Option.map_eq_some_iff.mp hNext
      obtain ⟨rfl, rfl⟩ := Prod.mk.inj hEq
      rcases List.mem_cons.mp h with rfl | h
      · obtain ⟨id, _, hNode⟩ := Option.bind_eq_some_iff.mp hParent
        exact ⟨id, hNode⟩
      · exact ih { it with current := q.id } h
    · cases h

end Ancestors

end Stackable
