import Stackable.Syntax.Node
import Stackable.Table

/-!
# The tree of a source file

Every node of a compilation unit under its number, and the number of the node that it is a child
of. Nodes below a place are given out one by one from a stack, those around it by going from parent
to parent.
-/

set_option autoImplicit false

namespace Stackable

/-! ## Going down -/

theorem Node.length_flatMap_descend (front : List Node) (n : Node) :
    ((front ++ [n]).flatMap descend).length =
      ((front ++ n.children.reverse).flatMap descend).length + 1 := by
  rw [List.flatMap_append, List.flatMap_append, List.flatMap_singleton, descend_eq_cons]
  simp only [List.length_append, List.length_cons, List.length_flatMap, List.map_reverse,
    List.sum_reverse]
  omega

/-- Nodes that are still to be given out, each with all that is below it. The next is the last. -/
structure Descendants where
  stack : List Node

namespace Descendants

def next? (it : Descendants) : Option (Node × Descendants) :=
  it.stack.getLast?.map fun n => (n, ⟨it.stack.dropLast ++ n.children.reverse⟩)

def remaining (it : Descendants) : Nat := (it.stack.flatMap Node.descend).length

theorem remaining_of_next? {it rest : Descendants} {n : Node} (h : it.next? = some (n, rest)) :
    it.remaining = rest.remaining + 1 := by
  obtain ⟨m, hLast, hNext⟩ := Option.map_eq_some_iff.mp h
  obtain ⟨rfl, rfl⟩ := Prod.mk.inj hNext
  obtain ⟨front, hStack⟩ := List.getLast?_eq_some_iff.mp hLast
  rw [remaining, remaining, hStack, List.dropLast_concat]
  exact Node.length_flatMap_descend front _

def toList (it : Descendants) : List Node :=
  match _h : it.next? with
  | some (n, rest) => n :: rest.toList
  | none => []
termination_by it.remaining
decreasing_by
  have := remaining_of_next? _h
  omega

end Descendants

def Node.descendants (n : Node) : List Node := (Descendants.mk n.children.reverse).toList

/-! ## The tables -/

structure SyntaxTree where
  unit : CompilationUnit
  nodes : Table NodeId Node
  parents : Table NodeId NodeId

/-- Nodes that still have to be entered into the tables, with the numbers of their parents. -/
structure Indexing where
  stack : List (Node × Option NodeId)
  nodes : Table NodeId Node
  parents : Table NodeId NodeId

namespace Indexing

/-- Enters the last node, and puts its children in its place. -/
def next? (s : Indexing) : Option Indexing :=
  s.stack.getLast?.map fun (n, parent) =>
    { stack := s.stack.dropLast ++ n.children.reverse.map fun c => (c, some n.id)
      nodes := s.nodes.insert n.id n
      parents := match parent with
        | some p => s.parents.insert n.id p
        | none => s.parents }

def remaining (s : Indexing) : Nat := (s.stack.flatMap fun e => e.1.descend).length

theorem remaining_of_next? {s t : Indexing} (h : s.next? = some t) :
    s.remaining = t.remaining + 1 := by
  obtain ⟨⟨n, parent⟩, hLast, rfl⟩ := Option.map_eq_some_iff.mp h
  obtain ⟨front, hStack⟩ := List.getLast?_eq_some_iff.mp hLast
  have hNodes := n.length_flatMap_descend (front.map (·.1))
  simp only [List.flatMap_append, List.flatMap_map, List.flatMap_singleton] at hNodes
  rw [remaining, remaining, hStack, List.dropLast_concat, List.flatMap_append, List.flatMap_append,
    List.flatMap_singleton, List.flatMap_map]
  exact hNodes

def run (s : Indexing) : Indexing :=
  match _h : s.next? with
  | some t => t.run
  | none => s
termination_by s.remaining
decreasing_by
  have := remaining_of_next? _h
  omega

end Indexing

namespace SyntaxTree

def ofUnit (unit : CompilationUnit) : SyntaxTree :=
  let s := Indexing.run ⟨unit.decls.reverse.map fun d => (.decl d, none), .empty, .empty⟩
  ⟨unit, s.nodes, s.parents⟩

def size (t : SyntaxTree) : Nat := t.nodes.size

def node? (t : SyntaxTree) (id : NodeId) : Option Node := t.nodes.get? id

def parent? (t : SyntaxTree) (id : NodeId) : Option Node := t.parents.get? id >>= t.node?

def walk (t : SyntaxTree) : List Node := (Descendants.mk (t.unit.decls.reverse.map .decl)).toList

end SyntaxTree

/-! ## Going up -/

/-- A way up in a tree, and the number that it has come to. -/
structure Ancestors where
  tree : SyntaxTree
  current : NodeId

namespace Ancestors

def next? (it : Ancestors) : Option (Node × Ancestors) :=
  (it.tree.parent? it.current).map fun p => (p, { it with current := p.id })

def take (it : Ancestors) : Nat → List Node
  | 0 => []
  | steps + 1 =>
    match it.next? with
    | some (p, rest) => p :: rest.take steps
    | none => []

end Ancestors

structure Entry where
  node : Node
  ancestors : List Node

namespace SyntaxTree

/-- The nodes around a node, nearest first. Where no number occurs twice, there are fewer of them
than nodes in the tree. -/
def ancestors (t : SyntaxTree) (id : NodeId) : List Node := (Ancestors.mk t id).take t.size

def firstAncestor? (t : SyntaxTree) (id : NodeId) (wanted : Node → Bool) : Option Node :=
  (t.ancestors id).find? wanted

def entries (t : SyntaxTree) : List Entry := t.walk.map fun n => ⟨n, t.ancestors n.id⟩

def arrayCreations (t : SyntaxTree) : List Expr :=
  t.walk.filterMap fun n =>
    match n with
    | .expr ⟨id, .arrayCreation element ranks initializer, span⟩ =>
      some ⟨id, .arrayCreation element ranks initializer, span⟩
    | _ => none

end SyntaxTree

end Stackable
