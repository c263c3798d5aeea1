import Stackable.Proofs.Syntax.Lineage

/-!
# Finding the way in a tree

Where numbers are distinct, the tables lead from every node to its parent, and the ways up from a
node undo the ways down to it: `Navigable` collects what the look-ups and the iterators of a tree
say about one another.
-/

set_option autoImplicit false

namespace Stackable

namespace Node

theorem descend_sublist {n x : Node} (h : x ∈ n.descend) : x.descend.Sublist n.descend := by
  rcases mem_descend_iff.mp h with rfl | h
  · exact List.Sublist.refl _
  · obtain ⟨c, hc, hx⟩ := mem_descendants.mp h
    have := sizeOf_lt_of_mem_children hc
    have hChild : c.descend.Sublist n.descendants := by
      rw [descendants_eq, List.flatMap_def]
      exact List.sublist_flatten_of_mem (List.mem_map_of_mem hc)
    rw [n.descend_eq]
    exact ((descend_sublist hx).trans hChild).trans (List.sublist_cons_self _ _)
termination_by sizeOf n

end Node

namespace SyntaxTree

/-- The look-ups of a tree agree with the way its nodes hang together. -/
structure Navigable (t : SyntaxTree) : Prop where
  mem_walk : ∀ n, n ∈ t.walk ↔ ∃ around, Lineage t.unit n around
  nodup_walk : t.walk.Nodup
  /-- A node comes before what is below it, and all below one child before the next child. -/
  walk_recursive : t.walk = t.unit.decls.flatMap (fun d => (Node.decl d).descend) ∧
    ∀ n : Node, n.descend = n :: n.children.flatMap Node.descend
  walk_yielded : Yields Descendants.next? ⟨t.unit.decls.reverse.map .decl⟩ t.walk
  size_eq : t.size = t.walk.length
  node?_eq : ∀ id n, t.node? id = some n ↔ n ∈ t.walk ∧ n.id = id
  parent?_eq : ∀ c ∈ t.walk, ∀ p, t.parent? c.id = some p ↔ p ∈ t.walk ∧ c ∈ p.children
  parent?_eq_none : ∀ c ∈ t.walk, t.parent? c.id = none ↔ ∃ d ∈ t.unit.decls, c = .decl d
  /-- The nodes around a node lead from it to a declaration at the top. -/
  lineage : ∀ n ∈ t.walk, Lineage t.unit n (t.ancestors n.id)
  /-- They are all that there is from parent to parent: the way up ends of itself. -/
  ancestors_yielded : ∀ id, Yields Ancestors.next? ⟨t, id⟩ (t.ancestors id)
  descendants_yielded : ∀ a : Node, Yields Descendants.next? ⟨a.children.reverse⟩ a.descendants
  mem_descendants : ∀ a ∈ t.walk, ∀ d ∈ t.walk, d ∈ a.descendants ↔ a ∈ t.ancestors d.id
  nodup_descendants : ∀ a ∈ t.walk, a.descendants.Nodup

end SyntaxTree

section Numbered

variable {unit : CompilationUnit} {n c p : Node}

theorem CompilationUnit.Numbered.nodup_walk (hu : unit.Numbered) :
    (SyntaxTree.ofUnit unit).walk.Nodup :=
  List.Nodup.of_map Node.id hu

theorem lineage_ancestors (hu : unit.Numbered) (h : n ∈ (SyntaxTree.ofUnit unit).walk) :
    Lineage unit n ((SyntaxTree.ofUnit unit).ancestors n.id) := by
  obtain ⟨around, hn⟩ := Lineage.mem_walk_iff.mp h
  rw [hn.ancestors_eq hu]
  exact hn

theorem size_eq_length_walk (hu : unit.Numbered) :
    (SyntaxTree.ofUnit unit).size = (SyntaxTree.ofUnit unit).walk.length := by
  rw [← unit.map_node_entries, SyntaxTree.ofUnit_eq, SyntaxTree.size,
    Table.size_addAll_empty (SyntaxTree.map_fst_numbered unit ▸ hu), List.length_map,
    List.length_map]

theorem node?_eq_some_iff (hu : unit.Numbered) {id : NodeId} :
    (SyntaxTree.ofUnit unit).node? id = some n ↔ n ∈ (SyntaxTree.ofUnit unit).walk ∧ n.id = id := by
  constructor
  · exact SyntaxTree.of_node?_eq_some
  · rintro ⟨h, rfl⟩
    obtain ⟨around, hn⟩ := Lineage.mem_walk_iff.mp h
    exact hn.node?_eq hu

theorem parent?_eq_some_iff (hu : unit.Numbered) (hc : c ∈ (SyntaxTree.ofUnit unit).walk) :
    (SyntaxTree.ofUnit unit).parent? c.id = some p ↔
      p ∈ (SyntaxTree.ofUnit unit).walk ∧ c ∈ p.children := by
  constructor
  · intro h
    obtain ⟨around, hc⟩ := Lineage.mem_walk_iff.mp hc
    rw [hc.parent?_eq hu] at h
    obtain ⟨outer, rfl⟩ := List.head?_eq_some_iff.mp h
    obtain ⟨hp, hChild⟩ := hc.parent
    exact ⟨Lineage.mem_walk_iff.mpr ⟨outer, hp⟩, hChild⟩
  · rintro ⟨hp, hChild⟩
    obtain ⟨outer, hp⟩ := Lineage.mem_walk_iff.mp hp
    exact (hp.child hChild).parent?_eq hu

theorem parent?_eq_none_iff (hu : unit.Numbered) (hc : c ∈ (SyntaxTree.ofUnit unit).walk) :
    (SyntaxTree.ofUnit unit).parent? c.id = none ↔ ∃ d ∈ unit.decls, c = .decl d := by
  constructor
  · intro h
    obtain ⟨around, hc⟩ := Lineage.mem_walk_iff.mp hc
    rw [hc.parent?_eq hu, List.head?_eq_none_iff] at h
    subst h
    cases hc with
    | top hd => exact ⟨_, hd, rfl⟩
  · rintro ⟨d, hd, rfl⟩
    exact (Lineage.top hd).parent?_eq hu

/-- The way up from any number ends. -/
theorem yields_ancestors (hu : unit.Numbered) (id : NodeId) :
    Yields Ancestors.next? ⟨.ofUnit unit, id⟩ ((SyntaxTree.ofUnit unit).ancestors id) := by
  cases hParent : (SyntaxTree.ofUnit unit).parent? id with
  | some p =>
    obtain ⟨c, hc, rfl⟩ := SyntaxTree.exists_of_parent?_eq_some hParent
    exact (lineage_ancestors hu hc).yields_ancestors hu
  | none =>
    have hDone : Yields Ancestors.next? ⟨.ofUnit unit, id⟩ [] :=
      .done (Option.map_eq_none_iff.mpr hParent)
    rw [SyntaxTree.ancestors, Ancestors.take_eq hDone (Nat.zero_le _)]
    exact hDone

theorem mem_descendants_iff_mem_ancestors (hu : unit.Numbered) {a d : Node}
    (ha : a ∈ (SyntaxTree.ofUnit unit).walk) (hd : d ∈ (SyntaxTree.ofUnit unit).walk) :
    d ∈ a.descendants ↔ a ∈ (SyntaxTree.ofUnit unit).ancestors d.id := by
  constructor
  · intro h
    obtain ⟨inner, hWay⟩ := (lineage_ancestors hu ha).of_mem_descendants h
    rw [hWay.ancestors_eq hu]
    exact List.mem_append_right inner List.mem_cons_self
  · intro h
    obtain ⟨inner, outer, hAround⟩ := List.append_of_mem h
    have hWay := lineage_ancestors hu hd
    rw [hAround] at hWay
    exact hWay.outward.2

theorem nodup_descendants (hu : unit.Numbered) (h : n ∈ (SyntaxTree.ofUnit unit).walk) :
    n.descendants.Nodup := by
  have hWalk := hu.nodup_walk
  rw [SyntaxTree.walk_ofUnit] at h hWalk
  obtain ⟨d, hd, hn⟩ := List.mem_flatMap.mp h
  have hTop : (Node.decl d).descend.Sublist (unit.decls.flatMap fun d => (Node.decl d).descend) := by
    rw [List.flatMap_def]
    exact List.sublist_flatten_of_mem (List.mem_map_of_mem hd)
  have hBelow : n.descendants.Sublist n.descend := by
    rw [n.descend_eq]
    exact List.sublist_cons_self _ _
  exact hWalk.sublist ((hBelow.trans (Node.descend_sublist hn)).trans hTop)

/-- In a unit without a number twice, going up and going down are inverse to each other, and every
look-up finds the node it is about. -/
theorem navigable_of_numbered (hu : unit.Numbered) : (SyntaxTree.ofUnit unit).Navigable where
  mem_walk _ := Lineage.mem_walk_iff
  nodup_walk := hu.nodup_walk
  walk_recursive := ⟨SyntaxTree.walk_ofUnit unit, Node.descend_eq_cons⟩
  walk_yielded := Descendants.yields_toList _
  size_eq := size_eq_length_walk hu
  node?_eq _ _ := node?_eq_some_iff hu
  parent?_eq _ hc _ := parent?_eq_some_iff hu hc
  parent?_eq_none _ hc := parent?_eq_none_iff hu hc
  lineage _ h := lineage_ancestors hu h
  ancestors_yielded := yields_ancestors hu
  descendants_yielded _ := Descendants.yields_toList _
  mem_descendants _ ha _ hd := mem_descendants_iff_mem_ancestors hu ha hd
  nodup_descendants _ h := nodup_descendants hu h

end Numbered

/-- `class C{int M()=>-1;}` -/
def oneMethod : CompilationUnit :=
  let minusOne : Expr := ⟨1, .unary .neg ⟨0, .int 1 none, ⟨18, 19⟩⟩, ⟨17, 19⟩⟩
  let method : MethodDecl :=
    ⟨[], ⟨.predefined .int, ⟨8, 11⟩⟩, "M", ⟨12, 13⟩, [], [], some (.expr minusOne)⟩
  ⟨[⟨3, .typeDecl ⟨.classType, "C", ⟨6, 7⟩, [], [], [], [⟨2, .method method, ⟨8, 20⟩⟩]⟩, ⟨0, 21⟩⟩],
    ⟨0, 21⟩⟩

theorem navigable_oneMethod : oneMethod.Numbered ∧ (SyntaxTree.ofUnit oneMethod).size = 4 ∧
    (SyntaxTree.ofUnit oneMethod).Navigable := by
  have hu : oneMethod.Numbered := by
    unfold CompilationUnit.Numbered
    decide +kernel
  exact ⟨hu, by decide +kernel, navigable_of_numbered hu⟩

end Stackable
