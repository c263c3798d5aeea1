import Mathlib.Data.List.Nodup
import Mathlib.Data.List.Pairwise
import Stackable.Proofs.Model.Binding
import Stackable.Proofs.Parser.Extent

/-!
# Where a constant local is visible

A name that is bound to a constant local comes behind its declaration, and the node around the
declaration is around the use. `Node.blocks` lists the blocks of that node: a `try` has several,
and a statement that is embedded without braces is in none.
-/

set_option autoImplicit false

namespace Stackable

/-- The statements of a block, and all that is written directly in it. -/
structure Block where
  stmts : List Stmt
  content : List Node
  stmt_mem : ∀ st ∈ stmts, .stmt st ∈ content

def Block.ofStmts (body : List Stmt) : Block :=
  ⟨body, body.map .stmt, fun _ h => List.mem_map_of_mem h⟩

/-- The labels of a `switch` stand in its block as well. -/
def Block.ofSections (sections : List (SwitchSection Stmt)) : Block where
  stmts := sections.flatMap (·.body)
  content := sections.flatMap fun s =>
    (s.labels.filterMap fun l => l).map .expr ++ s.body.map .stmt
  stmt_mem st h := by
    obtain ⟨s, hs, h⟩ := List.mem_flatMap.mp h
    exact List.mem_flatMap.mpr ⟨s, hs, List.mem_append_right _ (List.mem_map_of_mem h)⟩

/-- The node is written in the block. -/
def Block.Contains (b : Block) (n : Node) : Prop := n ∈ b.content.flatMap Node.descend

def FnBody.blocks : FnBody → List Block
  | .block body => [.ofStmts body]
  | .expr _ => []

/-- The blocks that a node consists of, in the order in which they are written. -/
def Node.blocks : Node → List Block
  | .member m => ((m.function?.bind (·.body)).map FnBody.blocks).getD []
  | .accessor a => (a.body.map FnBody.blocks).getD []
  | .stmt s =>
    match s.kind with
    | .block body | .unsafeBlock body => [.ofStmts body]
    | .switch _ sections => [.ofSections sections]
    | .tryCatch body catches finish =>
      .ofStmts body :: (catches.map fun c => .ofStmts c.body) ++ (finish.map Block.ofStmts).toList
    | _ => []
  | _ => []

/-- The block that has the statement in its list contains the node. -/
def Node.KeepsTogether (owner : Node) (st : Stmt) (n : Node) : Prop :=
  ∃ b ∈ owner.blocks, st ∈ b.stmts ∧ b.Contains n

/-- The node stands in a later block than the statement. -/
def Node.Separates (owner : Node) (st : Stmt) (n : Node) : Prop :=
  ∃ b b', [b, b'].Sublist owner.blocks ∧ st ∈ b.stmts ∧ b'.Contains n

theorem FnBody.nodes_eq_blocks {b : Option FnBody} (h : (b.map FnBody.blocks).getD [] ≠ []) :
    (b.map FnBody.nodes).getD [] =
      ((b.map FnBody.blocks).getD []).flatMap (·.content) := by
  match b, h with
  | some (.block body), _ => simp [nodes, blocks, Block.ofStmts]

/-- The blocks of a node come last, in front of them only a header. -/
theorem Node.children_eq_blocks {n : Node} (h : n.blocks ≠ []) :
    ∃ header, n.children = header ++ n.blocks.flatMap (·.content) := by
  cases n with
  | decl | declarator | expr => exact absurd rfl h
  | accessor a => exact ⟨[], FnBody.nodes_eq_blocks h⟩
  | member m =>
    obtain ⟨id, kind, span⟩ := m
    cases kind with
    | method d => exact ⟨_, congrArg (_ ++ ·) (FnBody.nodes_eq_blocks h)⟩
    | constructor d => exact ⟨_, congrArg (_ ++ ·) (FnBody.nodes_eq_blocks h)⟩
    | _ => exact absurd rfl h
  | stmt s =>
    obtain ⟨id, kind, span⟩ := s
    cases kind with
    | block body => exact ⟨[], by simp [children, StmtKind.nodes, blocks, Block.ofStmts]⟩
    | unsafeBlock body => exact ⟨[], by simp [children, StmtKind.nodes, blocks, Block.ofStmts]⟩
    | switch subject sections =>
      exact ⟨[.expr subject], by simp [children, StmtKind.nodes, blocks, Block.ofSections]⟩
    | tryCatch body catches finish =>
      refine ⟨[], ?_⟩
      cases finish <;> simp [children, StmtKind.nodes, blocks, Block.ofStmts, List.flatMap_map]
    | _ => exact absurd rfl h

section Source

variable {source : List Char} {owner n : Node} {st : Stmt}

/-- In a source, what follows a statement of a block is in the block or in a later one. -/
theorem contains_or_separates (ho : owner ∈ (SyntaxTree.ofUnit (parseSource source).1).walk)
    {b : Block} (hb : b ∈ owner.blocks) (hst : st ∈ b.stmts) (hn : n ∈ owner.descendants)
    (hLater : st.span.start < n.span.stop) : b.Contains n ∨ owner.Separates st n := by
  obtain ⟨earlier, later, hBlocks⟩ := List.append_of_mem hb
  obtain ⟨header, hChildren⟩ := Node.children_eq_blocks (List.ne_nil_of_mem hb)
  rw [hBlocks, List.flatMap_append, List.flatMap_cons, ← List.append_assoc] at hChildren
  obtain ⟨c, hc, hnc⟩ := Node.mem_descendants.mp hn
  have hcWalk : c ∈ (SyntaxTree.ofUnit (parseSource source).1).walk := by
    obtain ⟨around, h⟩ := Lineage.mem_walk_iff.mp ho
    exact Lineage.mem_walk_iff.mpr ⟨_, h.child hc⟩
  rw [hChildren] at hc
  rcases List.mem_append.mp hc with hFront | hc
  -- what is in front of the block ends before the statement starts
  · have hStmt : .stmt st ∈ b.content ++ later.flatMap (·.content) :=
      List.mem_append_left _ (b.stmt_mem st hst)
    have hOrder : c.span.stop ≤ st.span.start := span_children ho hChildren hFront hStmt
    have hInside := (span_of_mem_descend hcWalk hnc).2
    omega
  · rcases List.mem_append.mp hc with hc | hc
    · exact .inl (List.mem_flatMap.mpr ⟨c, hc, hnc⟩)
    · obtain ⟨b', hb', hc⟩ := List.mem_flatMap.mp hc
      refine .inr ⟨b, b', ?_, hst, List.mem_flatMap.mpr ⟨c, hc, hnc⟩⟩
      rw [hBlocks]
      exact List.Sublist.trans ((List.singleton_sublist.mpr hb').cons_cons b)
        (List.sublist_append_right _ _)

theorem pairwise_disjoint_blocks (ho : owner ∈ (SyntaxTree.ofUnit (parseSource source).1).walk) :
    owner.blocks.Pairwise fun b b' => List.Disjoint (numbersOf b.content) (numbersOf b'.content) := by
  by_cases hBlocks : owner.blocks = []
  · rw [hBlocks]
    exact .nil
  obtain ⟨header, hChildren⟩ := Node.children_eq_blocks hBlocks
  obtain ⟨_, _, start, rest, place, _⟩ := placed_of_mem_source ho
  have hNodup : (numbersOf owner.children).Nodup := place.below.nodup
  rw [hChildren, numbersOf_append, numbersOf_flatMap] at hNodup
  exact (List.nodup_flatMap.mp (List.nodup_append.mp hNodup).2.1).2

theorem Block.Contains.number_mem {b : Block} (h : b.Contains n) : n.id ∈ numbersOf b.content :=
  List.mem_map_of_mem h

theorem not_keepsTogether_of_separates
    (ho : owner ∈ (SyntaxTree.ofUnit (parseSource source).1).walk) (h : owner.Separates st n) :
    ¬owner.KeepsTogether st n := by
  rintro ⟨b, hb, hst, hn⟩
  obtain ⟨first, second, hSub, hst', hn'⟩ := h
  have hDisjoint := pairwise_disjoint_blocks ho
  have hApart := hDisjoint.forall_sublist hSub
  have mem : ∀ c : Block, st ∈ c.stmts → st.id ∈ numbersOf c.content := fun c hc =>
    Block.Contains.number_mem (n := .stmt st)
      (List.mem_flatMap.mpr ⟨.stmt st, c.stmt_mem st hc, Node.mem_descend_self _⟩)
  -- two blocks with the statement are the same one, since its number is in one block only
  by_cases hEq : b = first
  · subst hEq
    exact hApart hn.number_mem hn'.number_mem
  · have hFirst : first ∈ owner.blocks := hSub.subset (by simp)
    have : Std.Symm fun b b' : Block =>
        List.Disjoint (numbersOf b.content) (numbersOf b'.content) := ⟨fun _ _ h _ hx hy => h hy hx⟩
    exact hDisjoint.forall hb hFirst hEq (mem b hst) (mem first hst')

theorem keepsTogether_iff (ho : owner ∈ (SyntaxTree.ofUnit (parseSource source).1).walk)
    (hn : n ∈ owner.descendants) (hLater : st.span.start < n.span.stop) :
    owner.KeepsTogether st n ↔ (∃ b ∈ owner.blocks, st ∈ b.stmts) ∧ ¬owner.Separates st n := by
  constructor
  · intro h
    obtain ⟨b, hb, hst, _⟩ := id h
    exact ⟨⟨b, hb, hst⟩, fun hs => not_keepsTogether_of_separates ho hs h⟩
  · rintro ⟨⟨b, hb, hst⟩, hNot⟩
    rcases contains_or_separates ho hb hst hn hLater with hb' | hs
    · exact ⟨b, hb, hst, hb'⟩
    · exact absurd hs hNot

end Source

namespace Model

theorem isConstLocal_iff {unit : CompilationUnit} (hu : unit.Numbered) {d : Declarator}
    {around : List Node} (h : Lineage unit (.declarator d) around) :
    (Model.ofUnit unit).isConstLocal d = true ↔
      ∃ st l above, around = .stmt st :: above ∧ st.kind = .localDecl l ∧ l.isConst = true := by
  have hParent : (Model.ofUnit unit).tree.parent? d.id = around.head? :=
    h.parent?_eq hu
  unfold isConstLocal
  rw [hParent]
  constructor
  · intro hConst
    split at hConst
    next id l span hHead =>
      obtain ⟨above, rfl⟩ := List.head?_eq_some_iff.mp hHead
      exact ⟨⟨id, .localDecl l, span⟩, l, above, rfl, rfl, hConst⟩
    next => cases hConst
  · rintro ⟨⟨id, kind, span⟩, l, above, rfl, rfl, hConst⟩
    exact hConst

theorem inScope_elim {unit : CompilationUnit} (hu : unit.Numbered) {d : Declarator} {u : Expr}
    {aroundD aroundU : List Node} (hd : Lineage unit (.declarator d) aroundD)
    (hUse : Lineage unit (.expr u) aroundU) (h : (Model.ofUnit unit).inScope d u.id = true) :
    d.span.stop ≤ u.span.start ∧ ∃ st owner above, aroundD = st :: owner :: above ∧
      .expr u ∈ owner.descendants := by
  have hAncestors : (Model.ofUnit unit).tree.ancestors u.id = aroundU := hUse.ancestors_eq hu
  have hNode : (Model.ofUnit unit).tree.node? u.id = some (.expr u) := hUse.node?_eq hu
  rw [inScope, scope?_eq hu hd, hAncestors, hNode] at h
  match aroundD, h with
  | st :: owner :: above, h =>
    rw [List.getElem?_cons_succ, List.getElem?_cons_zero] at h
    rw [Bool.and_eq_true, decide_eq_true_iff, List.any_eq_true] at h
    obtain ⟨hOrder, x, hx, hid⟩ := h
    refine ⟨hOrder, st, owner, above, rfl, ?_⟩
    obtain ⟨before, after, rfl⟩ := List.append_of_mem hx
    obtain ⟨hLineage, hBelow⟩ := hUse.outward
    obtain ⟨rfl, _⟩ := hLineage.unique hu hd.parent.1.parent.1 (eq_of_beq hid)
    exact hBelow

theorem exists_function_of_constLocal {unit : CompilationUnit} (hu : unit.Numbered) {u : Expr}
    {name : String} {around : List Node} (hUse : Lineage unit (.expr u) around) {d : Declarator}
    (h : (Model.ofUnit unit).bindSimple u.id name = .constLocal d) :
    ∃ inner member outer f, around = inner ++ .member member :: outer ∧
      member.function? = some f ∧
      (Model.ofUnit unit).bindLocal? f u.id name = some (.constLocal d) := by
  have hAround : (Model.ofUnit unit).tree.ancestors u.id = around := hUse.ancestors_eq hu
  obtain ⟨x, hx, f, hf, hLocal⟩ := bindSimple_eq_constLocal h
  rw [hAround] at hx
  obtain ⟨inner, outer, rfl⟩ := List.append_of_mem hx
  cases x with
  | member member => exact ⟨inner, member, outer, f, rfl, hf, hLocal⟩
  | _ => cases hf

theorem exists_declaration_of_constLocal {unit : CompilationUnit} (hu : unit.Numbered) {u : Expr}
    {name : String} {around : List Node} (hUse : Lineage unit (.expr u) around)
    (hName : u.kind = .ident name) {d : Declarator}
    (h : (Model.ofUnit unit).bind u = .constLocal d) :
    ∃ inner member outer st l rest, around = inner ++ .member member :: outer ∧
      member.function?.isSome ∧ .declarator d ∈ (Node.member member).descendants ∧
      d.name = name ∧ (∀ x ∈ (Node.member member).descendants, Introduces x name →
        x = .declarator d) ∧
      Lineage unit (.declarator d) (.stmt st :: rest) ∧ st.kind = .localDecl l ∧
      l.isConst = true ∧ (Model.ofUnit unit).inScope d u.id = true := by
  rw [bind_ident hName] at h
  obtain ⟨inner, member, outer, f, rfl, hFunction, hLocal⟩ :=
    exists_function_of_constLocal hu hUse h
  have hSome : member.function?.isSome := by
    rw [hFunction]
    rfl
  obtain ⟨hOne, hScope⟩ := bindLocal?_eq_constLocal hLocal
  rw [member.member_of_function? hFunction] at hOne
  obtain ⟨hMem, hd, hConst, hOnly⟩ := localDeclarations_eq_constant hSome hOne
  obtain ⟨nearer, hLineage⟩ := hUse.outward.1.of_mem_descendants hMem
  obtain ⟨st, l, rest, hStmt, hKind, hIsConst⟩ := (isConstLocal_iff hu hLineage).mp hConst
  rw [hStmt] at hLineage
  exact ⟨inner, member, outer, st, l, rest, rfl, hSome, hMem, hd, hOnly, hLineage, hKind, hIsConst,
    hScope⟩

/-- A name that is bound to a constant local follows its declaration, which is the only one below
the function, so that it is the only one unless the initializer of a constructor has another. The
block with the declaration contains the use exactly if the declaration is in the statement list of
a block, and the use is not in a later block of the same statement. -/
theorem constLocal_in_block_iff (source : List Char) (u : Expr) (name : String)
    (around : List Node) (d : Declarator)
    (hUse : Lineage (parseSource source).1 (.expr u) around) (hName : u.kind = .ident name)
    (hBind : (Model.ofUnit (parseSource source).1).bind u = .constLocal d) :
    ∃ inner member outer st l owner above, around = inner ++ .member member :: outer ∧
      member.function?.isSome ∧ .declarator d ∈ (Node.member member).descendants ∧
      d.name = name ∧
      Lineage (parseSource source).1 (.declarator d) (.stmt st :: owner :: above) ∧
      st.kind = .localDecl l ∧ l.isConst = true ∧
      d.span.stop ≤ u.span.start ∧
      ((∀ x ∈ (Node.member member).descend, Introduces x name → x = .declarator d) ↔
        ¬Introduces (.member member) name) ∧
      (owner.KeepsTogether st (.expr u) ↔
        (∃ b ∈ owner.blocks, st ∈ b.stmts) ∧ ¬owner.Separates st (.expr u)) := by
  have hu := numbered_parseSource source
  obtain ⟨inner, member, outer, st, l, rest, rfl, hSome, hMem, hd, hOnly, hLineage, hKind, hIsConst,
    hScope⟩ := exists_declaration_of_constLocal hu hUse hName hBind
  obtain ⟨hOrder, x, owner, above, hAround, hBelow⟩ := inScope_elim hu hLineage hUse hScope
  obtain ⟨rfl, rfl⟩ := List.cons.inj hAround
  refine ⟨inner, member, outer, st, l, owner, above, rfl, hSome, hMem, hd, hLineage, hKind,
    hIsConst, hOrder, ⟨fun h hi => ?_, fun h x hx hi => ?_⟩, ?_⟩
  · exact absurd (h _ (Node.mem_descend_self _) hi) (by simp)
  · rcases Node.mem_descend_iff.mp hx with rfl | hx
    · exact absurd hi h
    · exact hOnly x hx hi
  · obtain ⟨hStmt, hInStmt⟩ := hLineage.parent
    have hOwner := hStmt.parent.1
    refine keepsTogether_iff (Lineage.mem_walk_iff.mpr ⟨_, hOwner⟩) hBelow ?_
    -- the statement starts with its declarator at the latest, and that ends before the use
    have hInside := (span_of_mem_descend (Lineage.mem_walk_iff.mpr ⟨_, hStmt⟩)
      (Node.children_mem_descend (Node.mem_descend_self _) hInStmt)).1
    have hWidth := span_start_lt_stop (Lineage.mem_walk_iff.mpr ⟨_, hLineage⟩)
    have hUseWidth := span_start_lt_stop (Lineage.mem_walk_iff.mpr ⟨_, hUse⟩)
    simp only [Node.span] at hInside hWidth hUseWidth ⊢
    omega

/-- The expression of an entry if it is bound to a constant local, and the local. -/
def constLocalUse? (unit : CompilationUnit) (e : Entry) : Option (Expr × Declarator) :=
  match e.node with
  | .expr u =>
    match (Model.ofUnit unit).bind u with
    | .constLocal d => some (u, d)
    | _ => none
  | _ => none

theorem bind_of_constLocalUse? {unit : CompilationUnit} {u u' : Expr} {around : List Node}
    {d : Declarator} (h : constLocalUse? unit ⟨.expr u, around⟩ = some (u', d)) :
    u' = u ∧ (Model.ofUnit unit).bind u = .constLocal d := by
  simp only [constLocalUse?] at h
  split at h
  next hBind =>
    cases h
    exact ⟨rfl, hBind⟩
  next => cases h

def constantAbove : List Char :=
  "class C{void M(bool c){const int N=4;if(c){var b=new byte[N];}}}".toList

set_option maxRecDepth 10000 in
theorem constLocal_in_block_above : ∃ u around d st owner above,
    Lineage (parseSource constantAbove).1 (.expr u) around ∧ u.kind = .ident "N" ∧
    (Model.ofUnit (parseSource constantAbove).1).bind u = .constLocal d ∧
    Lineage (parseSource constantAbove).1 (.declarator d) (.stmt st :: owner :: above) ∧
    d.span.stop ≤ u.span.start ∧
    (owner.KeepsTogether st (.expr u) ↔
      (∃ b ∈ owner.blocks, st ∈ b.stmts) ∧ ¬owner.Separates st (.expr u)) := by
  obtain ⟨u, inner, outer, member, f, hUse, _, hName, h⟩ :=
    exists_use (parseSource constantAbove).1 "N"
      (fun e => (constLocalUse? (parseSource constantAbove).1 e).isSome) (by decide +kernel)
  obtain ⟨⟨u', d⟩, h⟩ := Option.isSome_iff_exists.mp h
  have hBind := (bind_of_constLocalUse? h).2
  obtain ⟨_, _, _, st, _, owner, above, _, _, _, _, hLineage, _, _, hOrder, _, hBlock⟩ :=
    constLocal_in_block_iff constantAbove u "N" _ d hUse hName hBind
  exact ⟨u, _, d, st, owner, above, hUse, hName, hBind, hLineage, hOrder, hBlock⟩

def constantInTry : List Char :=
  "class C{void M(){try{const int N=4;}finally{var b=new byte[N];}}}".toList

/-- No block around the declaration has both its statement and the use. -/
def isSeparated (unit : CompilationUnit) (e : Entry) : Bool :=
  match constLocalUse? unit e with
  | some (u, d) =>
    match (SyntaxTree.ofUnit unit).ancestors d.id with
    | .stmt st :: owner :: _ => !owner.blocks.any fun b =>
      b.stmts.any (·.id == st.id) && (b.content.flatMap Node.descend).any (·.id == u.id)
    | _ => false
  | none => false

set_option maxRecDepth 10000 in
/-- The blocks of a `try` have one node around them: a constant of the first is taken for visible
in the others. -/
theorem constLocal_in_other_block : (parseSource constantInTry).2 = [] ∧
    ∃ u around d st owner above,
      Lineage (parseSource constantInTry).1 (.expr u) around ∧ u.kind = .ident "N" ∧
      (Model.ofUnit (parseSource constantInTry).1).bind u = .constLocal d ∧
      Lineage (parseSource constantInTry).1 (.declarator d) (.stmt st :: owner :: above) ∧
      ¬owner.KeepsTogether st (.expr u) := by
  refine ⟨by decide +kernel, ?_⟩
  obtain ⟨u, inner, outer, member, f, hUse, _, hName, h⟩ :=
    exists_use (parseSource constantInTry).1 "N" (isSeparated (parseSource constantInTry).1)
      (by decide +kernel)
  have hu := numbered_parseSource constantInTry
  unfold isSeparated at h
  split at h
  next u' d hOf =>
    obtain ⟨rfl, hBind⟩ := bind_of_constLocalUse? hOf
    obtain ⟨_, _, _, st, _, rest, _, _, _, _, _, hLineage, _⟩ :=
      exists_declaration_of_constLocal hu hUse hName hBind
    have hAncestors : (SyntaxTree.ofUnit (parseSource constantInTry).1).ancestors d.id =
      .stmt st :: rest := hLineage.ancestors_eq hu
    rw [hAncestors] at h
    split at h
    next st' owner above hAround =>
      obtain ⟨hst, rfl⟩ := List.cons.inj hAround
      cases hst
      refine ⟨u', _, d, st, owner, above, hUse, hName, hBind, hLineage, ?_⟩
      rintro ⟨b, hb, hst, hn⟩
      have hNone : ¬(owner.blocks.any fun b => b.stmts.any (·.id == st.id) &&
          (b.content.flatMap Node.descend).any (·.id == u'.id)) = true := by simpa using h
      refine hNone (List.any_eq_true.mpr ⟨b, hb, ?_⟩)
      rw [Bool.and_eq_true, List.any_eq_true, List.any_eq_true]
      exact ⟨⟨st, hst, beq_self_eq_true _⟩, .expr u', hn, beq_self_eq_true u'.id⟩
    next => cases h
  next => cases h

end Model

end Stackable
