import Stackable.Proofs.Isolation.Tree
import Stackable.Proofs.Model.Evaluation

/-!
# What names mean outside a changed function

The symbols of a unit do not depend on bodies, and a name outside the function is looked up in
another function and in the types around it. So it is bound to the same declaration before and
after a change, and that declaration is outside again: the values of constants follow.
-/

set_option autoImplicit false

namespace Stackable

namespace Outside

variable {unit : CompilationUnit} {id : NodeId} {e x : Expr} {d : Declarator} {around : List Node}

theorem operand (h : Outside unit id (.expr e) around) (hx : x ∈ e.kind.operands) :
    Outside unit id (.expr x) (.expr e :: around) :=
  h.child (Node.isNot_of_isCode rfl) (List.mem_map_of_mem hx)

theorem unparenthesized (h : Outside unit id (.expr e) around) :
    ∃ around, Outside unit id (.expr e.unparenthesized) around := by
  fun_induction Expr.unparenthesized e generalizing around with
  | case1 id inner span ih => exact ih (h.operand List.mem_cons_self)
  | case2 e => exact ⟨around, h⟩

theorem initial {i : Initializer} (h : Outside unit id (.declarator d) around) (hi : d.init = some i) :
    Outside unit id (.expr i.value) (.declarator d :: around) := by
  apply h.child (Node.isNot_of_isCode rfl)
  simp [Node.children, hi]

/-- A constant that a name outside the function refers to is outside as well. -/
theorem of_bindsConstant (hu : unit.Numbered) (h : Outside unit id (.expr e) around)
    (hd : (Model.ofUnit unit).BindsConstant e d) : ∃ around, Outside unit id (.declarator d) around := by
  rcases hd with hd | hd
  · obtain ⟨name, _, x, hx, f, hf, hLocal⟩ := Model.exists_function_of_bind hd
    obtain ⟨outer, hUse⟩ := h.unparenthesized
    have hAround : (Model.ofUnit unit).tree.ancestors e.unparenthesized.id = outer :=
      hUse.lineage.ancestors_eq hu
    rw [hAround] at hx
    obtain ⟨inner, outer, rfl⟩ := List.append_of_mem hx
    obtain ⟨hFunction, hNot⟩ := hUse.outward
    cases x with
    | member member =>
      have hSome : member.function?.isSome := Option.isSome_iff_exists.mpr ⟨f, hf⟩
      have hOne := (Model.bindLocal?_eq_constLocal hLocal).1
      rw [member.member_of_function? hf] at hOne
      exact hFunction.below hSome hNot (Model.localDeclarations_eq_constant hSome hOne).1
    | _ => cases hf
  · obtain ⟨x, t, outer, hx, ht, hField⟩ := Model.exists_type_of_constField hd
    have hType : x.typeDecl?.isSome := Option.isSome_iff_exists.mpr ⟨t, ht⟩
    obtain ⟨member, hNone, hMember, hDeclarator⟩ := Model.exists_field_of_hasField ht hField
    have hNot : (Node.member member).IsNot id := by
      intro hf
      rw [show (Node.member member).function? = none from hNone] at hf
      cases hf
    exact ⟨_, ((Outside.of_typeDecl? hx hType).child (Node.isNot_of_typeDecl? hType) hMember).child
      hNot hDeclarator⟩

end Outside

namespace BodyChange

variable {u : CompilationUnit} {c : BodyChange}

theorem findType?_unit (path : List String) :
    (Model.ofUnit (c.unit u)).findType? path = (Model.ofUnit u).findType? path := by
  unfold Model.findType? Model.ofUnit
  dsimp only
  rw [c.symbols_unit]

theorem resolveType_unit (t : TypeRef) :
    (Model.ofUnit (c.unit u)).resolveType t = (Model.ofUnit u).resolveType t := by
  obtain ⟨kind, span⟩ := t
  cases kind with
  | predefined p => rfl
  | named path args => simp only [Model.resolveType, Model.resolveName, findType?_unit]
  | array element ranks => simp only [Model.resolveType, resolveType_unit element]
  | pointer inner => simp only [Model.resolveType, resolveType_unit inner]
  | nullable inner => simp only [Model.resolveType, resolveType_unit inner]

/-- The fields of a type are no methods. -/
theorem fieldBinding?_map (ms : List Member) (name : String) :
    Model.fieldBinding? (ms.map c.member) name = Model.fieldBinding? ms name := by
  unfold Model.fieldBinding?
  rw [List.findSome?_map]
  apply congrArg (List.findSome? · ms)
  funext m
  obtain ⟨id, kind, span⟩ := m
  cases kind <;> rfl

section Numbered

variable (hu : u.Numbered) (hw : (c.unit u).Numbered)
include hu hw

/-- A number leads to a type before the change exactly if it does so behind it. -/
theorem typeAt_unit (id : NodeId) :
    ((SyntaxTree.ofUnit (c.unit u)).node? id).bind Node.typeDecl? =
      (((SyntaxTree.ofUnit u).node? id).bind Node.typeDecl?).map c.typeDecl := by
  apply Option.ext
  intro t
  constructor
  · intro h
    obtain ⟨n, hn, ht⟩ := Option.bind_eq_some_iff.mp h
    obtain ⟨hWalk, rfl⟩ := (node?_eq_some_iff hw).mp hn
    obtain ⟨around, hn⟩ := Lineage.mem_walk_iff.mp hWalk
    have hType : n.typeDecl?.isSome := Option.isSome_iff_exists.mpr ⟨t, ht⟩
    obtain ⟨m, outer, hm, rfl, rfl⟩ := exists_outside (Outside.of_typeDecl? hn hType)
    have hm : (SyntaxTree.ofUnit u).node? m.id = some m :=
      (node?_eq_some_iff hu).mpr ⟨Lineage.mem_walk_iff.mpr ⟨_, hm.lineage⟩, rfl⟩
    rw [c.node_id, hm, Option.bind_some, ← c.typeDecl?_node, ht]
  · intro h
    obtain ⟨s, hs, rfl⟩ := Option.map_eq_some_iff.mp h
    obtain ⟨n, hn, ht⟩ := Option.bind_eq_some_iff.mp hs
    obtain ⟨hWalk, rfl⟩ := (node?_eq_some_iff hu).mp hn
    obtain ⟨around, hn⟩ := Lineage.mem_walk_iff.mp hWalk
    have hType : n.typeDecl?.isSome := Option.isSome_iff_exists.mpr ⟨s, ht⟩
    have hThere := outside_unit (c := c) (Outside.of_typeDecl? hn hType)
    have hNode : (SyntaxTree.ofUnit (c.unit u)).node? n.id = some (c.node n) :=
      (node?_eq_some_iff hw).mpr ⟨Lineage.mem_walk_iff.mpr ⟨_, hThere.lineage⟩, c.node_id n⟩
    rw [hNode, Option.bind_some, c.typeDecl?_node, ht]
    rfl

theorem bindQualified_unit (path : List String) (name : String) :
    (Model.ofUnit (c.unit u)).bindQualified path name =
      (Model.ofUnit u).bindQualified path name := by
  have hType : ∀ id, ((Model.ofUnit (c.unit u)).tree.node? id).bind Node.typeDecl? =
      (((Model.ofUnit u).tree.node? id).bind Node.typeDecl?).map c.typeDecl := typeAt_unit hu hw
  unfold Model.bindQualified
  rw [findType?_unit]
  simp only [hType]
  cases (Model.ofUnit u).findType? path with
  | none => rfl
  | some s =>
    dsimp only [Option.bind_some]
    cases ((Model.ofUnit u).tree.node? s.node).bind Node.typeDecl? with
    | none => rfl
    | some t =>
      rw [Option.map_some, Option.bind_some, Option.bind_some, c.typeDecl_members, fieldBinding?_map]

theorem ancestors_unit {n : Node} {around : List Node} (h : Outside u c.target n around) :
    (SyntaxTree.ofUnit (c.unit u)).ancestors n.id =
      ((SyntaxTree.ofUnit u).ancestors n.id).map c.node := by
  have hThere := (outside_unit h).lineage.ancestors_eq hw
  rw [c.node_id] at hThere
  rw [hThere, h.lineage.ancestors_eq hu]

theorem isConstLocal_unit {d : Declarator} {around : List Node}
    (h : Outside u c.target (.declarator d) around) :
    (Model.ofUnit (c.unit u)).isConstLocal d = (Model.ofUnit u).isConstLocal d := by
  have hThere : (Model.ofUnit (c.unit u)).tree.parent? d.id = (around.map c.node).head? :=
    (outside_unit h).lineage.parent?_eq hw
  have hHere : (Model.ofUnit u).tree.parent? d.id = around.head? := h.lineage.parent?_eq hu
  unfold Model.isConstLocal
  rw [hThere, hHere, List.head?_map]
  cases around.head? with
  | none => rfl
  | some n => cases n <;> rfl

theorem declaredBy_unit {n : Node} {around : List Node} (h : Outside u c.target n around)
    (name : String) :
    (Model.ofUnit (c.unit u)).declaredBy name n = (Model.ofUnit u).declaredBy name n := by
  cases n with
  | declarator d => simp only [Model.declaredBy, isConstLocal_unit hu hw h]
  | decl | member | accessor | stmt | expr => rfl

theorem localDeclarations_unit {f : Member} {around : List Node}
    (h : Outside u c.target (.member f) around) (hf : f.function?.isSome)
    (hNot : (Node.member f).IsNot c.target) (name : String) :
    (Model.ofUnit (c.unit u)).localDeclarations f name =
      (Model.ofUnit u).localDeclarations f name := by
  apply List.flatMap_congr
  intro x hx
  obtain ⟨_, hx⟩ := h.below hf hNot hx
  exact declaredBy_unit hu hw hx name

theorem inScope_unit {d : Declarator} {e : Expr} {around outer : List Node}
    (hd : Outside u c.target (.declarator d) around) (he : Outside u c.target (.expr e) outer) :
    (Model.ofUnit (c.unit u)).inScope d e.id = (Model.ofUnit u).inScope d e.id := by
  have hAround : (Model.ofUnit (c.unit u)).tree.ancestors e.id =
      ((Model.ofUnit u).tree.ancestors e.id).map c.node := ancestors_unit hu hw he
  have hUse : (Model.ofUnit u).tree.node? e.id = some (.expr e) := he.lineage.node?_eq hu
  have hUse' : (Model.ofUnit (c.unit u)).tree.node? e.id = some (.expr e) :=
    (outside_unit he).lineage.node?_eq hw
  have hScope : (Model.ofUnit (c.unit u)).scope? d = around[1]?.map c.node := by
    rw [← List.getElem?_map]
    exact Model.scope?_eq hw (outside_unit hd).lineage
  rw [Model.inScope, Model.inScope, hScope, Model.scope?_eq hu hd.lineage, hAround, hUse, hUse']
  cases around[1]? with
  | none => rfl
  | some scope =>
    simp only [Option.map_some, List.any_map, Function.comp_def, c.node_id]

theorem bindLocal?_unit {member : Member} {f : Function} {e : Expr} {around outer : List Node}
    (hm : Outside u c.target (.member member) around) (hNot : (Node.member member).IsNot c.target)
    (hf : member.function? = some f) (he : Outside u c.target (.expr e) outer) (name : String) :
    (Model.ofUnit (c.unit u)).bindLocal? f e.id name = (Model.ofUnit u).bindLocal? f e.id name := by
  have hSome : member.function?.isSome := Option.isSome_iff_exists.mpr ⟨f, hf⟩
  obtain rfl := member.member_of_function? hf
  unfold Model.bindLocal?
  rw [localDeclarations_unit hu hw hm hSome hNot]
  split
  · rfl
  · split
    · rfl
    next d hOne =>
      obtain ⟨hd, _⟩ := Model.localDeclarations_eq_constant hSome hOne
      obtain ⟨_, hd⟩ := hm.below hSome hNot hd
      rw [inScope_unit hu hw hd he]
    · rfl

omit hu hw in
theorem bindField_map (around : List Node) (name : String) :
    Model.bindField (around.map c.node) name = Model.bindField around name := by
  have hTypes : (around.map c.node).filterMap Node.typeDecl? =
      (around.filterMap Node.typeDecl?).map c.typeDecl := by
    rw [List.filterMap_map, List.map_filterMap]
    exact List.filterMap_congr fun n _ => c.typeDecl?_node n
  unfold Model.bindField
  rw [hTypes, List.findSome?_map]
  simp only [Function.comp_def, c.typeDecl_members, fieldBinding?_map]

theorem bindSimple_unit {e : Expr} {around : List Node} (h : Outside u c.target (.expr e) around)
    (name : String) :
    (Model.ofUnit (c.unit u)).bindSimple e.id name = (Model.ofUnit u).bindSimple e.id name := by
  have hAround : (Model.ofUnit u).tree.ancestors e.id = around := h.lineage.ancestors_eq hu
  have hAround' : (Model.ofUnit (c.unit u)).tree.ancestors e.id = around.map c.node :=
    (outside_unit h).lineage.ancestors_eq hw
  have hFunction : (around.map c.node).findSome? Node.function? =
      around.findSome? Node.function? := by
    rw [← List.head?_filterMap, ← List.head?_filterMap, List.filterMap_map]
    exact congrArg List.head? (List.filterMap_congr fun n hn => c.function?_node (h.isNot n hn))
  unfold Model.bindSimple
  dsimp only
  rw [hAround, hAround', hFunction, bindField_map]
  cases hf : around.findSome? Node.function? with
  | none => rfl
  | some f =>
    obtain ⟨x, hx, hOf⟩ := List.exists_of_findSome?_eq_some hf
    obtain ⟨inner, outer, rfl⟩ := List.append_of_mem hx
    obtain ⟨hMember, hNot⟩ := h.outward
    cases x with
    | member member =>
      rw [Option.bind_some, Option.bind_some, bindLocal?_unit hu hw hMember hNot hOf h]
    | _ => cases hOf

theorem bind_unit {e : Expr} {around : List Node} (h : Outside u c.target (.expr e) around) :
    (Model.ofUnit (c.unit u)).bind e = (Model.ofUnit u).bind e := by
  obtain ⟨_, hInner⟩ := h.unparenthesized
  unfold Model.bind
  dsimp only
  split
  · exact bindSimple_unit hu hw hInner _
  · split
    · exact bindQualified_unit hu hw _ _
    · rfl
  · rfl

theorem isConstantReference_unit {e : Expr} {around : List Node}
    (h : Outside u c.target (.expr e) around) :
    (Model.ofUnit (c.unit u)).isConstantReference e = (Model.ofUnit u).isConstantReference e := by
  unfold Model.isConstantReference
  rw [bind_unit hu hw h]

omit hu hw in
/-- An expression outside has one value if the names outside have one. -/
theorem evalWith_unit {f g : Expr → Except Model.Halt ConstValue}
    (hfg : ∀ x around, Outside u c.target (.expr x) around → f x = g x) (e : Expr)
    {around : List Node} (h : Outside u c.target (.expr e) around) :
    (Model.ofUnit (c.unit u)).evalWith f e = (Model.ofUnit u).evalWith g e := by
  obtain ⟨id, kind, span⟩ := e
  cases kind
  case paren inner => exact evalWith_unit hfg inner (h.operand (by simp [ExprKind.operands]))
  case unary op operand =>
    have hx := evalWith_unit hfg operand (h.operand (by simp [ExprKind.operands]))
    simp only [Model.evalWith, hx]
  case binary op left right =>
    have hl := evalWith_unit hfg left (h.operand (by simp [ExprKind.operands]))
    have hr := evalWith_unit hfg right (h.operand (by simp [ExprKind.operands]))
    simp only [Model.evalWith, hl, hr]
  case conditional cond whenTrue whenFalse =>
    have hc := evalWith_unit hfg cond (h.operand (by simp [ExprKind.operands]))
    have ht := evalWith_unit hfg whenTrue (h.operand (by simp [ExprKind.operands]))
    have hf := evalWith_unit hfg whenFalse (h.operand (by simp [ExprKind.operands]))
    simp only [Model.evalWith, hc, ht, hf]
  case cast type operand =>
    have hx := evalWith_unit hfg operand (h.operand (by simp [ExprKind.operands]))
    simp only [Model.evalWith, hx, resolveType_unit]
  case ident name => exact hfg _ around h
  case member object name conditional => exact hfg _ around h
  all_goals rfl

theorem bindsConstant_unit {e : Expr} {d : Declarator} {around : List Node}
    (h : Outside u c.target (.expr e) around) :
    (Model.ofUnit (c.unit u)).BindsConstant e d ↔ (Model.ofUnit u).BindsConstant e d := by
  unfold Model.BindsConstant
  rw [bind_unit hu hw h]

theorem evalName_unit (depth : Nat) (visiting : List NodeId) {e : Expr} {around : List Node}
    (h : Outside u c.target (.expr e) around) :
    (Model.ofUnit (c.unit u)).evalName depth visiting e =
      (Model.ofUnit u).evalName depth visiting e := by
  induction depth using Nat.strong_induction_on generalizing visiting e around with
  | _ depth ih =>
    have hSame := fun d => bindsConstant_unit hu hw (d := d) h
    by_cases hb : ∃ d, (Model.ofUnit u).BindsConstant e d
    · obtain ⟨d, hd⟩ := hb
      have hd' := (hSame d).mpr hd
      by_cases hMem : d.id ∈ visiting
      · rw [Model.evalName_of_mem hd hMem, Model.evalName_of_mem hd' hMem]
      cases hi : d.init with
      | none => rw [Model.evalName_of_no_init hd hMem hi, Model.evalName_of_no_init hd' hMem hi]
      | some init =>
        -- the constant is outside the function, and so is its initial value
        obtain ⟨_, hOutside⟩ := h.of_bindsConstant hu hd
        cases depth with
        | zero => rw [Model.evalName_of_exhausted hd hMem hi, Model.evalName_of_exhausted hd' hMem hi]
        | succ depth =>
          rw [Model.evalName_of_init hd hMem hi, Model.evalName_of_init hd' hMem hi]
          exact evalWith_unit (fun x _ hx => ih depth (Nat.lt_succ_self depth) _ hx) init.value
            (hOutside.initial hi)
    · rw [Model.evalName_of_unbound fun d hd => hb ⟨d, hd⟩,
        Model.evalName_of_unbound fun d hd => hb ⟨d, (hSame d).mp hd⟩]

/-- The bounds on the constants under way differ with the sizes of the trees, and neither is met. -/
theorem evaluate_unit {e : Expr} {around : List Node} (h : Outside u c.target (.expr e) around) :
    (Model.ofUnit (c.unit u)).evaluate e = (Model.ofUnit u).evaluate e := by
  let depth := max (SyntaxTree.ofUnit (c.unit u)).size (SyntaxTree.ofUnit u).size
  have hEq : ((Model.ofUnit (c.unit u)).evaluate e).mapError Model.Halt.refused =
      ((Model.ofUnit u).evaluate e).mapError Model.Halt.refused :=
    calc ((Model.ofUnit (c.unit u)).evaluate e).mapError Model.Halt.refused
      _ = (Model.ofUnit (c.unit u)).evalWith ((Model.ofUnit (c.unit u)).evalName depth []) e :=
        (Model.evalWith_evalName_eq_evaluate (Nat.le_max_left _ _) e).symm
      _ = (Model.ofUnit u).evalWith ((Model.ofUnit u).evalName depth []) e :=
        evalWith_unit (fun x _ hx => evalName_unit hu hw depth [] hx) e h
      _ = ((Model.ofUnit u).evaluate e).mapError Model.Halt.refused :=
        Model.evalWith_evalName_eq_evaluate (Nat.le_max_right _ _) e
  exact Model.mapError_refused_injective hEq

theorem constantValue?_unit {e : Expr} {around : List Node}
    (h : Outside u c.target (.expr e) around) :
    (Model.ofUnit (c.unit u)).constantValue? e = (Model.ofUnit u).constantValue? e := by
  rw [Model.constantValue?, evaluate_unit hu hw h, Model.constantValue?]

end Numbered

end BodyChange

end Stackable
