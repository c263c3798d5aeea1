import Stackable.Proofs.Parser.TypeRef

/-!
# Expressions as they are read

Every expression is laid out over its operands. An operator that is taken into the expression at
hand starts where that expression does.
-/

set_option autoImplicit false

namespace Stackable

open ParseState

namespace Parse

variable {α : Type} {r : Rules} {s t : ParseState}

theorem commaSeparated_yields {loose : Bool} {item : Parse α} (nodes : α → List Node)
    (h : ∀ t, Ends item t fun x u => t.Yields loose u (nodes x)) (s : ParseState) :
    Ends (commaSeparated item) s fun xs t => s.Yields loose t (xs.flatMap nodes) := by
  refine commaSeparated_ends (fun xs t => s.Yields loose t (xs.flatMap nodes))
    (fun _ _ _ hst htu => hst.passes htu) (.refl s) fun xs t hst => ?_
  refine (h t).mono fun x u htu => ?_
  rw [List.flatMap_append, List.flatMap_singleton]
  exact hst.append htu

theorem argumentName_ends (s : ParseState) : Ends argumentName s fun _ t => s.Passes t := by
  unfold argumentName
  simp only [ends_currentKind]
  split
  · simp only [ends_peekKind]
    refine .ite (fun _ => ?_) fun _ => .pure (.refl s)
    refine (advance_passes s).bind fun _ t hst => ?_
    exact (advance_passes t).bind fun _ u htu => .pure (hst.trans htu)
  · exact .pure (.refl s)

theorem argumentModifier_ends (s : ParseState) :
    Ends argumentModifier s fun _ t => s.Passes t := by
  unfold argumentModifier
  simp only [ends_currentKind]
  split
  · exact (advance_passes s).bind fun _ t hst => .pure hst
  · exact .pure (.refl s)

theorem outVariable_ends (hr : r.Orderly) (s : ParseState) :
    Ends (outVariable r) s fun e t => s.Yields false t [.expr e] := by
  unfold outVariable
  refine (type_ends hr s).bind fun _ t hst => ?_
  simp only [ends_currentStart]
  refine (expectName_ends t).bind fun name u htu => ?_
  refine (finishExpr_ends htu.reads).mono fun e v htv => ?_
  exact htv.after hst.toPasses

theorem argument_ends (hr : r.Orderly) (s : ParseState) :
    Ends (argument r) s fun a t => s.Yields false t [.expr a.expr] := by
  unfold argument
  refine (argumentName_ends s).bind fun name t hst => ?_
  refine (argumentModifier_ends t).bind fun modifier u htu => ?_
  simp only [ends_remaining]
  refine .ite (fun _ => ?_) fun _ => ?_
  · exact (outVariable_ends hr u).bind fun e v huv => .pure (huv.after (hst.trans htu))
  · exact (hr.expr u).bind fun e v huv => .pure (huv.after (hst.trans htu))

theorem map_argument (args : List (Argument Expr)) :
    (args.flatMap fun a => [Node.expr a.expr]) = (args.map (·.expr)).map .expr := by
  rw [List.map_map, List.map_eq_flatMap]
  rfl

theorem argumentList_ends (hr : r.Orderly) (close : Punct) (s : ParseState) :
    Ends (argumentList r close) s fun args t =>
      s.Yields false t ((args.map (·.expr)).map .expr) := by
  unfold argumentList
  simp only [ends_check]
  refine .ite (fun _ => .pure (.refl s)) fun _ => ?_
  refine (commaSeparated_yields (fun a => [.expr a.expr]) (argument_ends hr) s).mono
    fun args t hst => ?_
  rwa [map_argument] at hst

theorem arguments_ends (hr : r.Orderly) (s : ParseState) :
    Ends (arguments r) s fun args t => s.Yields false t ((args.map (·.expr)).map .expr) := by
  unfold arguments
  refine (expect_ends .lParen s).bind fun _ t hst => ?_
  refine (argumentList_ends hr .rParen t).bind fun args u htu => ?_
  exact (expect_ends .rParen u).bind fun _ v huv =>
    .pure ((htu.passes huv.toPasses).after hst.toPasses)

theorem initializerElements_ends (hr : r.Orderly) (s : ParseState) :
    Ends (initializerElements r) s fun es t => s.Reads false t (es.map .expr) := by
  unfold initializerElements
  refine (expect_ends .lBrace s).bind fun _ t hst => ?_
  refine (loop_ends (fun es u => t.Yields false u (es.map .expr)) (.refl t) fun es u htu => ?_ :
    Ends _ t fun es u => t.Yields false u (es.map .expr)).bind fun es u htu => ?_
  · simp only [ends_check, ends_atEnd]
    refine .ite (fun _ => .pure htu) fun _ => ?_
    refine (hr.varInitializer u).bind fun e v huv => ?_
    refine (accept_passes .comma v).bind fun b w hvw => ?_
    have htw : t.Yields false w ((es ++ [e]).map .expr) := by
      rw [List.map_append]
      exact (htu.append huv).passes hvw
    exact .ite (fun _ => .pure htw) fun _ => .pure htw
  · refine (expect_ends .rBrace u).bind fun _ v huv => .pure ?_
    have htv := htu.passes huv.toPasses
    exact htv.behind hst

theorem optionalInitializer_ends (hr : r.Orderly) (s : ParseState) :
    Ends (optionalInitializer r) s fun es t => s.Yields false t ((es.getD []).map .expr) := by
  unfold optionalInitializer
  simp only [ends_check]
  refine .ite (fun _ => ?_) fun _ => .pure (.refl s)
  exact (initializerElements_ends hr s).bind fun es t hst => .pure hst.toYields

theorem leaf_ends {kind : ExprKind Expr} (below : s.Yields false t (kind.operands.map .expr))
    (h : t.current.kind.isEof = false) :
    Ends (leaf s.current.span.start kind) t fun e u => s.Yields false u [.expr e] := by
  unfold leaf
  refine (advance_ends t).bind fun _ u hRead => ?_
  obtain ⟨_, _, takes⟩ := hRead
  exact finishExpr_ends (below.takes (takes h))

theorem nameExpr_ends (hr : r.Orderly) (name : String) (h : s.current.kind.isEof = false) :
    Ends (nameExpr r s.current.span.start name) s fun e t => s.Yields false t [.expr e] := by
  unfold nameExpr
  simp only [ends_remaining]
  refine (advance_ends s).bind fun _ t hRead => ?_
  obtain ⟨_, _, takes⟩ := hRead
  refine .optional s.Takes (fun u hsu => finishExpr_ends hsu.reads)
    (fun _ rest => ?_) fun _ => takes h
  exact (typeArgs_ends hr t).bind fun _ u htu => rest u ((takes h).trans htu)

theorem unaryExpr_ends (hr : r.Orderly) (op : UnaryOp) (s : ParseState) :
    Ends (unaryExpr r s.current.span.start op) s fun e t => s.Yields false t [.expr e] := by
  unfold unaryExpr
  refine (advance_passes s).bind fun _ t hst => ?_
  refine (hr.exprAbove _ t).bind fun operand u htu => ?_
  have hsu := htu.after hst
  exact finishExpr_ends hsu.reads

theorem parenthesized_ends (hr : r.Orderly) (s : ParseState) :
    Ends (parenthesized r s.current.span.start) s fun e t => s.Yields false t [.expr e] := by
  unfold parenthesized
  simp only [ends_remaining]
  refine .ite (fun _ => ?_) fun _ => ?_
  · refine (advance_passes s).bind fun _ t hst => ?_
    refine (type_ends hr t).bind fun type u htu => ?_
    refine (expect_ends .rParen u).bind fun _ v huv => ?_
    refine (hr.exprAbove _ v).bind fun operand w hvw => ?_
    have hsw := hvw.after ((hst.trans htu.toPasses).trans huv.toPasses)
    exact finishExpr_ends hsw.reads
  · refine (advance_passes s).bind fun _ t hst => ?_
    refine (hr.expr t).bind fun inner u htu => ?_
    refine (expect_ends .rParen u).bind fun _ v huv => ?_
    have hsv := (htu.passes huv.toPasses).after hst
    exact finishExpr_ends hsv.reads

theorem parenthesizedType_ends (hr : r.Orderly) (s : ParseState) :
    Ends (parenthesizedType r) s fun _ t => s.Takes t := by
  unfold parenthesizedType
  refine (expect_ends .lParen s).bind fun _ t hst => ?_
  refine (type_ends hr t).bind fun type u htu => ?_
  exact (expect_ends .rParen u).bind fun _ v huv => .pure ((hst.trans htu).trans huv)

theorem defaultExpr_ends (hr : r.Orderly) (h : s.current.kind.isEof = false) :
    Ends (defaultExpr r s.current.span.start) s fun e t => s.Yields false t [.expr e] := by
  unfold defaultExpr
  refine (advance_ends s).bind fun _ t hRead => ?_
  obtain ⟨_, _, takes⟩ := hRead
  have hst := takes h
  simp only [ends_check, ends_remaining]
  refine .ite (fun _ => ?_) fun _ => finishExpr_ends hst.reads
  refine (parenthesizedType_ends hr t).bind fun type u htu => ?_
  have hsu := hst.trans htu
  exact finishExpr_ends hsu.reads

theorem map_sizes (sizes : List (Option Expr)) :
    (sizes.flatMap fun size => (size.map Node.expr).toList) =
      (sizes.filterMap fun size => size).map .expr := by
  induction sizes with
  | nil => rfl
  | cons size sizes ih => cases size <;> simp [ih]

theorem sizedRank_ends (hr : r.Orderly) (s : ParseState) :
    Ends (sizedRank r) s fun rank t =>
      s.Yields false t ((rank.sizes.filterMap fun size => size).map .expr) := by
  unfold sizedRank
  simp only [ends_currentStart]
  refine (expect_ends .lBracket s).bind fun _ t hst => ?_
  refine (commaSeparated_yields (fun size => (size.map Node.expr).toList) (fun u => ?_) t :
    Ends _ t fun sizes u => t.Yields false u _).bind fun sizes u htu => ?_
  · simp only [ends_check]
    refine .ite (fun _ => .pure (.refl u)) fun _ => ?_
    exact (hr.expr u).bind fun e v huv => .pure huv
  · refine (expect_ends .rBracket u).bind fun _ v huv => ?_
    simp only [ends_spanFrom]
    rw [map_sizes] at htu
    exact .pure ((htu.passes huv.toPasses).after hst.toPasses)

theorem sizedRanks_ends (hr : r.Orderly) (s : ParseState) :
    Ends (sizedRanks r) s fun ranks t => s.Yields false t
      ((ranks.flatMap fun rank => rank.sizes.filterMap fun size => size).map .expr) := by
  refine loop_ends (fun ranks t => s.Yields false t
    ((ranks.flatMap fun rank => rank.sizes.filterMap fun size => size).map .expr)) (.refl s)
    fun ranks t hst => ?_
  simp only [ends_check]
  refine .ite (fun _ => ?_) fun _ => .pure hst
  refine (sizedRank_ends hr t).bind fun rank u htu => .pure ?_
  have := hst.append htu
  rwa [← List.map_append, ← List.flatMap_singleton
    (fun rank : RankSpecifier Expr => rank.sizes.filterMap fun size => size) rank,
    ← List.flatMap_append] at this

theorem arrayCreation_ends (hr : r.Orderly) (element : TypeRef) (hst : s.Takes t) :
    Ends (arrayCreation r s.current.span.start element) t fun e u =>
      s.Yields false u [.expr e] := by
  unfold arrayCreation
  refine (sizedRanks_ends hr t).bind fun ranks u htu => ?_
  refine (optionalInitializer_ends hr u).bind fun initializer v huv => ?_
  refine .ite (fun _ => ?_) fun _ => ?_
  · simp only [ends_currentKind, ends_spanFrom]
    exact failAt_ends _ _
  · have htv := htu.append huv
    rw [← List.map_append] at htv
    exact finishExpr_ends (htv.behind hst)

theorem objectCreation_ends (hr : r.Orderly) (type : TypeRef) (hst : s.Takes t) :
    Ends (objectCreation r s.current.span.start type) t fun e u => s.Yields false u [.expr e] := by
  unfold objectCreation
  simp only [ends_check]
  refine .join (P := fun args u => t.Yields false u ((args.map (·.expr)).map .expr))
    (fun _ => arguments_ends hr t) (fun _ => .pure (.refl t)) fun args u htu => ?_
  refine (optionalInitializer_ends hr u).bind fun initializer v huv => ?_
  refine .ite (fun _ => failExpected_ends _) fun _ => ?_
  have htv := htu.append huv
  rw [← List.map_append] at htv
  exact finishExpr_ends (htv.behind hst)

theorem implicitArrayCreation_ends (hr : r.Orderly) (hst : s.Takes t) :
    Ends (implicitArrayCreation r s.current.span.start) t fun e u =>
      s.Yields false u [.expr e] := by
  unfold implicitArrayCreation
  refine (expect_ends .lBracket t).bind fun _ u htu => ?_
  refine (countCommas_ends u).bind fun _ v huv => ?_
  refine (expect_ends .rBracket v).bind fun _ w hvw => ?_
  refine (initializerElements_ends hr w).bind fun elements x hwx => ?_
  have hsw := hst.passes ((htu.toPasses.trans huv).trans hvw.toPasses)
  exact finishExpr_ends (hwx.after hsw.toPasses)

theorem newExpr_ends (hr : r.Orderly) (s : ParseState) :
    Ends (newExpr r s.current.span.start) s fun e t => s.Yields false t [.expr e] := by
  unfold newExpr
  refine (expectWord_ends .newKw s).bind fun _ t hst => ?_
  simp only [ends_check]
  refine .ite (fun _ => implicitArrayCreation_ends hr hst) fun _ => ?_
  refine .ite (fun _ => ?_) fun _ => ?_
  · refine (arguments_ends hr t).bind fun args u htu => ?_
    refine (optionalInitializer_ends hr u).bind fun initializer v huv => ?_
    have htv := htu.append huv
    rw [← List.map_append] at htv
    exact finishExpr_ends (htv.behind hst)
  · refine (nonArrayType_ends hr t).bind fun type u htu => ?_
    simp only [ends_check]
    exact .ite (fun _ => arrayCreation_ends hr type (hst.trans htu))
      fun _ => objectCreation_ends hr type (hst.trans htu)

theorem stackAlloc_ends (hr : r.Orderly) (s : ParseState) :
    Ends (stackAlloc r s.current.span.start) s fun e t => s.Yields false t [.expr e] := by
  unfold stackAlloc
  refine (expectWord_ends .stackallocKw s).bind fun _ t hst => ?_
  simp only [ends_check]
  refine .join (P := fun _ u => s.Takes u) (fun _ => .pure hst)
    (fun _ => (nonArrayType_ends hr t).map fun _ u htu => hst.trans htu) fun element u hsu => ?_
  refine (expect_ends .lBracket u).bind fun _ v huv => ?_
  simp only [ends_check]
  refine .join (P := fun size w => v.Yields false w (size.toList.map .expr))
    (fun _ => .pure (.refl v)) (fun _ => (hr.expr v).map fun _ w hvw => hvw) fun size w hvw => ?_
  refine (expect_ends .rBracket w).bind fun _ x hwx => ?_
  refine (optionalInitializer_ends hr x).bind fun initializer y hxy => ?_
  have hsv := hsu.trans huv
  have hvy := (hvw.passes hwx.toPasses).append hxy
  rw [← List.map_append] at hvy
  exact finishExpr_ends (hvy.behind hsv)

theorem keywordExpr_ends (hr : r.Orderly) {w : Keyword} (h : s.current.kind = .keyword w) :
    Ends (keywordExpr r s.current.span.start w) s fun e t => s.Yields false t [.expr e] := by
  have hEof : s.current.kind.isEof = false := by
    rw [h]
    rfl
  have typed : ∀ kind : TypeRef → ExprKind Expr, (∀ type, (kind type).operands = []) →
      Ends (do
        let _ ← advance
        let type ← parenthesizedType r
        finishExpr s.current.span.start (kind type)) s fun e t => s.Yields false t [.expr e] := by
    intro kind leafKind
    refine (advance_passes s).bind fun _ t hst => ?_
    refine (parenthesizedType_ends hr t).bind fun type u htu => ?_
    have hsu := hst.takes htu
    refine finishExpr_ends ?_
    rw [leafKind]
    exact hsu.reads
  unfold keywordExpr
  split
  · exact leaf_ends (.refl s) hEof
  · split
    · exact leaf_ends (.refl s) hEof
    · exact leaf_ends (.refl s) hEof
    · exact leaf_ends (.refl s) hEof
    · exact newExpr_ends hr s
    · exact stackAlloc_ends hr s
    · exact typed .typeOf fun _ => rfl
    · exact typed .sizeOfType fun _ => rfl
    · exact defaultExpr_ends hr hEof
    · exact failExpected_ends _

theorem operand_ends (hr : r.Orderly) (s : ParseState) :
    Ends (operand r) s fun e t => s.Yields false t [.expr e] := by
  unfold operand
  simp only [ends_currentStart, ends_currentKind]
  have inner : s.current.kind ≠ .eof → s.current.kind.isEof = false := by
    intro h
    cases hk : s.current.kind <;> simp_all [TokenKind.isEof]
  split
  next h => exact leaf_ends (.refl s) (inner (by simp [h]))
  next h => exact leaf_ends (.refl s) (inner (by simp [h]))
  next h => exact leaf_ends (.refl s) (inner (by simp [h]))
  next h => exact leaf_ends (.refl s) (inner (by simp [h]))
  next h => exact leaf_ends (.refl s) (inner (by simp [h]))
  next name h =>
    simp only [ends_peekKind]
    exact .ite (fun _ => unaryExpr_ends hr .await s)
      fun _ => nameExpr_ends hr name (inner (by simp [h]))
  next h => exact keywordExpr_ends hr h
  next => exact parenthesized_ends hr s
  next =>
    split
    · exact unaryExpr_ends hr _ s
    · exact failExpected_ends _
  next => exact failExpected_ends _

theorem memberAccess_ends (hr : r.Orderly) {object : Expr} (h : s.Yields false t [.expr object]) :
    Ends (memberAccess r s.current.span.start object) t fun e u => s.Yields false u [.expr e] := by
  unfold memberAccess
  simp only [ends_check]
  refine (advance_passes t).bind fun _ u htu => ?_
  simp only [ends_remaining]
  refine (expectName_ends u).bind fun name v huv => ?_
  refine .optional (fun w => s.Yields false w [.expr object])
    (fun w hsw => finishExpr_ends hsw.reads) (fun _ rest => ?_)
    fun _ => (h.passes htu).passes huv.toPasses
  exact (typeArgs_ends hr v).bind fun _ w hvw =>
    rest w (((h.passes htu).passes huv.toPasses).passes hvw.toPasses)

theorem postfixExpr_ends (hr : r.Orderly) {lhs : Expr} (h : s.Yields false t [.expr lhs]) :
    Ends (postfixExpr r s.current.span.start lhs) t fun e u => s.Yields false u [.expr e] := by
  unfold postfixExpr
  simp only [ends_currentKind]
  split
  · refine (arguments_ends hr t).bind fun args u htu => ?_
    have hsu := h.append htu
    exact finishExpr_ends hsu.reads
  · refine (advance_passes t).bind fun _ u htu => ?_
    refine (argumentList_ends hr .rBracket u).bind fun args v huv => ?_
    refine (expect_ends .rBracket v).bind fun _ w hvw => ?_
    have hsw := ((h.passes htu).append huv).passes hvw.toPasses
    exact finishExpr_ends hsw.reads
  next hk => exact leaf_ends h (by rw [hk]; rfl)
  next hk => exact leaf_ends h (by rw [hk]; rfl)
  · exact memberAccess_ends hr h

theorem nullTest_ends {lhs : Expr} (h : s.Yields false t [.expr lhs]) (negated : Bool)
    (hEof : t.current.kind.isEof = false) :
    Ends (nullTest s.current.span.start lhs negated) t fun e u => s.Yields false u [.expr e] := by
  unfold nullTest
  simp only [ends_currentStart]
  refine (leaf_ends (.refl t) hEof).bind fun null u htu => ?_
  have hsu := h.append htu
  exact finishExpr_ends hsu.reads

theorem designation_ends (s : ParseState) : Ends designation s fun _ t => s.Passes t := by
  unfold designation
  simp only [ends_currentKind]
  split
  · exact (advance_passes s).bind fun _ t hst => .pure hst
  · exact .pure (.refl s)

theorem typeTest_ends (hr : r.Orderly) {lhs : Expr} (h : s.Yields false t [.expr lhs]) :
    Ends (typeTest r s.current.span.start lhs) t fun e u => s.Yields false u [.expr e] := by
  unfold typeTest
  refine (acceptWord_passes .asKw t).bind fun b u htu => ?_
  have hsu := h.passes htu
  refine .ite (fun _ => ?_) fun _ => ?_
  · refine (type_ends hr u).bind fun type v huv => ?_
    have hsv := hsu.passes huv.toPasses
    exact finishExpr_ends hsv.reads
  · refine (expectWord_ends .isKw u).bind fun _ v huv => ?_
    simp only [ends_currentKind, ends_peekKind]
    refine .optional (fun w => s.Yields false w [.expr lhs]) (fun w hsw => ?_) (fun _ rest => ?_)
      fun _ => hsu.passes huv.toPasses
    · simp only [ends_checkWord]
      refine .ite (fun hNull => nullTest_ends hsw _ (isEof_of_isKeyword hNull)) fun _ => ?_
      refine (type_ends hr w).bind fun type x hwx => ?_
      refine (designation_ends x).bind fun name y hxy => ?_
      have hsy := (hsw.passes hwx.toPasses).passes hxy
      exact finishExpr_ends hsy.reads
    · exact (advance_passes v).bind fun _ w hvw =>
        rest w ((hsu.passes huv.toPasses).passes hvw)

theorem conditionalExpr_ends (hr : r.Orderly) {cond : Expr} (h : s.Yields false t [.expr cond]) :
    Ends (conditionalExpr r s.current.span.start cond) t fun e u => s.Yields false u [.expr e] := by
  unfold conditionalExpr
  refine (advance_passes t).bind fun _ u htu => ?_
  refine (hr.expr u).bind fun whenTrue v huv => ?_
  refine (expect_ends .colon v).bind fun _ w hvw => ?_
  refine (hr.exprAbove _ w).bind fun whenFalse x hwx => ?_
  have hsx := (((h.passes htu).append huv).passes hvw.toPasses).append hwx
  exact finishExpr_ends hsx.reads

theorem extend_ends (hr : r.Orderly) (least : Nat) {lhs : Expr} (h : s.Yields false t [.expr lhs]) :
    Ends (extend r s.current.span.start least lhs) t fun e u =>
      Sum.elim (fun e => s.Yields false u [.expr e]) (fun e => s.Yields false u [.expr e]) e := by
  unfold extend
  simp only [ends_currentKind]
  refine .ite (fun _ => ?_) fun _ => .ite (fun _ => ?_) fun _ => .ite (fun _ => ?_) fun _ => ?_
  · exact .ite (fun _ => .pure h) fun _ => (postfixExpr_ends hr h).bind fun e u hsu => .pure hsu
  · exact .ite (fun _ => .pure h) fun _ => (typeTest_ends hr h).bind fun e u hsu => .pure hsu
  · exact .ite (fun _ => .pure h) fun _ => (conditionalExpr_ends hr h).bind fun e u hsu => .pure hsu
  · split
    · refine .ite (fun _ => .pure h) fun _ => ?_
      refine (advance_passes t).bind fun _ u htu => ?_
      refine (hr.exprAbove _ u).bind fun rhs v huv => ?_
      have hsv := (h.passes htu).append huv
      exact (finishExpr_ends hsv.reads).bind fun e w hsw => .pure hsw
    · exact .pure h

theorem exprAbove_ends (hr : r.Orderly) (least : Nat) (s : ParseState) :
    Ends (exprAbove r least) s fun e t => s.Yields false t [.expr e] := by
  unfold exprAbove
  simp only [ends_currentStart]
  refine (operand_ends hr s).bind fun lhs t hst => ?_
  exact loop_ends (fun e u => s.Yields false u [.expr e]) hst fun e u hsu =>
    extend_ends hr least hsu

theorem expr_ends (hr : r.Orderly) (s : ParseState) :
    Ends (expr r) s fun e t => s.Yields false t [.expr e] := by
  unfold expr
  simp only [ends_currentStart]
  refine (exprAbove_ends hr 0 s).bind fun target t hst => ?_
  simp only [ends_currentKind]
  split
  · refine (advance_passes t).bind fun _ u htu => ?_
    refine (hr.expr u).bind fun value v huv => ?_
    have hsv := (hst.passes htu).append huv
    exact finishExpr_ends hsv.reads
  · exact .pure hst

theorem varInitializer_ends (hr : r.Orderly) (s : ParseState) :
    Ends (varInitializer r) s fun e t => s.Yields false t [.expr e] := by
  unfold varInitializer
  simp only [ends_check]
  refine .ite (fun _ => ?_) fun _ => expr_ends hr s
  simp only [ends_currentStart]
  exact (initializerElements_ends hr s).bind fun elements t hst =>
    finishExpr_ends hst

end Parse

end Stackable
