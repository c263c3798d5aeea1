import Stackable.Proofs.Shape.Form

/-!
# The form of expressions

An integer is taken over from its token. Behind `new` and a type that is no array a bracket is seen
before the brackets are read, and a creation without elements is given up unless each dimension of
its first brackets has a size. Sizes and elements are read behind the `new`.
-/

set_option autoImplicit false

namespace Stackable.Parse

variable {r : Rules} [hr : r.Formed] {start : Nat}

theorem outVariable_formed : Gives (outVariable r) Expr.Formed :=
  .skip fun _ => .skip fun _ => .skip fun _ => finishExpr_formed trivial (by simp [ExprKind.operands])

theorem argument_formed : Gives (argument r) (·.expr.Formed) := by
  refine .skip fun _ => .skip fun _ => .skip fun _ => .ite ?_ ?_
  · exact outVariable_formed.bind fun _ hx => .pure hx
  · exact hr.expr.bind fun _ hx => .pure hx

theorem argumentList_formed (close : Punct) :
    Gives (argumentList r close) fun args => ∀ a ∈ args, a.expr.Formed :=
  .skip fun _ => .ite (.pure (by simp)) (.commaSeparated (argument_formed))

theorem arguments_formed :
    Gives (arguments r) fun args => ∀ a ∈ args, a.expr.Formed :=
  .skip fun _ => (argumentList_formed .rParen).bind fun _ h => .skip fun _ => .pure h

theorem initializerElements_formed :
    Gives (initializerElements r) fun elements => ∀ x ∈ elements, x.Formed := by
  refine .skip fun _ => (Gives.gather fun l hl => ?_).bind fun _ h => .skip fun _ => .pure h
  refine .skip fun _ => .skip fun _ => .ite (.pure hl) (hr.varInitializer.bind fun x hx => ?_)
  exact .skip fun _ => .ite (.pure (forall_mem_concat hl hx)) (.pure (forall_mem_concat hl hx))

theorem optionalInitializer_formed :
    Gives (optionalInitializer r) fun initializer => ∀ x ∈ initializer.getD [], x.Formed :=
  .skip fun _ => .ite ((initializerElements_formed).bind fun _ h => .pure h) (.pure (by simp))

theorem leaf_formed {kind : ExprKind Expr} (h : kind.Formed start)
    (operands : ∀ x ∈ kind.operands, x.Formed) : Gives (leaf start kind) Expr.Formed :=
  .skip fun _ => finishExpr_formed h operands

theorem bare_formed {s : ParseState} (hs : s.Sound) {kind : ExprKind Expr} (h : kind.Formed start)
    (hOperands : kind.operands = []) : GivesAt (leaf start kind) s Expr.Formed := by
  have leaf : Gives (leaf start kind) Expr.Formed := leaf_formed h (by simp [hOperands])
  exact leaf s hs

theorem nameExpr_formed (name : String) : Gives (nameExpr r start name) Expr.Formed := by
  refine .skip fun _ => .skip fun _ => .optional ?_ fun rest => .skip fun _ => rest
  exact finishExpr_formed trivial (by simp [ExprKind.operands])

theorem unaryExpr_formed (op : UnaryOp) :
    Gives (unaryExpr r start op) Expr.Formed := by
  refine .skip fun _ => (hr.exprAbove _).bind fun x hx => ?_
  exact finishExpr_formed trivial (List.forall_mem_singleton.mpr hx)

theorem parenthesized_formed : Gives (parenthesized r start) Expr.Formed := by
  refine .skip fun _ => .ite ?_ ?_
  · refine .skip fun _ => .skip fun _ => .skip fun _ => (hr.exprAbove _).bind fun x hx => ?_
    exact finishExpr_formed trivial (List.forall_mem_singleton.mpr hx)
  · refine .skip fun _ => hr.expr.bind fun x hx => .skip fun _ => ?_
    exact finishExpr_formed trivial (List.forall_mem_singleton.mpr hx)

theorem defaultExpr_formed : Gives (defaultExpr r start) Expr.Formed := by
  refine .skip fun _ => .skip fun _ => .skip fun _ => .ite (.skip fun _ => ?_) ?_
  all_goals exact finishExpr_formed trivial (by simp [ExprKind.operands])

/-- Brackets as the rule for one pair of them leaves them. -/
def RankFormed (rank : RankSpecifier Expr) : Prop :=
  rank.sizes ≠ [] ∧ ∀ x ∈ rank.sizes.filterMap fun size => size, x.Formed

theorem sizedRank_formed : Gives (sizedRank r) RankFormed := by
  have size : Gives (do
      if (← check .comma) || (← check .rBracket) then return none else return some (← r.expr) :
        Parse (Option Expr)) fun size => ∀ x ∈ size, x.Formed := by
    refine .skip fun _ => .skip fun _ => .ite (.pure (by simp)) (hr.expr.bind fun x hx => .pure ?_)
    simpa using hx
  refine .skip fun _ => .skip fun _ => size.items.bind fun sizes h => ?_
  refine .skip fun _ => .skip fun _ => .pure ⟨h.1, fun x hx => ?_⟩
  obtain ⟨size, hSize, rfl⟩ := List.mem_filterMap.mp hx
  exact h.2 _ hSize x rfl

/-- In front of a bracket there is a pair to read. -/
theorem sizedRanks_formed {s : ParseState} (hs : s.Sound)
    (hBracket : s.current.kind.isPunct .lBracket = true) :
    GivesAt (sizedRanks r) s fun ranks => ranks ≠ [] ∧ ∀ rank ∈ ranks, RankFormed rank := by
  have next : ∀ l : List (RankSpecifier Expr), (l ≠ [] ∧ ∀ rank ∈ l, RankFormed rank) → Gives (do
      if ← check .lBracket then return .inl (l ++ [← sizedRank r]) else return .inr l)
        (Sum.elim (fun l => l ≠ [] ∧ ∀ rank ∈ l, RankFormed rank)
          fun l => l ≠ [] ∧ ∀ rank ∈ l, RankFormed rank) := by
    intro l hl
    refine .skip fun _ => .ite ((sizedRank_formed).bind fun rank hRank => .pure ?_) (.pure hl)
    exact ⟨by simp, forall_mem_concat hl.2 hRank⟩
  unfold sizedRanks loop
  apply GivesAt.of_read (p := remaining) rfl
  unfold iterate
  refine GivesAt.bind (P := fun out => ∃ rank, out = .inl [rank] ∧ RankFormed rank) ?_ ?_
  · apply GivesAt.of_read (p := check .lBracket) rfl
    rw [if_pos hBracket]
    exact (sizedRank_formed).bind (fun rank h => .pure ⟨rank, rfl, h⟩) s hs
  · rintro _ ⟨rank, rfl, h⟩
    exact .iterate next _ ⟨by simp, List.forall_mem_singleton.mpr h⟩

theorem arrayCreation_formed {element : TypeRef} (simple : element.kind.IsSimple)
    {s : ParseState} (hs : s.Sound) (beyond : s.Beyond start)
    (hBracket : s.current.kind.isPunct .lBracket = true) :
    GivesAt (arrayCreation r start element) s Expr.Formed := by
  refine (sizedRanks_formed hs hBracket).bind_ends (sizedRanks_ends hr.orderly s) ?_
  rintro ranks t ⟨bracketed, hRanks⟩ sizesRead hst ht
  have sizesBehind := sizesRead.beyond beyond
  refine (optionalInitializer_formed t ht).bind_ends (optionalInitializer_ends hr.orderly t) ?_
  intro initializer u hInit elementsRead htu hu
  have elementsBehind := elementsRead.beyond (beyond.leadsTo hst)
  split
  · exact Gives.skip (fun _ => .skip fun _ => .failAt) u hu
  next hCounted =>
    have form : CreationForm start element ranks initializer := by
      refine ⟨simple, bracketed, fun rank h => (hRanks rank h).1, fun hNone => ?_, ?_⟩
      · simpa [hNone] using hCounted
      · intro x hx
        rcases List.mem_append.mp hx with hx | hx
        · exact sizesBehind (.expr x) (List.mem_map_of_mem hx)
        · exact elementsBehind (.expr x) (List.mem_map_of_mem hx)
    have operands : ∀ x ∈ (ExprKind.arrayCreation element ranks initializer).operands, x.Formed := by
      refine List.forall_mem_append.mpr ⟨fun x hx => ?_, hInit⟩
      obtain ⟨rank, hRank, hx⟩ := List.mem_flatMap.mp hx
      exact (hRanks rank hRank).2 x hx
    have finish : Gives (finishExpr start (.arrayCreation element ranks initializer)) Expr.Formed :=
      finishExpr_formed form operands
    exact finish u hu

theorem namedType_simple : Gives (namedType r) TypeRefKind.IsSimple := by
  refine .skip fun _ => .skip fun _ => .join .of_steady .of_steady fun first _ => ?_
  refine .loop (P := fun _ => True) (fun ⟨path, args⟩ _ => ?_) trivial
  refine .skip fun _ => .join .of_steady .of_steady fun _ _ => ?_
  refine .skip fun _ => .skip fun _ => .skip fun _ => .ite ?_ (.pure (by rintro _ _ ⟨⟩))
  exact .skip fun _ => .skip fun _ => .pure trivial

theorem typeMarks_simple {type : TypeRef} (h : type.kind.IsSimple) :
    Gives (typeMarks start type) (·.kind.IsSimple) := by
  refine .loop (P := (·.kind.IsSimple)) (fun type h => .skip fun _ => .ite (.pure h) ?_) h
  refine .skip fun _ => .ite (.skip fun _ => .pure ?_) ?_
  · rintro _ _ ⟨⟩
  · refine .skip fun _ => .ite (.skip fun _ => .pure ?_) (.pure h)
    rintro _ _ ⟨⟩

theorem nonArrayType_simple : Gives (nonArrayType r) (·.kind.IsSimple) := by
  refine .skip fun start => .skip fun k => ?_
  have rest : ∀ kind, TypeRefKind.IsSimple kind → Gives (do
      typeMarks start ⟨kind, ← spanFrom start⟩) (·.kind.IsSimple) :=
    fun _ h => .skip fun _ => typeMarks_simple h
  split
  · refine .skip fun _ => (Gives.pure ?_).bind rest
    rintro _ _ ⟨⟩
  · exact .skip fun _ => .join namedType_simple .failExpected rest

theorem objectCreation_formed (t : TypeRef) : Gives (objectCreation r start t) Expr.Formed := by
  refine .skip fun _ => .join arguments_formed (.pure (by simp)) fun args hArgs => ?_
  refine optionalInitializer_formed.bind fun initializer hInit => .ite .failExpected ?_
  refine finishExpr_formed trivial (List.forall_mem_append.mpr ⟨?_, hInit⟩)
  exact List.forall_mem_map.mpr hArgs

theorem implicitArrayCreation_formed : Gives (implicitArrayCreation r start) Expr.Formed := by
  refine .skip fun _ => .skip fun _ => .skip fun _ => initializerElements_formed.bind fun _ h => ?_
  exact finishExpr_formed trivial h

theorem newExpr_formed {s : ParseState} (hs : s.Sound) :
    GivesAt (newExpr r s.current.span.start) s Expr.Formed := by
  refine (Gives.of_steady s hs).bind_ends (expectWord_ends .newKw s) fun _ t _ taken hst ht => ?_
  apply GivesAt.of_read (p := check .lBracket) rfl
  split
  · exact implicitArrayCreation_formed t ht
  apply GivesAt.of_read (p := check .lParen) rfl
  split
  · refine arguments_formed.bind (fun args hArgs => ?_) t ht
    refine optionalInitializer_formed.bind fun _ hInit => ?_
    refine finishExpr_formed trivial (List.forall_mem_append.mpr ⟨?_, hInit⟩)
    exact List.forall_mem_map.mpr hArgs
  · refine (nonArrayType_simple t ht).bind_ends (nonArrayType_ends hr.orderly t) ?_
    intro element u simple _ htu hu
    apply GivesAt.of_read (p := check .lBracket) rfl
    split
    next hBracket =>
      exact arrayCreation_formed simple hu ((taken.beyond hs).leadsTo htu) hBracket
    next => exact objectCreation_formed element u hu

theorem stackAlloc_formed : Gives (stackAlloc r start) Expr.Formed := by
  refine .skip fun _ => .skip fun _ => .join .of_steady .of_steady fun _ _ => .skip fun _ => ?_
  refine .skip fun _ => .join (P := fun size => ∀ x ∈ size.toList, x.Formed) (.pure (by simp))
    (hr.expr.map fun x hx => by simpa using hx) fun size hSize => .skip fun _ => ?_
  refine optionalInitializer_formed.bind fun _ hInit => ?_
  exact finishExpr_formed trivial (List.forall_mem_append.mpr ⟨hSize, hInit⟩)

theorem keywordExpr_formed (w : Keyword) {s : ParseState} (hs : s.Sound) :
    GivesAt (keywordExpr r s.current.span.start w) s Expr.Formed := by
  have named : ∀ kind : TypeRef → ExprKind Expr, (∀ t, (kind t).Formed s.current.span.start) →
      (∀ t, (kind t).operands = []) → Gives (do
        let _ ← advance
        finishExpr s.current.span.start (kind (← parenthesizedType r))) Expr.Formed := by
    intro kind h hOperands
    exact .skip fun _ => .skip fun t => finishExpr_formed (h t) (by simp [hOperands])
  unfold keywordExpr
  split
  · exact bare_formed hs trivial rfl
  · split
    · exact bare_formed hs trivial rfl
    · exact bare_formed hs trivial rfl
    · exact bare_formed hs trivial rfl
    · exact newExpr_formed hs
    · exact stackAlloc_formed s hs
    · exact named .typeOf (fun _ => trivial) (fun _ => rfl) s hs
    · exact named .sizeOfType (fun _ => trivial) (fun _ => rfl) s hs
    · exact defaultExpr_formed s hs
    · exact Gives.failExpected s hs

/-- An integer fits in 64 bits because its token does. -/
theorem operand_formed : Gives (operand r) Expr.Formed := by
  intro s hs
  apply GivesAt.of_read (p := currentStart) rfl
  apply GivesAt.of_read (p := Parse.currentKind) rfl
  have hk := hs.current
  split
  next h =>
    rw [h] at hk
    exact bare_formed hs hk rfl
  · exact bare_formed hs trivial rfl
  · exact bare_formed hs trivial rfl
  · exact bare_formed hs trivial rfl
  · exact bare_formed hs trivial rfl
  · exact Gives.skip (fun _ => .ite (unaryExpr_formed _) (nameExpr_formed _)) s hs
  · exact keywordExpr_formed _ hs
  · exact parenthesized_formed s hs
  · split
    · exact unaryExpr_formed _ s hs
    · exact Gives.failExpected s hs
  · exact Gives.failExpected s hs

variable {lhs : Expr}

theorem memberAccess_formed (h : lhs.Formed) : Gives (memberAccess r start lhs) Expr.Formed := by
  refine .skip fun _ => .skip fun _ => .skip fun _ => .skip fun _ => .optional ?_ fun rest => ?_
  · exact finishExpr_formed trivial (List.forall_mem_singleton.mpr h)
  · exact .skip fun _ => rest

theorem postfixExpr_formed (h : lhs.Formed) : Gives (postfixExpr r start lhs) Expr.Formed := by
  have called : ∀ args : List (Argument Expr), (∀ a ∈ args, a.expr.Formed) →
      ∀ x ∈ lhs :: args.map (·.expr), x.Formed :=
    fun _ hArgs => List.forall_mem_cons.mpr ⟨h, List.forall_mem_map.mpr hArgs⟩
  refine .skip fun k => ?_
  split
  · exact arguments_formed.bind fun args hArgs => finishExpr_formed trivial (called args hArgs)
  · refine .skip fun _ => (argumentList_formed .rBracket).bind fun args hArgs => .skip fun _ => ?_
    exact finishExpr_formed trivial (called args hArgs)
  · exact leaf_formed trivial (List.forall_mem_singleton.mpr h)
  · exact leaf_formed trivial (List.forall_mem_singleton.mpr h)
  · exact memberAccess_formed h

theorem nullTest_formed (negated : Bool) (h : lhs.Formed) :
    Gives (nullTest start lhs negated) Expr.Formed := by
  have null : ∀ start, Gives (leaf start .null) Expr.Formed := fun _ _ hs => bare_formed hs trivial rfl
  refine .skip fun _ => (null _).bind fun x hx => finishExpr_formed trivial ?_
  simpa [ExprKind.operands] using ⟨h, hx⟩

theorem typeTest_formed (h : lhs.Formed) : Gives (typeTest r start lhs) Expr.Formed := by
  have tested : ∀ kind : ExprKind Expr, kind.Formed start → kind.operands = [lhs] →
      Gives (finishExpr start kind) Expr.Formed := by
    intro kind hKind hOperands
    exact finishExpr_formed hKind (by simpa [hOperands] using h)
  refine .skip fun _ => .ite (.skip fun _ => tested _ trivial rfl) ?_
  refine .skip fun _ => .skip fun _ => .skip fun _ => .optional ?_ fun rest => .skip fun _ => rest
  refine .skip fun _ => .ite (nullTest_formed _ h) ?_
  exact .skip fun _ => .skip fun _ => tested _ trivial rfl

theorem conditionalExpr_formed (h : lhs.Formed) :
    Gives (conditionalExpr r start lhs) Expr.Formed := by
  refine .skip fun _ => hr.expr.bind fun x hx => .skip fun _ => (hr.exprAbove _).bind fun y hy => ?_
  refine finishExpr_formed trivial ?_
  simpa [ExprKind.operands] using ⟨h, hx, hy⟩

theorem extend_formed (least : Nat) (h : lhs.Formed) :
    Gives (extend r start least lhs) (Sum.elim Expr.Formed Expr.Formed) := by
  have stop : Gives (pure (.inr lhs)) (Sum.elim Expr.Formed Expr.Formed) := .pure h
  refine .skip fun k => .ite (.ite stop ?_) (.ite (.ite stop ?_) (.ite (.ite stop ?_) ?_))
  · exact (postfixExpr_formed h).bind fun x hx => .pure hx
  · exact (typeTest_formed h).bind fun x hx => .pure hx
  · exact (conditionalExpr_formed h).bind fun x hx => .pure hx
  · split
    · refine .ite stop (.skip fun _ => (hr.exprAbove _).bind fun y hy => .bind (P := Expr.Formed) ?_
        fun x hx => .pure hx)
      refine finishExpr_formed trivial ?_
      simpa [ExprKind.operands] using ⟨h, hy⟩
    · exact stop

theorem exprAbove_formed (least : Nat) : Gives (exprAbove r least) Expr.Formed :=
  .skip fun _ => operand_formed.bind fun _ h => .loop (fun _ h => extend_formed least h) h

theorem expr_formed : Gives (expr r) Expr.Formed := by
  refine .skip fun _ => (exprAbove_formed 0).bind fun x hx => .skip fun k => ?_
  split
  · refine .skip fun _ => hr.expr.bind fun y hy => finishExpr_formed trivial ?_
    simpa [ExprKind.operands] using ⟨hx, hy⟩
  · exact .pure hx

theorem varInitializer_formed : Gives (varInitializer r) Expr.Formed :=
  .skip fun _ => .ite (.skip fun _ => initializerElements_formed.bind fun _ h =>
    finishExpr_formed trivial h) expr_formed

end Stackable.Parse
