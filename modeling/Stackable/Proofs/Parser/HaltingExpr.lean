import Stackable.Proofs.Parser.Halting

/-!
# Types and expressions are read to their end

What the rules promise to each other about the tokens they read, and the rules for types and
expressions: each calls the others only behind a token of its own.
-/

set_option autoImplicit false

namespace Stackable

open ParseState Parse

/-- The rules read a token and halt where fewer than `n` tokens remain. -/
structure Rules.MovesBelow (r : Rules) (n : Nat) : Prop where
  orderly : r.Orderly
  type : ∀ s, s.rest.length < n → Moves r.type s
  expr : ∀ s, s.rest.length < n → Moves r.expr s
  exprAbove : ∀ least s, s.rest.length < n → Moves (r.exprAbove least) s
  varInitializer : ∀ s, s.rest.length < n → Moves r.varInitializer s
  stmt : ∀ s, s.rest.length < n → Moves r.stmt s
  member : ∀ typeName s, s.rest.length < n → Moves (r.member typeName) s
  decl : ∀ s, s.rest.length < n → Moves r.decl s

namespace Parse

variable {r : Rules} {n : Nat} {s : ParseState}

theorem typeArgs_moves (hr : r.MovesBelow n) (hs : s.rest.length ≤ n) : Moves (typeArgs r) s := by
  unfold typeArgs
  refine (expect_moves .lt s).bind fun _ t _ hst => ?_
  refine (loop_safe fun args u htu => ?_ : Safe _ t).bind fun args u htu _ => ?_
  · refine (hr.type u (by omega)).bind fun x v _ huv => ?_
    simp only [halts_pendingGt]
    refine .ite (fun _ => .pure fun h => by cases h) fun _ => ?_
    refine (accept_halts .comma v).bind fun b w hvw _ => ?_
    exact .ite (fun _ => .pure fun _ => by omega) fun _ => .pure fun h => by cases h
  · exact (expectClosingAngle_safe u).bind fun _ v huv _ => .pure (by omega)

theorem namedType_moves (hr : r.MovesBelow n) (hs : s.rest.length ≤ n) : Moves (namedType r) s := by
  unfold namedType
  refine (expectName_moves s).bind fun first t _ hst => ?_
  refine (accept_halts .colonColon t).bind fun b u htu _ => ?_
  refine .join (P := fun _ _ => True) (fun _ => (expectName_moves u).safe) (fun _ => .pure trivial)
    fun first v huv _ => ?_
  refine (loop_safe fun ⟨path, args⟩ w hvw => ?_ : Safe _ v).mono fun _ w _ _ => by omega
  simp only [halts_check]
  refine .join (P := fun _ _ => True) (fun _ => (typeArgs_moves hr (by omega)).safe)
    (fun _ => .pure trivial) fun args x hwx _ => ?_
  simp only [halts_pendingGt, halts_check, halts_peekKind]
  refine .ite (fun _ => ?_) fun _ => .pure fun h => by cases h
  refine (advance_halts x).bind fun _ y hxy _ => ?_
  exact (expectName_moves y).bind fun _ z _ hyz => .pure fun _ => by omega

theorem typeMarks_safe (start : Nat) (t : TypeRef) (s : ParseState) :
    Safe (typeMarks start t) s := by
  refine loop_safe fun type t hst => ?_
  simp only [halts_pendingGt]
  refine .ite (fun _ => .pure fun h => by cases h) fun _ => ?_
  refine (accept_halts .question t).bind fun b u htu moves => ?_
  refine .ite (fun hb => ?_) fun _ => ?_
  · simp only [halts_spanFrom]
    exact .pure fun _ => moves hb
  refine (accept_halts .star u).bind fun b v huv moves => ?_
  refine .ite (fun hb => ?_) fun _ => .pure fun h => by cases h
  simp only [halts_spanFrom]
  exact .pure fun _ => Nat.lt_of_lt_of_le (moves hb) htu

theorem nonArrayType_moves (hr : r.MovesBelow n) (hs : s.rest.length ≤ n) :
    Moves (nonArrayType r) s := by
  unfold nonArrayType
  simp only [halts_currentStart, halts_currentKind]
  have rest : ∀ kind t, t.rest.length ≤ s.rest.length → t.rest.length < s.rest.length → Halts (do
      typeMarks s.current.span.start ⟨kind, ← spanFrom s.current.span.start⟩) t
        fun _ u => u.rest.length < s.rest.length := by
    intro kind t _ hst
    simp only [halts_spanFrom]
    exact (typeMarks_safe _ _ t).mono fun _ u htu _ => by omega
  split
  next p h =>
    refine (advance_moves (isEof_of_predefined? h)).bind fun _ t _ hst => ?_
    exact Halts.bind (P := fun _ u => u.rest.length < s.rest.length) (.pure hst)
      fun kind u _ hsu => rest kind u (by omega) hsu
  next =>
    simp only [halts_currentKind]
    exact .ite (fun _ => (namedType_moves hr hs).bind rest) fun _ =>
      (failExpected_halts _).bind rest

theorem rankSpecifiers_safe (s : ParseState) : Safe rankSpecifiers s := by
  refine loop_safe fun ranks t hst => ?_
  simp only [halts_pendingGt, halts_remaining]
  refine .ite (fun _ => ?_) fun _ => .pure fun h => by cases h
  refine (advance_halts t).bind fun _ u htu _ => ?_
  refine (countCommas_safe u).bind fun _ v huv _ => ?_
  exact (expect_moves .rBracket v).bind fun _ w _ hvw => .pure fun _ => by omega

theorem type_moves (hr : r.MovesBelow n) (hs : s.rest.length ≤ n) : Moves (type r) s := by
  unfold type
  simp only [halts_currentStart]
  refine (nonArrayType_moves hr hs).bind fun element t _ hst => ?_
  refine (rankSpecifiers_safe t).bind fun ranks u htu _ => ?_
  refine .ite (fun _ => .pure (by omega)) fun _ => ?_
  simp only [halts_spanFrom, halts_pendingGt]
  refine .ite (fun _ => .pure (by omega)) fun _ => ?_
  refine (accept_halts .question u).bind fun b v huv _ => ?_
  refine .ite (fun _ => ?_) fun _ => .pure (by omega)
  simp only [halts_spanFrom]
  exact .pure (by omega)

theorem argumentName_safe (s : ParseState) : Safe argumentName s := by
  unfold argumentName
  simp only [halts_currentKind]
  split
  · simp only [halts_peekKind]
    refine .ite (fun _ => ?_) fun _ => .pure trivial
    refine (advance_halts s).bind fun _ t _ _ => ?_
    exact (advance_halts t).bind fun _ _ _ _ => .pure trivial
  · exact .pure trivial

theorem argumentModifier_safe (s : ParseState) : Safe argumentModifier s := by
  unfold argumentModifier
  simp only [halts_currentKind]
  split
  · exact (advance_halts s).bind fun _ _ _ _ => .pure trivial
  · exact .pure trivial

theorem outVariable_safe (hr : r.MovesBelow n) (hs : s.rest.length ≤ n) : Safe (outVariable r) s := by
  unfold outVariable
  refine (type_moves hr hs).bind fun _ t _ _ => ?_
  simp only [halts_currentStart]
  exact (expectName_moves t).bind fun name u _ _ => finishExpr_safe _ _ u

theorem argument_safe (hr : r.MovesBelow n) (hs : s.rest.length < n) : Safe (argument r) s := by
  unfold argument
  refine (argumentName_safe s).bind fun name t hst _ => ?_
  refine (argumentModifier_safe t).bind fun modifier u htu _ => ?_
  simp only [halts_remaining]
  refine .ite (fun _ => ?_) fun _ => ?_
  · exact (outVariable_safe hr (by omega)).bind fun _ _ _ _ => .pure trivial
  · exact (hr.expr u (by omega)).bind fun _ _ _ _ => .pure trivial

theorem argumentList_safe (hr : r.MovesBelow n) (close : Punct) (hs : s.rest.length < n) :
    Safe (argumentList r close) s := by
  unfold argumentList
  simp only [halts_check]
  refine .ite (fun _ => .pure trivial) fun _ => ?_
  exact commaSeparated_safe fun t hst => argument_safe hr (by omega)

theorem arguments_moves (hr : r.MovesBelow n) (hs : s.rest.length ≤ n) : Moves (arguments r) s := by
  unfold arguments
  refine (expect_moves .lParen s).bind fun _ t _ hst => ?_
  refine (argumentList_safe hr .rParen (by omega)).bind fun args u htu _ => ?_
  exact (expect_moves .rParen u).bind fun _ v _ huv => .pure (by omega)

theorem initializerElements_moves (hr : r.MovesBelow n) (hs : s.rest.length ≤ n) :
    Moves (initializerElements r) s := by
  unfold initializerElements
  refine (expect_moves .lBrace s).bind fun _ t _ hst => ?_
  refine (loop_safe fun elements u htu => ?_ : Safe _ t).bind fun elements u htu _ => ?_
  · simp only [halts_check, halts_atEnd]
    refine .ite (fun _ => .pure fun h => by cases h) fun _ => ?_
    refine (hr.varInitializer u (by omega)).bind fun e v _ huv => ?_
    refine (accept_halts .comma v).bind fun b w hvw _ => ?_
    exact .ite (fun _ => .pure fun _ => by omega) fun _ => .pure fun h => by cases h
  · exact (expect_moves .rBrace u).bind fun _ v _ huv => .pure (by omega)

theorem optionalInitializer_safe (hr : r.MovesBelow n) (hs : s.rest.length ≤ n) :
    Safe (optionalInitializer r) s := by
  unfold optionalInitializer
  simp only [halts_check]
  refine .ite (fun _ => ?_) fun _ => .pure trivial
  exact (initializerElements_moves hr hs).bind fun _ _ _ _ => .pure trivial

theorem leaf_moves {start : Nat} {kind : ExprKind Expr} (h : s.current.kind.isEof = false) :
    Moves (leaf start kind) s := by
  unfold leaf
  refine (advance_moves h).bind fun _ t _ hst => ?_
  exact (finishExpr_safe _ _ t).mono fun _ u htu _ => by omega

theorem nameExpr_moves (hr : r.MovesBelow n) {start : Nat} {name : String}
    (hs : s.rest.length ≤ n) (h : s.current.kind.isEof = false) :
    Moves (nameExpr r start name) s := by
  unfold nameExpr
  simp only [halts_remaining]
  refine (advance_moves h).bind fun _ t _ hst => ?_
  refine .ite (fun _ => ?_) fun _ => ?_
  · refine (typeArgs_moves hr (by omega)).bind fun _ u htu _ => ?_
    exact (finishExpr_safe _ _ u).mono fun _ v huv _ => by omega
  · exact (finishExpr_safe _ _ t).mono fun _ u htu _ => by omega

theorem unaryExpr_moves (hr : r.MovesBelow n) {start : Nat} {op : UnaryOp}
    (hs : s.rest.length ≤ n) (h : s.current.kind.isEof = false) :
    Moves (unaryExpr r start op) s := by
  unfold unaryExpr
  refine (advance_moves h).bind fun _ t _ hst => ?_
  refine (hr.exprAbove _ t (by omega)).bind fun operand u htu _ => ?_
  exact (finishExpr_safe _ _ u).mono fun _ v huv _ => by omega

theorem parenthesized_moves (hr : r.MovesBelow n) {start : Nat} (hs : s.rest.length ≤ n)
    (h : s.current.kind.isEof = false) : Moves (parenthesized r start) s := by
  unfold parenthesized
  simp only [halts_remaining]
  refine .ite (fun _ => ?_) fun _ => ?_
  · refine (advance_moves h).bind fun _ t _ hst => ?_
    refine (type_moves hr (by omega)).bind fun type u htu _ => ?_
    refine (expect_moves .rParen u).bind fun _ v huv _ => ?_
    refine (hr.exprAbove _ v (by omega)).bind fun operand w hvw _ => ?_
    exact (finishExpr_safe _ _ w).mono fun _ x hwx _ => by omega
  · refine (advance_moves h).bind fun _ t _ hst => ?_
    refine (hr.expr t (by omega)).bind fun inner u htu _ => ?_
    refine (expect_moves .rParen u).bind fun _ v huv _ => ?_
    exact (finishExpr_safe _ _ v).mono fun _ w hvw _ => by omega

theorem parenthesizedType_safe (hr : r.MovesBelow n) (hs : s.rest.length ≤ n) :
    Safe (parenthesizedType r) s := by
  unfold parenthesizedType
  refine (expect_moves .lParen s).bind fun _ t hst _ => ?_
  refine (type_moves hr (by omega)).bind fun type u htu _ => ?_
  exact (expect_moves .rParen u).bind fun _ _ _ _ => .pure trivial

theorem defaultExpr_moves (hr : r.MovesBelow n) {start : Nat} (hs : s.rest.length ≤ n)
    (h : s.current.kind.isEof = false) : Moves (defaultExpr r start) s := by
  unfold defaultExpr
  refine (advance_moves h).bind fun _ t _ hst => ?_
  simp only [halts_check, halts_remaining]
  refine .ite (fun _ => ?_) fun _ => ?_
  · refine (parenthesizedType_safe hr (by omega)).bind fun type u htu _ => ?_
    exact (finishExpr_safe _ _ u).mono fun _ v huv _ => by omega
  · exact (finishExpr_safe _ _ t).mono fun _ u htu _ => by omega

theorem sizedRank_moves (hr : r.MovesBelow n) (hs : s.rest.length ≤ n) : Moves (sizedRank r) s := by
  unfold sizedRank
  simp only [halts_currentStart]
  refine (expect_moves .lBracket s).bind fun _ t _ hst => ?_
  refine (commaSeparated_safe fun u htu => ?_ : Safe _ t).bind fun sizes u htu _ => ?_
  · simp only [halts_check]
    refine .ite (fun _ => .pure trivial) fun _ => ?_
    exact (hr.expr u (by omega)).bind fun _ _ _ _ => .pure trivial
  · refine (expect_moves .rBracket u).bind fun _ v huv _ => ?_
    simp only [halts_spanFrom]
    exact .pure (by omega)

theorem sizedRanks_safe (hr : r.MovesBelow n) (hs : s.rest.length ≤ n) : Safe (sizedRanks r) s := by
  refine loop_safe fun ranks t hst => ?_
  simp only [halts_check]
  refine .ite (fun _ => ?_) fun _ => .pure fun h => by cases h
  exact (sizedRank_moves hr (by omega)).bind fun _ _ _ moves => .pure fun _ => moves

theorem arrayCreation_safe (hr : r.MovesBelow n) (start : Nat) (element : TypeRef)
    (hs : s.rest.length ≤ n) : Safe (arrayCreation r start element) s := by
  unfold arrayCreation
  refine (sizedRanks_safe hr hs).bind fun ranks t hst _ => ?_
  refine (optionalInitializer_safe hr (by omega)).bind fun initializer u htu _ => ?_
  refine .ite (fun _ => ?_) fun _ => finishExpr_safe _ _ u
  simp only [halts_currentKind, halts_spanFrom]
  exact failAt_halts (by simp) _

theorem objectCreation_safe (hr : r.MovesBelow n) (start : Nat) (type : TypeRef)
    (hs : s.rest.length ≤ n) : Safe (objectCreation r start type) s := by
  unfold objectCreation
  simp only [halts_check]
  refine .join (P := fun _ _ => True) (fun _ => (arguments_moves hr hs).safe)
    (fun _ => .pure trivial) fun args t hst _ => ?_
  refine (optionalInitializer_safe hr (by omega)).bind fun initializer u htu _ => ?_
  exact .ite (fun _ => failExpected_halts _) fun _ => finishExpr_safe _ _ u

theorem implicitArrayCreation_safe (hr : r.MovesBelow n) (start : Nat) (hs : s.rest.length ≤ n) :
    Safe (implicitArrayCreation r start) s := by
  unfold implicitArrayCreation
  refine (expect_moves .lBracket s).bind fun _ t hst _ => ?_
  refine (countCommas_safe t).bind fun _ u htu _ => ?_
  refine (expect_moves .rBracket u).bind fun _ v huv _ => ?_
  exact (initializerElements_moves hr (by omega)).bind fun _ w _ _ => finishExpr_safe _ _ w

theorem newExpr_moves (hr : r.MovesBelow n) (start : Nat) (hs : s.rest.length ≤ n) :
    Moves (newExpr r start) s := by
  unfold newExpr
  refine (expectWord_moves .newKw s).bind fun _ t _ hst => ?_
  have behind : ∀ p : Parse Expr, Safe p t → Halts p t fun _ u => u.rest.length < s.rest.length :=
    fun p hp => hp.mono fun _ u htu _ => by omega
  simp only [halts_check]
  refine .ite (fun _ => behind _ (implicitArrayCreation_safe hr _ (by omega))) fun _ => ?_
  refine .ite (fun _ => behind _ ?_) fun _ => behind _ ?_
  · refine (arguments_moves hr (by omega)).bind fun args u htu _ => ?_
    exact (optionalInitializer_safe hr (by omega)).bind fun _ v _ _ => finishExpr_safe _ _ v
  · refine (nonArrayType_moves hr (by omega)).bind fun type u htu _ => ?_
    simp only [halts_check]
    exact .ite (fun _ => arrayCreation_safe hr _ _ (by omega))
      fun _ => objectCreation_safe hr _ _ (by omega)

theorem stackAlloc_moves (hr : r.MovesBelow n) (start : Nat) (hs : s.rest.length ≤ n) :
    Moves (stackAlloc r start) s := by
  unfold stackAlloc
  refine (expectWord_moves .stackallocKw s).bind fun _ t _ hst => ?_
  simp only [halts_check]
  refine .join (P := fun _ _ => True) (fun _ => .pure trivial)
    (fun _ => .map (nonArrayType_moves hr (by omega)).safe) fun element u htu _ => ?_
  refine (expect_moves .lBracket u).bind fun _ v huv _ => ?_
  simp only [halts_check]
  refine .join (P := fun _ _ => True) (fun _ => .pure trivial)
    (fun _ => .map (hr.expr v (by omega)).safe) fun size w hvw _ => ?_
  refine (expect_moves .rBracket w).bind fun _ x hwx _ => ?_
  refine (optionalInitializer_safe hr (by omega)).bind fun initializer y hxy _ => ?_
  exact (finishExpr_safe _ _ y).mono fun _ z hyz _ => by omega

theorem keywordExpr_moves (hr : r.MovesBelow n) {start : Nat} {w : Keyword}
    (hs : s.rest.length ≤ n) (h : s.current.kind.isEof = false) :
    Moves (keywordExpr r start w) s := by
  have typed : ∀ kind : TypeRef → ExprKind Expr, Moves (do
      let _ ← advance
      let type ← parenthesizedType r
      finishExpr start (kind type)) s := by
    intro kind
    refine (advance_moves h).bind fun _ t _ hst => ?_
    refine (parenthesizedType_safe hr (by omega)).bind fun type u htu _ => ?_
    exact (finishExpr_safe _ _ u).mono fun _ v huv _ => by omega
  unfold keywordExpr
  split
  · exact leaf_moves h
  · split
    · exact leaf_moves h
    · exact leaf_moves h
    · exact leaf_moves h
    · exact newExpr_moves hr start hs
    · exact stackAlloc_moves hr start hs
    · exact typed .typeOf
    · exact typed .sizeOfType
    · exact defaultExpr_moves hr hs h
    · exact failExpected_halts _

theorem operand_moves (hr : r.MovesBelow n) (hs : s.rest.length ≤ n) : Moves (operand r) s := by
  unfold operand
  simp only [halts_currentStart, halts_currentKind]
  have inner : s.current.kind ≠ .eof → s.current.kind.isEof = false := by
    intro h
    cases hk : s.current.kind <;> simp_all [TokenKind.isEof]
  split
  next h => exact leaf_moves (inner (by simp [h]))
  next h => exact leaf_moves (inner (by simp [h]))
  next h => exact leaf_moves (inner (by simp [h]))
  next h => exact leaf_moves (inner (by simp [h]))
  next h => exact leaf_moves (inner (by simp [h]))
  next name h =>
    simp only [halts_peekKind]
    exact .ite (fun _ => unaryExpr_moves hr hs (inner (by simp [h])))
      fun _ => nameExpr_moves hr hs (inner (by simp [h]))
  next h => exact keywordExpr_moves hr hs (inner (by simp [h]))
  next h => exact parenthesized_moves hr hs (inner (by simp [h]))
  next p _ h =>
    split
    · exact unaryExpr_moves hr hs (inner (by simp [h]))
    · exact failExpected_halts _
  next => exact failExpected_halts _

theorem memberAccess_moves (hr : r.MovesBelow n) (start : Nat) (object : Expr)
    (hs : s.rest.length ≤ n) : Moves (memberAccess r start object) s := by
  unfold memberAccess
  simp only [halts_check]
  refine (advance_halts s).bind fun _ t hst _ => ?_
  simp only [halts_remaining]
  refine (expectName_moves t).bind fun name u _ htu => ?_
  refine .ite (fun _ => ?_) fun _ => ?_
  · refine (typeArgs_moves hr (by omega)).bind fun _ v huv _ => ?_
    exact (finishExpr_safe _ _ v).mono fun _ w hvw _ => by omega
  · exact (finishExpr_safe _ _ u).mono fun _ v huv _ => by omega

theorem postfixExpr_moves (hr : r.MovesBelow n) (start : Nat) (lhs : Expr)
    (hs : s.rest.length ≤ n) : Moves (postfixExpr r start lhs) s := by
  unfold postfixExpr
  simp only [halts_currentKind]
  split
  next =>
    refine (arguments_moves hr hs).bind fun args t _ hst => ?_
    exact (finishExpr_safe _ _ t).mono fun _ u htu _ => by omega
  next h =>
    refine (advance_moves (by rw [h]; rfl)).bind fun _ t _ hst => ?_
    refine (argumentList_safe hr .rBracket (by omega)).bind fun args u htu _ => ?_
    refine (expect_moves .rBracket u).bind fun _ v huv _ => ?_
    exact (finishExpr_safe _ _ v).mono fun _ w hvw _ => by omega
  next h => exact leaf_moves (by rw [h]; rfl)
  next h => exact leaf_moves (by rw [h]; rfl)
  next => exact memberAccess_moves hr start lhs hs

theorem nullTest_safe (start : Nat) (lhs : Expr) (negated : Bool) (s : ParseState) :
    Safe (nullTest start lhs negated) s := by
  unfold nullTest leaf
  simp only [halts_currentStart]
  refine Halts.bind (P := fun _ _ => True) ?_ fun _ t _ _ => finishExpr_safe _ _ t
  exact (advance_halts s).bind fun _ t _ _ => finishExpr_safe _ _ t

theorem designation_safe (s : ParseState) : Safe designation s := by
  unfold designation
  simp only [halts_currentKind]
  split
  · exact (advance_halts s).bind fun _ _ _ _ => .pure trivial
  · exact .pure trivial

theorem typeTest_moves (hr : r.MovesBelow n) (start : Nat) (lhs : Expr) (hs : s.rest.length ≤ n) :
    Moves (typeTest r start lhs) s := by
  unfold typeTest
  refine (acceptWord_halts .asKw s).bind fun _ t hst _ => ?_
  refine .ite (fun _ => ?_) fun _ => ?_
  · refine (type_moves hr (by omega)).bind fun type u _ htu => ?_
    exact (finishExpr_safe _ _ u).mono fun _ v huv _ => by omega
  refine (expectWord_moves .isKw t).bind fun _ u _ htu => ?_
  have tested : ∀ v : ParseState, v.rest.length ≤ u.rest.length → ∀ negated,
      Halts (do
        if ← checkWord .nullKw then nullTest start lhs negated
        else
          let t ← type r
          let name ← designation
          finishExpr start (.isType lhs t name)) v fun _ w => w.rest.length < s.rest.length := by
    intro v huv negated
    simp only [halts_checkWord]
    refine .ite (fun _ => ?_) fun _ => ?_
    · exact (nullTest_safe start lhs negated v).mono fun _ w hvw _ => by omega
    · refine (type_moves hr (by omega)).bind fun type w hvw _ => ?_
      refine (designation_safe w).bind fun name x hwx _ => ?_
      exact (finishExpr_safe _ _ x).mono fun _ y hxy _ => by omega
  simp only [halts_currentKind, halts_peekKind]
  refine .ite (fun _ => ?_) fun _ => tested u (Nat.le_refl _) _
  exact (advance_halts u).bind fun _ v huv _ => tested v huv _

theorem conditionalExpr_moves (hr : r.MovesBelow n) (start : Nat) (cond : Expr)
    (hs : s.rest.length ≤ n) (h : s.current.kind.isEof = false) :
    Moves (conditionalExpr r start cond) s := by
  unfold conditionalExpr
  refine (advance_moves h).bind fun _ t _ hst => ?_
  refine (hr.expr t (by omega)).bind fun whenTrue u htu _ => ?_
  refine (expect_moves .colon u).bind fun _ v huv _ => ?_
  refine (hr.exprAbove _ v (by omega)).bind fun whenFalse w hvw _ => ?_
  exact (finishExpr_safe _ _ w).mono fun _ x hwx _ => by omega

theorem isEof_of_binary? {k : TokenKind} {x : BinOp × Nat × Nat} (h : k.binary? = some x) :
    k.isEof = false := by
  cases k with
  | eof => cases h
  | _ => rfl

theorem extend_steps (hr : r.MovesBelow n) (start least : Nat) (lhs : Expr)
    (hs : s.rest.length ≤ n) : Steps (extend r start least lhs) s := by
  have more : ∀ p : Parse Expr, Moves p s →
      Steps (do return .inl (← p) : Parse (Expr ⊕ Expr)) s :=
    fun p hp => hp.bind fun _ t _ moves => .pure fun _ => moves
  unfold extend
  simp only [halts_currentKind]
  refine .ite (fun _ => ?_) fun _ => .ite (fun _ => ?_) fun _ => .ite (fun h => ?_) fun _ => ?_
  · exact .ite (fun _ => .pure fun h => by cases h)
      fun _ => more _ (postfixExpr_moves hr start lhs hs)
  · exact .ite (fun _ => .pure fun h => by cases h) fun _ => more _ (typeTest_moves hr start lhs hs)
  · exact .ite (fun _ => .pure fun h => by cases h)
      fun _ => more _ (conditionalExpr_moves hr start lhs hs (isEof_of_isPunct h))
  · split
    next h =>
      refine .ite (fun _ => .pure fun h => by cases h) fun _ => ?_
      refine (advance_moves (isEof_of_binary? h)).bind fun _ t _ hst => ?_
      refine (hr.exprAbove _ t (by omega)).bind fun rhs u htu _ => ?_
      exact (finishExpr_safe _ _ u).bind fun _ v huv _ => .pure fun _ => by omega
    next => exact .pure fun h => by cases h

theorem exprAbove_moves (hr : r.MovesBelow n) (least : Nat) (hs : s.rest.length ≤ n) :
    Moves (exprAbove r least) s := by
  unfold exprAbove
  simp only [halts_currentStart]
  refine (operand_moves hr hs).bind fun lhs t _ hst => ?_
  refine (loop_safe fun lhs u htu => extend_steps hr _ least lhs (by omega) : Safe _ t).mono
    fun _ u htu _ => by omega

theorem expr_moves (hr : r.MovesBelow n) (hs : s.rest.length ≤ n) : Moves (expr r) s := by
  unfold expr
  simp only [halts_currentStart]
  refine (exprAbove_moves hr 0 hs).bind fun target t _ hst => ?_
  simp only [halts_currentKind]
  split
  next =>
    refine (advance_halts t).bind fun _ u htu _ => ?_
    refine (hr.expr u (by omega)).bind fun value v huv _ => ?_
    exact (finishExpr_safe _ _ v).mono fun _ w hvw _ => by omega
  next => exact .pure hst

theorem varInitializer_moves (hr : r.MovesBelow n) (hs : s.rest.length ≤ n) :
    Moves (varInitializer r) s := by
  unfold varInitializer
  simp only [halts_check]
  refine .ite (fun _ => ?_) fun _ => expr_moves hr hs
  simp only [halts_currentStart]
  refine (initializerElements_moves hr hs).bind fun elements t _ hst => ?_
  exact (finishExpr_safe _ _ t).mono fun _ u htu _ => by omega

end Parse

end Stackable
