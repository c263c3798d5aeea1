import Stackable.Proofs.Parser.HaltingExpr

/-!
# Every rule makes progress

Each rule that succeeds has read a token, and calls the other rules only behind one. The tokens
that remain therefore bound how deep rules nest, and each repetition of a loop that recovers from
errors comes nearer to the end.
-/

set_option autoImplicit false

namespace Stackable

open ParseState

namespace Parse

variable {r : Rules} {n : Nat} {s : ParseState}

/-- Recovery passes over a token at least, if the error left none behind. -/
theorem recover_advances {before : List Token} {distance : List Token → Nat}
    (inner : Tokens.Inner (s.rest.take (distance s.rest))) (hs : s.rest <:+ before)
    (h : (Tokens.kind before).isEof = false) :
    Ends (recover before distance) s fun _ t => t.rest.length < before.length := by
  unfold recover
  rw [ends_remaining]
  refine (skip_passes inner).bind fun _ t hst => ?_
  have ht : t.rest <:+ before := hst.toLeadsTo.suffix.trans hs
  rw [ends_remaining]
  refine .ite (fun hSame => ?_) fun hLess => .pure (Nat.lt_of_le_of_ne ht.length_le hLess)
  have hEof : t.current.kind.isEof = false := by
    rw [← kind_rest, ht.eq_of_length hSame]
    exact h
  refine (advance_ends t).bind fun _ u hRead => .pure ?_
  obtain ⟨_, _, takes⟩ := hRead
  rw [← hSame]
  exact (takes hEof).moves

/-- A block goes on only behind a token, whatever becomes of the statement. -/
theorem blockStep_advances (hr : ∀ s, Ends r.stmt s fun _ t => t.rest.length < s.rest.length)
    (body : List Stmt) (s : ParseState) :
    Ends (blockStep r body) s fun x t => x.isLeft → t.rest.length < s.rest.length := by
  unfold blockStep
  simp only [ends_check, ends_atEnd]
  refine .ite (fun _ => .pure fun h => by cases h) fun hGo => ?_
  have hEof : (Tokens.kind s.rest).isEof = false := by
    rw [kind_rest]
    simp_all
  simp only [ends_remaining]
  refine (attempt_ends (hr s)).bind fun x t hst => ?_
  cases x with
  | ok x => exact .pure fun _ => hst
  | error e =>
    refine (recordError_ends e).bind fun b u hRead => ?_
    obtain ⟨htu, _⟩ := hRead
    refine .ite (fun _ => ?_) fun _ => ?_
    · refine (recover_advances (Tokens.inner_toStmt u.rest) (hst.trans htu).suffix hEof).bind
        fun _ v huv => .pure fun _ => huv
    · simp only [ends_remaining]
      exact (skip_ends (Tokens.inner_toClosingBrace 1 u.rest)).bind fun _ v _ =>
        .pure fun h => by cases h

theorem membersStep_advances {name : String}
    (hr : ∀ s, Ends (r.member name) s fun _ t => t.rest.length < s.rest.length)
    (list : List Member) (s : ParseState) :
    Ends (membersStep r name list) s fun x t => x.isLeft → t.rest.length < s.rest.length := by
  unfold membersStep
  simp only [ends_check, ends_atEnd]
  refine .ite (fun _ => .pure fun h => by cases h) fun hGo => ?_
  have hEof : (Tokens.kind s.rest).isEof = false := by
    rw [kind_rest]
    simp_all
  refine (accept_ends .semi s).bind fun b t hRead => ?_
  obtain ⟨_, takes, same⟩ := hRead
  refine .ite (fun hb => .pure fun _ => (takes hb).moves) fun hb => ?_
  rw [same (by simpa using hb)]
  simp only [ends_remaining]
  refine (attempt_ends (hr s)).bind fun x u hsu => ?_
  cases x with
  | ok x => exact .pure fun _ => hsu
  | error e =>
    refine (recordError_ends e).bind fun b v hRead => ?_
    obtain ⟨huv, _⟩ := hRead
    refine .ite (fun _ => ?_) fun _ => ?_
    · refine (recover_advances (Tokens.inner_toMember 0 v.rest) (hsu.trans huv).suffix hEof).bind
        fun _ w hvw => .pure fun _ => hvw
    · simp only [ends_remaining]
      exact (skip_ends (Tokens.inner_toClosingBrace 1 v.rest)).bind fun _ w _ =>
        .pure fun h => by cases h

theorem namespaceStep_advances {decl : Parse Decl} (topLevel : Bool)
    (hd : ∀ s, Ends decl s fun _ t => t.rest.length < s.rest.length) (list : List Decl)
    (s : ParseState) :
    Ends (namespaceStep decl topLevel list) s fun x t =>
      x.isLeft → t.rest.length < s.rest.length := by
  unfold namespaceStep
  simp only [ends_check, ends_atEnd]
  refine .ite (fun _ => .pure fun h => by cases h) fun hGo => ?_
  have hEof : (Tokens.kind s.rest).isEof = false := by
    rw [kind_rest]
    simp_all
  simp only [ends_remaining]
  refine (attempt_ends (hd s)).bind fun x t hst => ?_
  cases x with
  | ok x => exact .pure fun _ => hst
  | error e =>
    refine (recordError_ends e).bind fun b u hRead => ?_
    obtain ⟨htu, _⟩ := hRead
    refine .ite (fun _ => ?_) fun _ => .pure fun h => by cases h
    refine (recover_advances (Tokens.inner_toDecl 0 u.rest) (hst.trans htu).suffix hEof).bind
      fun _ v huv => .pure fun _ => huv

theorem optionalVarInitializer_safe (hr : r.MovesBelow n) (hs : s.rest.length ≤ n) :
    Safe (optionalVarInitializer r) s := by
  unfold optionalVarInitializer
  simp only [halts_check]
  refine .ite (fun _ => ?_) fun _ => .pure trivial
  refine (advance_halts s).bind fun mark t hst _ => ?_
  exact (varInitializer_moves hr (by omega)).bind fun _ _ _ _ => .pure trivial

theorem declaratorTail_safe (hr : r.MovesBelow n) (name : String) (nameSpan : Span)
    (hs : s.rest.length ≤ n) : Safe (declaratorTail r name nameSpan) s := by
  unfold declaratorTail
  exact (optionalVarInitializer_safe hr hs).bind fun _ _ _ _ => fresh_halts fun _ _ _ => trivial

theorem declarator_safe (hr : r.MovesBelow n) (hs : s.rest.length ≤ n) : Safe (declarator r) s := by
  unfold declarator
  simp only [halts_current]
  exact (expectName_moves s).bind fun name t hst _ => declaratorTail_safe hr _ _ (by omega)

theorem localDecl_moves (hr : r.MovesBelow n) (isConst : Bool) (hs : s.rest.length ≤ n) :
    Moves (localDecl r isConst) s := by
  unfold localDecl
  refine (type_moves hr hs).bind fun type t _ hst => ?_
  refine (commaSeparated_safe fun u htu => declarator_safe hr (by omega) : Safe _ t).bind
    fun declarators u htu _ => .pure (by omega)

theorem blockStep_safe (hr : r.MovesBelow n) (body : List Stmt) (hs : s.rest.length < n) :
    Safe (blockStep r body) s := by
  unfold blockStep
  simp only [halts_check, halts_atEnd]
  refine .ite (fun _ => .pure trivial) fun _ => ?_
  simp only [halts_remaining]
  refine (attempt_halts (hr.stmt s hs)).bind fun x t _ hx => ?_
  cases x with
  | ok x => exact .pure trivial
  | error e =>
    refine (recordError_safe hx).bind fun b u _ _ => .ite (fun _ => ?_) fun _ => ?_
    · exact (recover_safe _ _ u).bind fun _ _ _ _ => .pure trivial
    · simp only [halts_remaining]
      exact (skip_safe _ u).bind fun _ _ _ _ => .pure trivial

theorem block_moves (hr : r.MovesBelow n) (hs : s.rest.length ≤ n) : Moves (block r) s := by
  unfold block
  refine (expect_moves .lBrace s).bind fun _ t _ hst => ?_
  refine (loop_safe fun body u htu => ?_ : Safe _ t).bind fun body u htu _ => ?_
  · exact (blockStep_safe hr body (by omega)).of_ends
      (blockStep_advances (fun s => (hr.orderly.stmt s).mono fun _ _ h => h.moves) body u)
  · exact (expect_moves .rBrace u).bind fun _ v huv _ => .pure (by omega)

theorem condition_moves (hr : r.MovesBelow n) (hs : s.rest.length ≤ n) : Moves (condition r) s := by
  unfold condition
  refine (expect_moves .lParen s).bind fun _ t _ hst => ?_
  refine (hr.expr t (by omega)).bind fun e u htu _ => ?_
  exact (expect_moves .rParen u).bind fun _ v huv _ => .pure (by omega)

theorem ifStmt_moves (hr : r.MovesBelow n) (hs : s.rest.length ≤ n) : Moves (ifStmt r) s := by
  unfold ifStmt
  refine (expectWord_moves .ifKw s).bind fun _ t _ hst => ?_
  refine (condition_moves hr (by omega)).bind fun cond u htu _ => ?_
  refine (hr.stmt u (by omega)).bind fun whenTrue v huv _ => ?_
  refine (acceptWord_halts .elseKw v).bind fun b w hvw _ => ?_
  exact .join (P := fun _ _ => True) (fun _ => .map (hr.stmt w (by omega)).safe)
    (fun _ => .pure trivial) fun whenFalse x hwx _ => .pure (by omega)

theorem declOrExpr_safe (hr : r.MovesBelow n) (hs : s.rest.length < n) : Safe (declOrExpr r) s := by
  unfold declOrExpr
  simp only [halts_currentStart, halts_remaining]
  refine .ite (fun _ => ?_) fun _ => ?_
  · exact (localDecl_moves hr false (by omega)).bind fun _ t _ _ => finishStmt_safe _ _ t
  · exact (hr.expr s hs).bind fun _ t _ _ => finishStmt_safe _ _ t

theorem forInit_safe (hr : r.MovesBelow n) (hs : s.rest.length < n) : Safe (forInit r) s := by
  unfold forInit
  simp only [halts_check]
  refine .ite (fun _ => .pure trivial) fun _ => ?_
  simp only [halts_remaining]
  refine .ite (fun _ => ?_) fun _ => ?_
  · exact (declOrExpr_safe hr hs).bind fun _ _ _ _ => .pure trivial
  · refine commaSeparated_safe fun t hst => ?_
    simp only [halts_currentStart]
    exact (hr.expr t (by omega)).bind fun _ u _ _ => finishStmt_safe _ _ u

theorem forStmt_moves (hr : r.MovesBelow n) (hs : s.rest.length ≤ n) : Moves (forStmt r) s := by
  unfold forStmt
  refine (expectWord_moves .forKw s).bind fun _ a _ hsa => ?_
  refine (expect_moves .lParen a).bind fun _ b hab _ => ?_
  refine (forInit_safe hr (by omega)).bind fun init c hbc _ => ?_
  refine (expect_moves .semi c).bind fun _ d hcd _ => ?_
  simp only [halts_check]
  refine .join (P := fun _ _ => True) (fun _ => .pure trivial)
    (fun _ => .map (hr.expr d (by omega)).safe) fun cond e hde _ => ?_
  refine (expect_moves .semi e).bind fun _ f hef _ => ?_
  simp only [halts_check]
  refine .join (P := fun _ _ => True) (fun _ => .pure trivial)
    (fun _ => commaSeparated_safe fun t hft => (hr.expr t (by omega)).safe) fun update g hfg _ => ?_
  refine (expect_moves .rParen g).bind fun _ h hgh _ => ?_
  exact (hr.stmt h (by omega)).bind fun body i hhi _ => .pure (by omega)

theorem forEachStmt_moves (hr : r.MovesBelow n) (hs : s.rest.length ≤ n) :
    Moves (forEachStmt r) s := by
  unfold forEachStmt
  refine (expectWord_moves .foreachKw s).bind fun _ a _ hsa => ?_
  refine (expect_moves .lParen a).bind fun _ b hab _ => ?_
  refine (type_moves hr (by omega)).bind fun type c hbc _ => ?_
  refine (expectName_moves c).bind fun name d hcd _ => ?_
  refine (expectWord_moves .inKw d).bind fun _ e hde _ => ?_
  refine (hr.expr e (by omega)).bind fun iter f hef _ => ?_
  refine (expect_moves .rParen f).bind fun _ g hfg _ => ?_
  exact (hr.stmt g (by omega)).bind fun body h hgh _ => .pure (by omega)

theorem caught_safe (hr : r.MovesBelow n) (hs : s.rest.length ≤ n) : Safe (caught r) s := by
  unfold caught
  refine (accept_halts .lParen s).bind fun b t hst _ => ?_
  refine .ite (fun _ => ?_) fun _ => .pure trivial
  refine (type_moves hr (by omega)).bind fun type u htu _ => ?_
  refine (designation_safe u).bind fun name v huv _ => ?_
  exact (expect_moves .rParen v).bind fun _ _ _ _ => .pure trivial

theorem catchFilter_safe (hr : r.MovesBelow n) (hs : s.rest.length ≤ n) :
    Safe (catchFilter r) s := by
  unfold catchFilter
  simp only [halts_checkName]
  refine .ite (fun _ => ?_) fun _ => .pure trivial
  refine (advance_halts s).bind fun _ t hst _ => ?_
  exact (condition_moves hr (by omega)).bind fun _ _ _ _ => .pure trivial

theorem catchClause_moves (hr : r.MovesBelow n) (hs : s.rest.length ≤ n) :
    Moves (catchClause r) s := by
  unfold catchClause
  simp only [halts_currentStart]
  refine (expectWord_moves .catchKw s).bind fun _ t _ hst => ?_
  refine (caught_safe hr (by omega)).bind fun found u htu _ => ?_
  obtain ⟨type, name⟩ := found
  refine (catchFilter_safe hr (by omega)).bind fun _ v huv _ => ?_
  refine (block_moves hr (by omega)).bind fun body w hvw _ => ?_
  simp only [halts_spanFrom]
  exact .pure (by omega)

theorem catchClauses_safe (hr : r.MovesBelow n) (hs : s.rest.length ≤ n) :
    Safe (catchClauses r) s := by
  refine loop_safe fun clauses t hst => ?_
  simp only [halts_checkWord]
  refine .ite (fun _ => ?_) fun _ => .pure fun h => by cases h
  exact (catchClause_moves hr (by omega)).bind fun _ _ _ moves => .pure fun _ => moves

theorem tryStmt_moves (hr : r.MovesBelow n) (hs : s.rest.length ≤ n) : Moves (tryStmt r) s := by
  unfold tryStmt
  simp only [halts_current]
  refine (expectWord_moves .tryKw s).bind fun _ t _ hst => ?_
  refine (block_moves hr (by omega)).bind fun body u htu _ => ?_
  refine (catchClauses_safe hr (by omega)).bind fun catches v huv _ => ?_
  refine (acceptWord_halts .finallyKw v).bind fun b w hvw _ => ?_
  refine .join (P := fun _ _ => True) (fun _ => .map (block_moves hr (by omega)).safe)
    (fun _ => .pure trivial) fun finish x hwx _ => ?_
  refine .ite (fun _ => ?_) fun _ => .pure (by omega)
  simp only [halts_currentKind]
  exact failAt_halts (by simp) _

/-- Labels that were read have taken a token. -/
theorem caseLabels_halts (hr : r.MovesBelow n) (hs : s.rest.length ≤ n) :
    Halts (caseLabels r) s fun labels t =>
      labels.isEmpty = false → t.rest.length < s.rest.length := by
  refine loop_halts (fun labels t => labels.isEmpty = false → t.rest.length < s.rest.length)
    (fun h => by cases h) fun labels t hst hLabels => ?_
  simp only [halts_checkName]
  refine .ite (fun hCase => ?_) fun _ => ?_
  · have hEof : t.current.kind.isEof = false := isEof_of_isName hCase
    refine (advance_moves hEof).bind fun _ u _ htu => ?_
    refine (hr.expr u (by omega)).bind fun label v huv _ => ?_
    exact (expect_moves .colon v).bind fun _ w hvw _ => .pure ⟨by omega, fun _ => by omega⟩
  · simp only [halts_atDefaultLabel]
    refine .ite (fun hDefault => ?_) fun _ => .pure hLabels
    rw [Bool.and_eq_true] at hDefault
    exact (skip_moves (by decide) (isEof_of_isKeyword hDefault.1)).bind fun _ u _ htu =>
      .pure ⟨htu, fun _ => by omega⟩

theorem switchBody_safe (hr : r.MovesBelow n) (hs : s.rest.length < n) : Safe (switchBody r) s := by
  refine loop_safe fun body t hst => ?_
  simp only [halts_check, halts_atEnd, halts_checkName, halts_atDefaultLabel]
  refine .ite (fun _ => .pure fun h => by cases h) fun _ => ?_
  exact (hr.stmt t (by omega)).bind fun _ _ _ moves => .pure fun _ => moves

theorem switchSection_moves (hr : r.MovesBelow n) (hs : s.rest.length ≤ n) :
    Moves (switchSection r) s := by
  unfold switchSection
  refine (caseLabels_halts hr hs).bind fun labels t _ moves => ?_
  refine .ite (fun _ => failExpected_halts _) fun hLabels => ?_
  have hst := moves (by simpa using hLabels)
  exact (switchBody_safe hr (by omega)).bind fun body u htu _ => .pure (by omega)

theorem switchStmt_moves (hr : r.MovesBelow n) (hs : s.rest.length ≤ n) :
    Moves (switchStmt r) s := by
  unfold switchStmt
  refine (advance_halts s).bind fun _ t hst _ => ?_
  refine (condition_moves hr (by omega)).bind fun subject u _ htu => ?_
  refine (expect_moves .lBrace u).bind fun _ v huv _ => ?_
  refine (loop_safe fun sections w hvw => ?_ : Safe _ v).bind fun sections w hvw _ => ?_
  · simp only [halts_check, halts_atEnd]
    refine .ite (fun _ => .pure fun h => by cases h) fun _ => ?_
    exact (switchSection_moves hr (by omega)).bind fun _ _ _ moves => .pure fun _ => moves
  · exact (expect_moves .rBrace w).bind fun _ x hwx _ => .pure (by omega)

theorem usingStmt_moves (hr : r.MovesBelow n) (hs : s.rest.length ≤ n) : Moves (usingStmt r) s := by
  unfold usingStmt
  refine (expectWord_moves .usingKw s).bind fun _ a _ hsa => ?_
  refine (expect_moves .lParen a).bind fun _ b hab _ => ?_
  refine (declOrExpr_safe hr (by omega)).bind fun resource c hbc _ => ?_
  refine (expect_moves .rParen c).bind fun _ d hcd _ => ?_
  exact (hr.stmt d (by omega)).bind fun body e hde _ => .pure (by omega)

theorem fixedStmt_moves (hr : r.MovesBelow n) (hs : s.rest.length ≤ n) : Moves (fixedStmt r) s := by
  unfold fixedStmt
  refine (advance_halts s).bind fun _ a hsa _ => ?_
  refine (expect_moves .lParen a).bind fun _ b _ hab => ?_
  refine (localDecl_moves hr false (by omega)).bind fun d c hbc _ => ?_
  refine (expect_moves .rParen c).bind fun _ e hce _ => ?_
  exact (hr.stmt e (by omega)).bind fun body f hef _ => .pure (by omega)

theorem lockStmt_moves (hr : r.MovesBelow n) (hs : s.rest.length ≤ n) : Moves (lockStmt r) s := by
  unfold lockStmt
  refine (advance_halts s).bind fun _ t hst _ => ?_
  refine (condition_moves hr (by omega)).bind fun subject u _ htu => ?_
  exact (hr.stmt u (by omega)).bind fun body v huv _ => .pure (by omega)

theorem localStmt_moves (hr : r.MovesBelow n) (isConst : Bool) (hs : s.rest.length ≤ n) :
    Moves (localStmt r isConst) s := by
  unfold localStmt
  refine (localDecl_moves hr isConst hs).bind fun d t _ hst => ?_
  exact (expect_moves .semi t).bind fun _ u htu _ => .pure (by omega)

theorem optionalValue_moves (hr : r.MovesBelow n) (hs : s.rest.length < n) :
    Moves (optionalValue r) s := by
  unfold optionalValue
  simp only [halts_check]
  refine .join (P := fun _ _ => True) (fun _ => .pure trivial) (fun _ => .map (hr.expr s hs).safe)
    fun value t hst _ => ?_
  exact (expect_moves .semi t).bind fun _ u _ htu => .pure (by omega)

theorem plainStmt_moves (hr : r.MovesBelow n) (hs : s.rest.length ≤ n) : Moves (plainStmt r) s := by
  unfold plainStmt
  simp only [halts_remaining]
  refine .ite (fun _ => localStmt_moves hr false hs) fun _ => ?_
  refine (expr_moves hr hs).bind fun e t _ hst => ?_
  exact (expect_moves .semi t).bind fun _ u htu _ => .pure (by omega)

theorem contextualStmt_moves (hr : r.MovesBelow n) (name : String) (hs : s.rest.length ≤ n)
    (h : s.current.kind.isEof = false) : Moves (contextualStmt r name) s := by
  unfold contextualStmt
  simp only [halts_peekKind]
  refine .ite (fun _ => ?_) fun _ => .ite (fun _ => ?_) fun _ => ?_
  · refine (skip_moves (by decide) h).bind fun _ t _ hst => ?_
    refine (hr.expr t (by omega)).bind fun value u htu _ => ?_
    exact (expect_moves .semi u).bind fun _ v huv _ => .pure (by omega)
  · refine (skip_moves (by decide) h).bind fun _ t _ hst => ?_
    exact (expect_moves .semi t).bind fun _ u htu _ => .pure (by omega)
  · exact .ite (fun _ => fixedStmt_moves hr hs) fun _ => .ite (fun _ => lockStmt_moves hr hs)
      fun _ => .ite (fun _ => switchStmt_moves hr hs) fun _ => plainStmt_moves hr hs

theorem keywordStmt_moves (hr : r.MovesBelow n) (w : Keyword) (hs : s.rest.length ≤ n)
    (h : s.current.kind.isEof = false) : Moves (keywordStmt r w) s := by
  have first : ∀ {p : Parse (StmtKind Stmt)}, (∀ t, t.rest.length < s.rest.length → Safe p t) →
      Moves (do let _ ← advance; p) s := by
    intro p hp
    refine (advance_moves h).bind fun _ t _ hst => ?_
    exact (hp t hst).mono fun _ u htu _ => by omega
  unfold keywordStmt
  split
  next => exact ifStmt_moves hr hs
  next =>
    refine first fun t hst => ?_
    refine (condition_moves hr (by omega)).bind fun cond u htu _ => ?_
    exact (hr.stmt u (by omega)).bind fun _ _ _ _ => .pure trivial
  next =>
    refine first fun t hst => ?_
    refine (hr.stmt t (by omega)).bind fun body u htu _ => ?_
    refine (expectWord_moves .whileKw u).bind fun _ v huv _ => ?_
    refine (condition_moves hr (by omega)).bind fun cond w hvw _ => ?_
    exact (expect_moves .semi w).bind fun _ _ _ _ => .pure trivial
  next => exact forStmt_moves hr hs
  next => exact forEachStmt_moves hr hs
  next =>
    exact first fun t hst => (optionalValue_moves hr (by omega)).bind fun _ _ _ _ => .pure trivial
  next =>
    exact first fun t hst => (optionalValue_moves hr (by omega)).bind fun _ _ _ _ => .pure trivial
  next => exact first fun t _ => (expect_moves .semi t).bind fun _ _ _ _ => .pure trivial
  next => exact first fun t _ => (expect_moves .semi t).bind fun _ _ _ _ => .pure trivial
  next => exact tryStmt_moves hr hs
  next =>
    simp only [halts_peekKind]
    refine .ite (fun _ => ?_) fun _ => plainStmt_moves hr hs
    exact first fun t hst => (block_moves hr (by omega)).bind fun _ _ _ _ => .pure trivial
  next => exact first fun t hst => (localStmt_moves hr true (by omega)).safe
  next =>
    simp only [halts_peekKind]
    refine .ite (fun _ => usingStmt_moves hr hs) fun _ => ?_
    exact first fun t hst => (localStmt_moves hr false (by omega)).safe
  next => exact plainStmt_moves hr hs

theorem stmt_moves (hr : r.MovesBelow n) (hs : s.rest.length ≤ n) : Moves (stmt r) s := by
  unfold stmt
  simp only [halts_currentStart, halts_currentKind]
  have finish : ∀ (k : StmtKind Stmt) (t : ParseState), t.rest.length < s.rest.length →
      Halts (finishStmt s.current.span.start k) t fun _ u => u.rest.length < s.rest.length :=
    fun k t hst => (finishStmt_safe _ _ t).mono fun _ u htu _ => by omega
  split
  next => exact (block_moves hr hs).bind fun body t _ hst => finish (.block body) t hst
  next h =>
    exact (advance_moves (by rw [h]; rfl)).bind fun _ t _ hst => finish .empty t hst
  next w h =>
    exact (keywordStmt_moves hr w hs (by rw [h]; rfl)).bind fun k t _ hst => finish k t hst
  next name h =>
    exact (contextualStmt_moves hr name hs (by rw [h]; rfl)).bind fun k t _ hst => finish k t hst
  next => exact (plainStmt_moves hr hs).bind fun k t _ hst => finish k t hst

theorem typeParams_safe (s : ParseState) : Safe typeParams s := by
  unfold typeParams
  refine (expect_moves .lt s).bind fun _ t _ _ => ?_
  refine (commaSeparated_safe fun u _ => ?_ : Safe _ t).bind fun names u _ _ => ?_
  · refine (skipAttributes_safe u).bind fun _ v _ _ => ?_
    refine (acceptWord_halts .inKw v).bind fun _ w _ _ => .ite (fun _ => ?_) fun _ => ?_
    · exact (expectName_moves w).safe
    · exact (acceptWord_halts .outKw w).bind fun _ x _ _ => (expectName_moves x).safe
  · exact (expectClosingAngle_safe u).bind fun _ _ _ _ => .pure trivial

theorem optionalTypeParams_safe (s : ParseState) : Safe optionalTypeParams s := by
  unfold optionalTypeParams
  simp only [halts_check]
  exact .ite (fun _ => typeParams_safe s) fun _ => .pure trivial

theorem param_safe (hr : r.MovesBelow n) (hs : s.rest.length ≤ n) : Safe (param r) s := by
  unfold param
  refine (skipAttributes_safe s).bind fun _ t hst _ => ?_
  simp only [halts_currentStart, halts_currentKind]
  have rest : ∀ (modifier : Option ParamModifier) (start : Nat) (u : ParseState),
      u.rest.length ≤ n → Safe (do
        let t ← type r
        let name ← expectName
        let default ← if ← accept .eq then some <$> r.expr else pure none
        return (⟨name, t, modifier, default, ← spanFrom start⟩ : Param)) u := by
    intro modifier start u hu
    refine (type_moves hr hu).bind fun type v _ huv => ?_
    refine (expectName_moves v).bind fun name w hvw _ => ?_
    refine (accept_halts .eq w).bind fun b x hwx _ => ?_
    refine .join (P := fun _ _ => True) (fun _ => .map (hr.expr x (by omega)).safe)
      (fun _ => .pure trivial) fun default y hxy _ => ?_
    simp only [halts_spanFrom]
    exact .pure trivial
  refine .ite (fun _ => ?_) fun _ => rest _ _ t (by omega)
  exact (advance_halts t).bind fun _ u htu _ => rest _ _ u (by omega)

theorem params_moves (hr : r.MovesBelow n) (hs : s.rest.length ≤ n) : Moves (params r) s := by
  unfold params
  refine (expect_moves .lParen s).bind fun _ t _ hst => ?_
  simp only [halts_check]
  refine .join (P := fun _ _ => True) (fun _ => .pure trivial)
    (fun _ => commaSeparated_safe fun u htu => param_safe hr (by omega)) fun list u htu _ => ?_
  exact (expect_moves .rParen u).bind fun _ v huv _ => .pure (by omega)

theorem fnBody_safe (hr : r.MovesBelow n) (hs : s.rest.length ≤ n) : Safe (fnBody r) s := by
  unfold fnBody
  simp only [halts_currentKind]
  split
  next => exact (block_moves hr hs).bind fun _ _ _ _ => .pure trivial
  next h =>
    refine (advance_moves (by rw [h]; rfl)).bind fun _ t _ hst => ?_
    refine (hr.expr t (by omega)).bind fun e u htu _ => ?_
    exact (expect_moves .semi u).bind fun _ _ _ _ => .pure trivial
  next => exact (advance_halts s).bind fun _ _ _ _ => .pure trivial
  next => exact failExpected_halts _

theorem method_safe (hr : r.MovesBelow n) (modifiers : List Modifier) (returnType : TypeRef)
    (name : String) (nameSpan : Span) (hs : s.rest.length ≤ n) :
    Safe (method r modifiers returnType name nameSpan) s := by
  unfold method
  refine (optionalTypeParams_safe s).bind fun typeParams t hst _ => ?_
  refine (params_moves hr (by omega)).bind fun list u htu _ => ?_
  refine (skipConstraints_safe u).bind fun _ v huv _ => ?_
  exact (fnBody_safe hr (by omega)).bind fun _ _ _ _ => .pure trivial

theorem constructorChain_safe (hr : r.MovesBelow n) (hs : s.rest.length ≤ n) :
    Safe (constructorChain r) s := by
  unfold constructorChain
  refine (accept_halts .colon s).bind fun b t hst _ => ?_
  refine .ite (fun _ => ?_) fun _ => .pure trivial
  simp only [halts_currentKind]
  refine .ite (fun _ => ?_) fun _ => failExpected_halts _
  refine (advance_halts t).bind fun _ u htu _ => ?_
  exact (arguments_moves hr (by omega)).bind fun _ _ _ _ => .pure trivial

theorem constructor_moves (hr : r.MovesBelow n) (modifiers : List Modifier)
    (hs : s.rest.length ≤ n) : Moves (constructor r modifiers) s := by
  unfold constructor
  simp only [halts_current]
  refine (expectName_moves s).bind fun name t _ hst => ?_
  refine (params_moves hr (by omega)).bind fun list u htu _ => ?_
  refine (constructorChain_safe hr (by omega)).bind fun chain v huv _ => ?_
  exact (fnBody_safe hr (by omega)).bind fun body w hvw _ => .pure (by omega)

theorem isEof_of_accessorKind? {k : TokenKind} {kind : AccessorKind}
    (h : k.accessorKind? = some kind) : k.isEof = false := by
  cases k with
  | eof => cases h
  | _ => rfl

theorem accessor_moves (hr : r.MovesBelow n) (hs : s.rest.length ≤ n) : Moves (accessor r) s := by
  unfold accessor
  refine (skipAttributes_safe s).bind fun _ t hst _ => ?_
  simp only [halts_currentStart]
  refine (modifiers_safe t).bind fun mods u htu _ => ?_
  simp only [halts_currentKind]
  split
  next kind h =>
    refine (advance_moves (isEof_of_accessorKind? h)).bind fun _ v _ huv => ?_
    refine (fnBody_safe hr (by omega)).bind fun body w hvw _ => ?_
    exact fresh_halts fun _ x hx => by omega
  next => exact failExpected_halts _

theorem accessors_safe (hr : r.MovesBelow n) (hs : s.rest.length ≤ n) : Safe (accessors r) s := by
  unfold accessors
  refine (expect_moves .lBrace s).bind fun _ t hst _ => ?_
  refine (loop_safe fun list u htu => ?_ : Safe _ t).bind fun list u htu _ => ?_
  · simp only [halts_check, halts_atEnd]
    refine .ite (fun _ => .pure fun h => by cases h) fun _ => ?_
    exact (accessor_moves hr (by omega)).bind fun _ _ _ moves => .pure fun _ => moves
  · exact (expect_moves .rBrace u).bind fun _ _ _ _ => .pure trivial

theorem propertyInitializer_safe (hr : r.MovesBelow n) (hs : s.rest.length ≤ n) :
    Safe (propertyInitializer r) s := by
  unfold propertyInitializer
  refine (optionalVarInitializer_safe hr hs).bind fun init t _ _ => ?_
  cases init with
  | some init => exact (expect_moves .semi t).bind fun _ _ _ _ => .pure trivial
  | none => exact .pure trivial

theorem property_safe (hr : r.MovesBelow n) (modifiers : List Modifier) (type : TypeRef)
    (name : String) (nameSpan : Span) (hs : s.rest.length ≤ n) :
    Safe (property r modifiers type name nameSpan) s := by
  unfold property
  refine (accept_halts .fatArrow s).bind fun b t hst moves => ?_
  refine .ite (fun hb => ?_) fun _ => ?_
  · have := moves hb
    refine (hr.expr t (by omega)).bind fun e u _ _ => ?_
    exact (expect_moves .semi u).bind fun _ _ _ _ => .pure trivial
  · refine (accessors_safe hr (by omega)).bind fun list u htu _ => ?_
    exact (propertyInitializer_safe hr (by omega)).bind fun _ _ _ _ => .pure trivial

theorem fieldDeclarators_safe (hr : r.MovesBelow n) (name : String) (nameSpan : Span)
    (hs : s.rest.length ≤ n) : Safe (fieldDeclarators r name nameSpan) s := by
  unfold fieldDeclarators
  refine (declaratorTail_safe hr name nameSpan hs).bind fun first t hst _ => ?_
  refine (accept_halts .comma t).bind fun b u htu _ => ?_
  refine .join (P := fun _ _ => True)
    (fun _ => commaSeparated_safe fun v huv => declarator_safe hr (by omega))
    (fun _ => .pure trivial) fun list v _ _ => ?_
  exact (expect_moves .semi v).bind fun _ _ _ _ => .pure trivial

theorem memberName_safe (s : ParseState) : Safe memberName s := by
  unfold memberName
  refine (expectName_moves s).bind fun first t _ _ => loop_safe fun name u htu => ?_
  simp only [halts_check, halts_peekKind]
  refine .ite (fun _ => ?_) fun _ => .pure fun h => by cases h
  refine (advance_halts u).bind fun _ v huv _ => ?_
  exact (expectName_moves v).bind fun _ w _ hvw => .pure fun _ => by omega

theorem typedMember_moves (hr : r.MovesBelow n) (modifiers : List Modifier)
    (hs : s.rest.length ≤ n) : Moves (typedMember r modifiers) s := by
  unfold typedMember
  refine (type_moves hr hs).bind fun type t _ hst => ?_
  simp only [halts_checkWord]
  refine .ite (fun _ => ?_) fun _ => ?_
  · simp only [halts_current]
    exact failAt_halts (by simp) _
  simp only [halts_checkName]
  refine .ite (fun _ => ?_) fun _ => ?_
  · simp only [halts_current]
    exact failAt_halts (by simp) _
  simp only [halts_currentStart]
  refine (memberName_safe t).bind fun name u htu _ => ?_
  simp only [halts_spanFrom, halts_currentKind]
  have behind : ∀ {p : Parse (MemberKind Member)}, Safe p u →
      Halts p u fun _ v => v.rest.length < s.rest.length :=
    fun hp => hp.mono fun _ v huv _ => by omega
  split
  next => exact behind ((method_safe hr _ _ _ _ (by omega)).bind fun _ _ _ _ => .pure trivial)
  next => exact behind ((method_safe hr _ _ _ _ (by omega)).bind fun _ _ _ _ => .pure trivial)
  next => exact behind ((property_safe hr _ _ _ _ (by omega)).bind fun _ _ _ _ => .pure trivial)
  next => exact behind ((property_safe hr _ _ _ _ (by omega)).bind fun _ _ _ _ => .pure trivial)
  next => exact behind ((fieldDeclarators_safe hr _ _ (by omega)).bind fun _ _ _ _ => .pure trivial)
  next => exact behind ((fieldDeclarators_safe hr _ _ (by omega)).bind fun _ _ _ _ => .pure trivial)
  next => exact behind ((fieldDeclarators_safe hr _ _ (by omega)).bind fun _ _ _ _ => .pure trivial)
  next => exact failExpected_halts _

theorem enumMember_moves (hr : r.MovesBelow n) (hs : s.rest.length ≤ n) :
    Moves (enumMember r) s := by
  unfold enumMember
  refine (skipAttributes_safe s).bind fun _ t hst _ => ?_
  simp only [halts_currentStart, halts_current]
  refine (expectName_moves t).bind fun name u _ htu => ?_
  refine (accept_halts .eq u).bind fun b v huv _ => ?_
  refine .join (P := fun _ _ => True) (fun _ => .map (hr.expr v (by omega)).safe)
    (fun _ => .pure trivial) fun value w hvw _ => ?_
  exact fresh_halts fun _ x hx => by omega

theorem enumMembers_safe (hr : r.MovesBelow n) (hs : s.rest.length ≤ n) :
    Safe (enumMembers r) s := by
  refine loop_safe fun list t hst => ?_
  simp only [halts_check, halts_atEnd]
  refine .ite (fun _ => .pure fun h => by cases h) fun _ => ?_
  refine (enumMember_moves hr (by omega)).bind fun m u _ htu => ?_
  refine (accept_halts .comma u).bind fun b v huv _ => ?_
  exact .ite (fun _ => .pure fun _ => by omega) fun _ => .pure fun h => by cases h

theorem membersStep_safe (hr : r.MovesBelow n) (name : String) (list : List Member)
    (hs : s.rest.length < n) : Safe (membersStep r name list) s := by
  unfold membersStep
  simp only [halts_check, halts_atEnd]
  refine .ite (fun _ => .pure trivial) fun _ => ?_
  refine (accept_halts .semi s).bind fun _ t hst _ => .ite (fun _ => .pure trivial) fun _ => ?_
  simp only [halts_remaining]
  refine (attempt_halts (hr.member name t (by omega))).bind fun x u _ hx => ?_
  cases x with
  | ok x => exact .pure trivial
  | error e =>
    refine (recordError_safe hx).bind fun b v _ _ => .ite (fun _ => ?_) fun _ => ?_
    · exact (recover_safe _ _ v).bind fun _ _ _ _ => .pure trivial
    · simp only [halts_remaining]
      exact (skip_safe _ v).bind fun _ _ _ _ => .pure trivial

theorem members_safe (hr : r.MovesBelow n) (name : String) (hs : s.rest.length < n) :
    Safe (members r name) s := by
  refine loop_safe fun list t hst => ?_
  exact (membersStep_safe hr name list (by omega)).of_ends
    (membersStep_advances (fun s => (hr.orderly.member name s).mono fun _ _ h => h.moves) list t)

theorem bases_safe (hr : r.MovesBelow n) (hs : s.rest.length ≤ n) : Safe (bases r) s := by
  unfold bases
  refine (accept_halts .colon s).bind fun b t hst _ => ?_
  refine .ite (fun _ => commaSeparated_safe fun u htu => ?_) fun _ => .pure trivial
  refine (type_moves hr (by omega)).bind fun type v huv _ => ?_
  simp only [halts_check]
  refine .ite (fun _ => ?_) fun _ => .pure trivial
  exact (arguments_moves hr (by omega)).bind fun _ _ _ _ => .pure trivial

theorem skipRecordKind_safe (s : ParseState) : Safe skipRecordKind s := by
  unfold skipRecordKind
  refine (acceptWord_halts .classKw s).bind fun _ t _ _ => .ite (fun _ => .pure trivial) fun _ => ?_
  exact (acceptWord_halts .structKw t).bind fun _ _ _ _ => .pure trivial

theorem isEof_of_typeKind? {k : TokenKind} {kind : TypeKind} (h : k.typeKind? = some kind) :
    k.isEof = false := by
  cases k with
  | eof => cases h
  | _ => rfl

theorem typeDecl_moves (hr : r.MovesBelow n) (mods : List Modifier) (hs : s.rest.length ≤ n) :
    Moves (typeDecl r mods) s := by
  unfold typeDecl
  simp only [halts_currentKind]
  split
  next => exact failExpected_halts _
  next kind h =>
  refine (advance_moves (isEof_of_typeKind? h)).bind fun _ a _ hsa => ?_
  refine .optional (fun b hab => ?_) fun rest => (skipRecordKind_safe a).bind fun _ b hab _ => rest b hab
  simp only [halts_current]
  refine (expectName_moves b).bind fun name c hbc _ => ?_
  refine (optionalTypeParams_safe c).bind fun typeParams d hcd _ => ?_
  simp only [halts_check]
  refine .optional (fun e hde => ?_) fun rest =>
    (params_moves hr (by omega)).bind fun _ e hde _ => rest e hde
  refine (bases_safe hr (by omega)).bind fun types f hef _ => ?_
  refine (skipConstraints_safe f).bind fun _ g hfg _ => ?_
  simp only [halts_check]
  refine .ite (fun _ => ?_) fun _ => ?_
  · exact (advance_halts g).bind fun _ h hgh _ => .pure (by omega)
  · refine (expect_moves .lBrace g).bind fun _ h hgh _ => ?_
    refine .join (P := fun _ _ => True) (fun _ => enumMembers_safe hr (by omega))
      (fun _ => members_safe hr name (by omega)) fun list i hhi _ => ?_
    refine (expect_moves .rBrace i).bind fun _ j hij _ => ?_
    exact (accept_halts .semi j).bind fun _ k hjk _ => .pure (by omega)

theorem member_moves (hr : r.MovesBelow n) (typeName : String) (hs : s.rest.length ≤ n) :
    Moves (member r typeName) s := by
  unfold member
  refine (skipAttributes_safe s).bind fun _ a hsa _ => ?_
  simp only [halts_currentStart]
  refine (modifiers_safe a).bind fun mods b hab _ => ?_
  simp only [halts_currentKind, halts_peekKind]
  have finish : ∀ (k : MemberKind Member) (c : ParseState), c.rest.length ≤ b.rest.length →
      c.rest.length < b.rest.length →
      Halts (do return (⟨← freshId, k, ← spanFrom a.current.span.start⟩ : Member)) c
        fun _ t => t.rest.length < s.rest.length :=
    fun k c _ hbc => fresh_halts fun _ t ht => by omega
  refine .ite (fun _ => ?_) fun _ => .ite (fun _ => ?_) fun _ => .ite (fun _ => ?_) fun _ => ?_
  · exact (Halts.map (typeDecl_moves hr mods (by omega))).bind finish
  · exact (Halts.map (constructor_moves hr mods (by omega))).bind finish
  · simp only [halts_current]
    exact (failAt_halts (by simp) _).bind finish
  · exact (typedMember_moves hr mods (by omega)).bind finish

theorem namespaceStep_safe {decl : Parse Decl} (topLevel : Bool) (list : List Decl)
    (hd : Moves decl s) : Safe (namespaceStep decl topLevel list) s := by
  unfold namespaceStep
  simp only [halts_check, halts_atEnd]
  refine .ite (fun _ => .pure trivial) fun _ => ?_
  simp only [halts_remaining]
  refine (attempt_halts hd).bind fun x t _ hx => ?_
  cases x with
  | ok x => exact .pure trivial
  | error e =>
    refine (recordError_safe hx).bind fun b u _ _ => .ite (fun _ => ?_) fun _ => .pure trivial
    exact (recover_safe _ _ u).bind fun _ _ _ _ => .pure trivial

theorem namespaceBody_safe (hr : r.MovesBelow n) (topLevel : Bool) (hs : s.rest.length < n) :
    Safe (namespaceBody r.decl topLevel) s := by
  refine loop_safe fun list t hst => ?_
  exact (namespaceStep_safe topLevel list (hr.decl t (by omega))).of_ends
    (namespaceStep_advances topLevel (fun s => (hr.orderly.decl s).mono fun _ _ h => h.moves) list t)

theorem usingAlias_safe (s : ParseState) : Safe usingAlias s := by
  unfold usingAlias
  simp only [halts_peekKind]
  refine .ite (fun _ => ?_) fun _ => .pure trivial
  refine (expectName_moves s).bind fun name t _ _ => ?_
  exact (advance_halts t).bind fun _ _ _ _ => .pure trivial

theorem usingDirective_moves (hr : r.MovesBelow n) (hs : s.rest.length ≤ n) :
    Moves (usingDirective r) s := by
  unfold usingDirective
  refine (expectWord_moves .usingKw s).bind fun _ t _ hst => ?_
  refine (acceptWord_halts .staticKw t).bind fun isStatic u htu _ => ?_
  refine (usingAlias_safe u).bind fun aliasName v huv _ => ?_
  refine (type_moves hr (by omega)).bind fun type w hvw _ => ?_
  exact (expect_moves .semi w).bind fun _ x hwx _ => .pure (by omega)

theorem namespaceName_safe (s : ParseState) : Safe namespaceName s := by
  unfold namespaceName
  refine (expectName_moves s).bind fun first t _ _ => loop_safe fun path u htu => ?_
  refine (accept_halts .dot u).bind fun b v huv moves => ?_
  refine .ite (fun _ => ?_) fun _ => .pure fun h => by cases h
  exact (expectName_moves v).bind fun _ w _ hvw => .pure fun _ => by omega

theorem namespaceDecl_moves (hr : r.MovesBelow n) (hs : s.rest.length ≤ n) :
    Moves (namespaceDecl r) s := by
  unfold namespaceDecl
  refine (expectWord_moves .namespaceKw s).bind fun _ t _ hst => ?_
  refine (namespaceName_safe t).bind fun name u htu _ => ?_
  refine (accept_halts .semi u).bind fun b v huv _ => ?_
  refine .ite (fun _ => ?_) fun _ => ?_
  · exact (namespaceBody_safe hr true (by omega)).bind fun decls w hvw _ => .pure (by omega)
  · refine (expect_moves .lBrace v).bind fun _ w hvw _ => ?_
    refine (namespaceBody_safe hr false (by omega)).bind fun decls x hwx _ => ?_
    exact (expect_moves .rBrace x).bind fun _ y hxy _ => .pure (by omega)

theorem decl_moves (hr : r.MovesBelow n) (hs : s.rest.length ≤ n) : Moves (decl r) s := by
  unfold decl
  refine (skipAttributes_safe s).bind fun _ a hsa _ => ?_
  simp only [halts_currentStart, halts_currentKind]
  have finish : ∀ (k : DeclKind Decl) (b : ParseState), b.rest.length ≤ a.rest.length →
      b.rest.length < a.rest.length →
      Halts (do return (⟨← freshId, k, ← spanFrom a.current.span.start⟩ : Decl)) b
        fun _ t => t.rest.length < s.rest.length :=
    fun k b _ hab => fresh_halts fun _ t ht => by omega
  split
  · exact (Halts.map (usingDirective_moves hr (by omega))).bind finish
  · exact (Halts.map (namespaceDecl_moves hr (by omega))).bind finish
  · refine (Halts.map ?_).bind finish
    unfold topTypeDecl
    refine (modifiers_safe a).bind fun mods b hab _ => ?_
    exact (typeDecl_moves hr mods (by omega)).mono fun _ c _ hbc => by omega

end Parse

open Parse

/-! ## The grammar as a whole -/

theorem Rules.MovesBelow.step {r : Rules} {n : Nat} (hr : r.MovesBelow n) :
    r.step.MovesBelow (n + 1) where
  orderly := hr.orderly.step
  type _ hs := type_moves hr (Nat.le_of_lt_succ hs)
  expr _ hs := expr_moves hr (Nat.le_of_lt_succ hs)
  exprAbove least _ hs := exprAbove_moves hr least (Nat.le_of_lt_succ hs)
  varInitializer _ hs := varInitializer_moves hr (Nat.le_of_lt_succ hs)
  stmt _ hs := stmt_moves hr (Nat.le_of_lt_succ hs)
  member typeName _ hs := member_moves hr typeName (Nat.le_of_lt_succ hs)
  decl _ hs := decl_moves hr (Nat.le_of_lt_succ hs)

theorem Rules.movesBelow (n : Nat) : (Rules.depth n).MovesBelow n := by
  induction n with
  | zero =>
    constructor
    case orderly => exact Rules.orderly 0
    all_goals
      intros
      omega
  | succ n ih => exact ih.step

/-- Where a run ends, tokens were read from the front, and one at least for each of the results
that count. -/
def Parse.Advances {α : Type} (counts : α → Bool) (p : Parse α) : Prop :=
  ∀ s, match p s with
  | .ok a t => t.rest <:+ s.rest ∧ (counts a = true → t.rest.length < s.rest.length)
  | .error _ t => t.rest <:+ s.rest

theorem Parse.advances_of_ends {α : Type} {counts : α → Bool} {p : Parse α}
    (h : ∀ s, Ends p s fun a t => counts a = true → t.rest.length < s.rest.length) :
    p.Advances counts := by
  intro s
  have hs := h s
  cases hp : p s with
  | ok a t =>
    obtain ⟨hst, hMoves⟩ := (ends_of_ok hp).mp hs
    exact ⟨hst.suffix, hMoves⟩
  | error e t => exact ((ends_of_error hp).mp hs).suffix

/-- Every rule that succeeds has read a token, and so has every repetition of a loop that recovers
from errors and goes on. -/
structure Rules.Advances (r : Rules) : Prop where
  type : r.type.Advances fun _ => true
  expr : r.expr.Advances fun _ => true
  exprAbove : ∀ least, (r.exprAbove least).Advances fun _ => true
  varInitializer : r.varInitializer.Advances fun _ => true
  stmt : r.stmt.Advances fun _ => true
  member : ∀ typeName, (r.member typeName).Advances fun _ => true
  decl : r.decl.Advances fun _ => true
  blockStep : ∀ body, (Parse.blockStep r body).Advances Sum.isLeft
  membersStep : ∀ typeName list, (Parse.membersStep r typeName list).Advances Sum.isLeft
  namespaceStep : ∀ topLevel list, (Parse.namespaceStep r.decl topLevel list).Advances Sum.isLeft

theorem Rules.Orderly.advances {r : Rules} (hr : r.Orderly) : r.Advances where
  type := advances_of_ends fun s => (hr.type s).mono fun _ _ h _ => h.moves
  expr := advances_of_ends fun s => (hr.expr s).mono fun _ _ h _ => h.moves
  exprAbove least := advances_of_ends fun s => (hr.exprAbove least s).mono fun _ _ h _ => h.moves
  varInitializer := advances_of_ends fun s => (hr.varInitializer s).mono fun _ _ h _ => h.moves
  stmt := advances_of_ends fun s => (hr.stmt s).mono fun _ _ h _ => h.moves
  member name := advances_of_ends fun s => (hr.member name s).mono fun _ _ h _ => h.moves
  decl := advances_of_ends fun s => (hr.decl s).mono fun _ _ h _ => h.moves
  blockStep body := advances_of_ends fun s =>
    blockStep_advances (fun s => (hr.stmt s).mono fun _ _ h => h.moves) body s
  membersStep name list := advances_of_ends fun s =>
    membersStep_advances (fun s => (hr.member name s).mono fun _ _ h => h.moves) list s
  namespaceStep topLevel list := advances_of_ends fun s =>
    namespaceStep_advances topLevel (fun s => (hr.decl s).mono fun _ _ h => h.moves) list s

/-- There is a result in every state. -/
def Parse.Succeeds {α : Type} (p : Parse α) : Prop := ∀ s, ∃ a t, p s = .ok a t

namespace Parse

variable {α β : Type}

theorem Succeeds.bind {p : Parse α} {f : α → Parse β} (hp : p.Succeeds)
    (hf : ∀ a, (f a).Succeeds) : (p >>= f).Succeeds := by
  intro s
  obtain ⟨a, t, hp⟩ := hp s
  obtain ⟨b, u, hf⟩ := hf a t
  refine ⟨b, u, ?_⟩
  exact (bind_of_ok hp).trans hf

theorem Succeeds.ite {c : Prop} [Decidable c] {p q : Parse α} (hp : p.Succeeds) (hq : q.Succeeds) :
    (if c then p else q).Succeeds := by
  split
  · exact hp
  · exact hq

theorem succeeds_pure (a : α) : (Pure.pure a : Parse α).Succeeds := fun s => ⟨a, s, rfl⟩

theorem succeeds_attempt (p : Parse α) : (attempt p).Succeeds := by
  intro s
  cases h : p s with
  | ok a t => exact ⟨.ok a, t, attempt_of_ok h⟩
  | error e t => exact ⟨.error e, t, attempt_of_error h⟩

theorem succeeds_advance : advance.Succeeds := by
  intro s
  obtain ⟨a, t, h, _⟩ := advance_eq_ok s
  exact ⟨a, t, h⟩

/-- An error inside a declaration is kept, so that no step fails. -/
theorem succeeds_namespaceStep (decl : Parse Decl) (topLevel : Bool) (list : List Decl) :
    (namespaceStep decl topLevel list).Succeeds := by
  have reads : ∀ {γ : Type} {p : Parse γ}, (∀ s, ∃ a, p s = .ok a s) → p.Succeeds := fun h s =>
    let ⟨a, ha⟩ := h s
    ⟨a, s, ha⟩
  unfold namespaceStep
  refine (reads fun _ => ⟨_, rfl⟩).bind fun _ => (reads fun _ => ⟨_, rfl⟩).bind fun _ => ?_
  refine .ite (succeeds_pure _) ?_
  refine (reads fun _ => ⟨_, rfl⟩).bind fun before => (succeeds_attempt decl).bind fun x => ?_
  cases x with
  | ok d => exact succeeds_pure _
  | error e =>
    refine Succeeds.bind (fun s => ⟨_, _, rfl⟩) fun b => .ite ?_ (succeeds_pure _)
    refine Succeeds.bind ?_ fun _ => succeeds_pure _
    unfold recover
    refine (reads fun _ => ⟨_, rfl⟩).bind fun _ => Succeeds.bind (fun s => ⟨_, _, rfl⟩) fun _ => ?_
    refine (reads fun _ => ⟨_, rfl⟩).bind fun _ => .ite ?_ (succeeds_pure _)
    exact succeeds_advance.bind fun _ => succeeds_pure _

theorem withRules_eq (p : Rules → Parse α) (s : ParseState) :
    withRules p s = p (Rules.depth (s.rest.length + 1)) s := rfl

theorem loop_eq (body : α → Parse (α ⊕ β)) (a : α) (s : ParseState) :
    loop body a s = iterate body (s.rest.length + 1) a s := rfl

/-- Where the steps of a loop cannot fail, the loop fails only at its bound. -/
theorem cause_of_iterate_eq_error {body : α → Parse (α ⊕ β)} (hb : ∀ a, (body a).Succeeds)
    {n : Nat} {a : α} {s t : ParseState} {e : ParseError}
    (h : iterate body n a s = .error e t) : e.cause = .nesting := by
  induction n generalizing a s with
  | zero =>
    cases h
    rfl
  | succ n ih =>
    obtain ⟨x, u, hx⟩ := hb a s
    unfold iterate at h
    rw [bind_of_ok hx] at h
    cases x with
    | inl next => exact ih h
    | inr result => cases h

/-- The declarations at the top end where the text does, unless an error was met. -/
theorem namespaceBody_atEnd {decl : Parse Decl}
    (hd : ∀ s, Ends decl s fun d t => s.Yields false t [.decl d]) (s : ParseState) :
    Ends (namespaceBody decl true) s fun _ t =>
      t.current.kind.isEof = true ∨ t.errors ≠ s.errors := by
  refine loop_ends (fun _ t => s.LeadsTo t) (.refl s) fun list t hst => ?_
  unfold namespaceStep
  simp only [ends_check, ends_atEnd]
  refine .ite (fun hEnd => .pure (.inl (by simpa using hEnd))) fun _ => ?_
  simp only [ends_remaining]
  refine (attempt_ends (hd t)).bind fun x u htu => ?_
  cases x with
  | ok d => exact .pure (hst.trans htu.leadsTo)
  | error e =>
    refine (recordError_ends e).bind fun b v hRead => ?_
    obtain ⟨huv, hne⟩ := hRead
    have hsu := hst.trans htu
    refine .ite (fun _ => ?_) fun _ => .pure (.inr (hsu.ne_of_ne_right huv hne))
    exact (recover_ends (Tokens.inner_toDecl 0 v.rest)).bind fun _ w hvw =>
      .pure ((hsu.trans huv).trans hvw.toLeadsTo)

end Parse

/-- The declarations of a text are read without failing, and to its end unless an error is met. -/
theorem Parse.exists_namespaceBody_eq_ok (s : ParseState) : ∃ list t,
    withRules (fun r => namespaceBody r.decl true) s = .ok list t ∧ s.LeadsTo t ∧ s.Quiet t ∧
      (t.current.kind.isEof = true ∨ t.errors ≠ s.errors) := by
  have hr := Rules.movesBelow (s.rest.length + 1)
  have hSafe := namespaceBody_safe hr true (Nat.lt_succ_self s.rest.length)
  have hEnd := namespaceBody_atEnd hr.orderly.decl s
  rw [withRules_eq]
  cases h : namespaceBody (Rules.depth (s.rest.length + 1)).decl true s with
  | ok list t =>
    obtain ⟨hLeads, hAtEnd⟩ := (ends_of_ok h).mp hEnd
    exact ⟨list, t, rfl, hLeads, ((halts_of_ok h).mp hSafe).1, hAtEnd⟩
  | error e t =>
    obtain ⟨_, _, hCause⟩ := (halts_of_error h).mp hSafe
    unfold namespaceBody at h
    rw [loop_eq] at h
    exact absurd (cause_of_iterate_eq_error (succeeds_namespaceStep _ true) h) hCause

theorem Parse.exists_compilationUnit_eq_ok (s : ParseState) : ∃ list t,
    compilationUnit s = .ok (⟨list, ⟨0, t.endOffset⟩⟩, t.errors) { t with errors := [] } ∧
      s.LeadsTo t ∧ s.Quiet t ∧ (t.current.kind.isEof = true ∨ t.errors ≠ s.errors) := by
  obtain ⟨list, t, hRun, h⟩ := exists_namespaceBody_eq_ok s
  rcases compilationUnit_cases s with ⟨list', t', hRun', hUnit⟩ | ⟨e, t', hRun', _⟩
  · rw [hRun] at hRun'
    cases hRun'
    exact ⟨list, t, hUnit, h⟩
  · rw [hRun] at hRun'
    cases hRun'

theorem Parse.compilationUnit_advances : compilationUnit.Advances fun _ => false := by
  intro s
  obtain ⟨list, t, hRun, hLeads, _⟩ := exists_compilationUnit_eq_ok s
  rw [hRun]
  exact ⟨hLeads.suffix, fun h => by cases h⟩

theorem Parse.expression_moves (s : ParseState) : Moves expression s := by
  unfold expression withRules
  simp only [halts_remaining]
  exact (Rules.movesBelow _).expr s (Nat.lt_succ_self _)

theorem Parse.expression_advances : expression.Advances fun _ => true := by
  refine advances_of_ends fun s => ?_
  unfold expression withRules
  simp only [ends_remaining]
  exact ((Rules.orderly _).expr s).mono fun _ _ h _ => h.moves

theorem Parse.advance_advances : advance.Advances fun x => !x.kind.isEof := by
  refine advances_of_ends fun s => (advance_ends s).mono fun x t hRead h => ?_
  obtain ⟨hx, _, takes⟩ := hRead
  subst hx
  exact (takes (by simpa using h)).moves

/-- A unit and an expression are read without ever meeting a bound. Every rule that succeeds, and
every repetition of a loop that recovers from errors and goes on, has read a token, and none gives
one back. A unit without errors has been read to the first end of the text. -/
theorem parsing_halts_and_advances (tokens : List Token) :
    (∃ unit errors t, compilationUnit (.ofTokens tokens) = .ok (unit, errors) t ∧
      (∀ e ∈ errors, e.cause ≠ .nesting) ∧
      (errors = [] → t.current.kind.isEof = true ∧
        ∃ read, tokens = read ++ t.rest ∧ Tokens.Inner read)) ∧
    (match expression (.ofTokens tokens) with
      | .ok _ t => ∀ e ∈ t.errors, e.cause ≠ .nesting
      | .error e t => ∀ x ∈ e :: t.errors, x.cause ≠ .nesting) ∧
    (compilationUnit.Advances fun _ => false) ∧ (expression.Advances fun _ => true) ∧
    (advance.Advances fun x => !x.kind.isEof) ∧
    ∀ n, (Rules.depth n).Advances := by
  have quiet : ∀ t, (ParseState.ofTokens tokens).Quiet t → ∀ e ∈ t.errors, e.cause ≠ .nesting := by
    intro t h e he
    rcases h e he with he | he
    · cases he
    · exact he
  refine ⟨?_, ?_, compilationUnit_advances, expression_advances, advance_advances,
    fun n => (Rules.orderly n).advances⟩
  · obtain ⟨list, t, hRun, hLeads, hQuiet, hEnd⟩ := exists_compilationUnit_eq_ok (.ofTokens tokens)
    refine ⟨_, _, _, hRun, quiet t hQuiet, fun hErrors => ⟨?_, ?_⟩⟩
    · exact hEnd.resolve_right fun hne => hne hErrors
    · obtain ⟨read, hRead, hInner, _⟩ := hLeads.read
      exact ⟨read, hRead, hInner⟩
  · have hSafe := expression_moves (.ofTokens tokens)
    unfold Moves Halts at hSafe
    cases h : expression (.ofTokens tokens) with
    | ok e t =>
      rw [h] at hSafe
      exact quiet t hSafe.1
    | error e t =>
      rw [h] at hSafe
      intro x hx
      rcases List.mem_cons.mp hx with rfl | hx
      · exact hSafe.2.2
      · exact quiet t hSafe.1 x hx

end Stackable
