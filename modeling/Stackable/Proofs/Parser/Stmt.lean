import Stackable.Proofs.Parser.Expr

/-!
# Statements as they are read

Every statement is laid out over its parts. Where an error is kept, what was read of a statement
is lost; otherwise nothing is, the exception filters of handlers apart.
-/

set_option autoImplicit false

namespace Stackable

open ParseState

theorem Parse.Ends.run {α : Type} {p : Parse α} {s : ParseState} {Q : α → ParseState → Prop}
    (h : Ends p s Q) : Ends p s fun a t => Q a t ∧ p s = .ok a t := by
  cases hp : p s with
  | ok a t =>
    obtain ⟨hst, hQ⟩ := (ends_of_ok hp).mp h
    exact (ends_of_ok hp).mpr ⟨hst, hQ, rfl⟩
  | error e t => exact (ends_of_error hp).mpr ((ends_of_error hp).mp h)

/-- After an error the numbers handed out since are lost. -/
theorem ParseState.Yields.lost {loose : Bool} {s t u : ParseState} {xs : List Node}
    (h : s.Yields loose t xs) (htu : t.LeadsTo u) (hne : u.errors ≠ t.errors) :
    s.Yields loose u xs := by
  have := h.append (.faulty htu hne)
  rwa [List.append_nil] at this

namespace Parse

variable {r : Rules} {s t : ParseState}

theorem optionalVarInitializer_ends (hr : r.Orderly) (s : ParseState) :
    Ends (optionalVarInitializer r) s fun init t =>
      s.Yields false t (init.map fun i => Node.expr i.value).toList := by
  unfold optionalVarInitializer
  simp only [ends_check]
  refine .ite (fun _ => ?_) fun _ => .pure (.refl s)
  refine (advance_passes s).bind fun mark t hst => ?_
  exact (varInitializer_ends hr t).bind fun e u htu => .pure (htu.after hst)

theorem declaratorTail_ends (hr : r.Orderly) (name : String) {nameSpan : Span} (hst : s.Takes t)
    (hstart : nameSpan.start = s.current.span.start) :
    Ends (declaratorTail r name nameSpan) t fun d u => s.Yields false u [.declarator d] := by
  unfold declaratorTail
  refine (optionalVarInitializer_ends hr t).bind fun init u htu => fresh_ends ?_
  rw [hstart]
  exact .node (.refl s) (htu.behind hst) rfl rfl fun _ h => by cases h

theorem declarator_ends (hr : r.Orderly) (s : ParseState) :
    Ends (declarator r) s fun d t => s.Yields false t [.declarator d] := by
  unfold declarator
  simp only [ends_current]
  exact (expectName_ends s).bind fun name t hst => declaratorTail_ends hr name hst rfl

theorem declarators_ends (hr : r.Orderly) (s : ParseState) :
    Ends (commaSeparated (declarator r)) s fun ds t => s.Yields false t (ds.map .declarator) := by
  refine (commaSeparated_yields (fun d => [.declarator d]) (declarator_ends hr) s).mono
    fun ds t hst => ?_
  rwa [← List.map_eq_flatMap] at hst

theorem localDecl_ends (hr : r.Orderly) (isConst : Bool) (s : ParseState) :
    Ends (localDecl r isConst) s fun d t => s.Reads false t (d.declarators.map .declarator) := by
  unfold localDecl
  refine (type_ends hr s).bind fun type t hst => ?_
  exact (declarators_ends hr t).bind fun ds u htu => .pure (htu.behind hst)

theorem blockStep_ends (hr : r.Orderly) {body : List Stmt} (h : s.Yields false t (body.map .stmt)) :
    Ends (blockStep r body) t fun b u =>
      Sum.elim (fun body => s.Yields false u (body.map .stmt))
        (fun body => s.Yields false u (body.map .stmt)) b := by
  unfold blockStep
  simp only [ends_check, ends_atEnd]
  refine .ite (fun _ => .pure h) fun _ => ?_
  refine (attempt_ends (hr.stmt t)).bind fun outcome u hu => ?_
  cases outcome with
  | ok x =>
    refine .pure ?_
    change s.Yields false u ((body ++ [x]).map .stmt)
    rw [List.map_append]
    exact h.append hu
  | error e =>
    refine (recordError_ends e).bind fun goOn v hRead => ?_
    obtain ⟨huv, hne⟩ := hRead
    -- the statement is dropped, so that its numbers are left out
    have hsv := h.lost (hu.trans huv) (hu.ne_of_ne_right huv hne)
    refine .ite (fun _ => ?_) fun _ => ?_
    · exact (recover_ends (Tokens.inner_toStmt v.rest)).bind fun _ w hvw =>
        .pure (hsv.passes hvw)
    · simp only [ends_remaining]
      exact (skip_passes (Tokens.inner_toClosingBrace 1 v.rest)).bind fun _ w hvw =>
        .pure (hsv.passes hvw)

theorem block_ends (hr : r.Orderly) (s : ParseState) :
    Ends (block r) s fun body t => s.Reads false t (body.map .stmt) := by
  unfold block
  refine (expect_ends .lBrace s).bind fun _ t hst => ?_
  refine (loop_ends (fun body u => t.Yields false u (body.map .stmt)) (.refl t)
    (fun body u htu => blockStep_ends hr htu)).bind fun body u htu => ?_
  refine (expect_ends .rBrace u).bind fun _ v huv => .pure ?_
  have htv := htu.passes huv.toPasses
  exact htv.behind hst

theorem condition_ends (hr : r.Orderly) (s : ParseState) :
    Ends (condition r) s fun e t => s.Yields false t [.expr e] := by
  unfold condition
  refine (expect_ends .lParen s).bind fun _ t hst => ?_
  refine (hr.expr t).bind fun e u htu => ?_
  exact (expect_ends .rParen u).bind fun _ v huv =>
    .pure ((htu.passes huv.toPasses).after hst.toPasses)

theorem ifStmt_ends (hr : r.Orderly) (s : ParseState) :
    Ends (ifStmt r) s fun k t => s.Reads false t k.nodes := by
  unfold ifStmt
  refine (expectWord_ends .ifKw s).bind fun _ t hst => ?_
  refine (condition_ends hr t).bind fun cond u htu => ?_
  refine (hr.stmt u).bind fun whenTrue v huv => ?_
  refine (acceptWord_passes .elseKw v).bind fun b w hvw => ?_
  have htw := (htu.append huv).passes hvw
  refine .join (P := fun whenFalse x => w.Yields false x (whenFalse.map Node.stmt).toList)
    (fun _ => (hr.stmt w).map fun x y hwy => hwy) (fun _ => .pure (.refl w))
    fun whenFalse x hwx => .pure ?_
  have hsx := (htw.append hwx).after hst.toPasses
  exact hsx.reads

theorem declOrExpr_ends (hr : r.Orderly) (s : ParseState) :
    Ends (declOrExpr r) s fun x t => s.Yields false t [.stmt x] := by
  unfold declOrExpr
  simp only [ends_currentStart, ends_remaining]
  refine .ite (fun _ => ?_) fun _ => ?_
  · exact (localDecl_ends hr false s).bind fun d t hst => finishStmt_ends hst
  · exact (hr.expr s).bind fun e t hst => finishStmt_ends hst.reads

theorem forInit_ends (hr : r.Orderly) (s : ParseState) :
    Ends (forInit r) s fun xs t => s.Yields false t (xs.map .stmt) := by
  unfold forInit
  simp only [ends_check]
  refine .ite (fun _ => .pure (.refl s)) fun _ => ?_
  simp only [ends_remaining]
  refine .ite (fun _ => ?_) fun _ => ?_
  · exact (declOrExpr_ends hr s).bind fun x t hst => .pure hst
  · refine (commaSeparated_yields (fun x => [.stmt x]) (fun t => ?_) s :
      Ends _ s fun xs t => s.Yields false t _).mono fun xs t hst => ?_
    · simp only [ends_currentStart]
      exact (hr.expr t).bind fun e u htu => finishStmt_ends htu.reads
    · rwa [← List.map_eq_flatMap] at hst

theorem forStmt_ends (hr : r.Orderly) (s : ParseState) :
    Ends (forStmt r) s fun k t => s.Reads false t k.nodes := by
  unfold forStmt
  refine (expectWord_ends .forKw s).bind fun _ a hsa => ?_
  refine (expect_ends .lParen a).bind fun _ b hab => ?_
  refine (forInit_ends hr b).bind fun init c hbc => ?_
  refine (expect_ends .semi c).bind fun _ d hcd => ?_
  simp only [ends_check]
  refine .join (P := fun cond e => d.Yields false e (cond.map Node.expr).toList)
    (fun _ => .pure (.refl d)) (fun _ => (hr.expr d).map fun _ _ h => h) fun cond e hde => ?_
  refine (expect_ends .semi e).bind fun _ f hef => ?_
  simp only [ends_check]
  refine .join (P := fun update g => f.Yields false g (update.map .expr))
    (fun _ => .pure (.refl f)) (fun _ => ?_) fun update g hfg => ?_
  · refine (commaSeparated_yields (fun e => [.expr e]) hr.expr f).mono fun es g hfg => ?_
    rwa [← List.map_eq_flatMap] at hfg
  refine (expect_ends .rParen g).bind fun _ h hgh => ?_
  refine (hr.stmt h).bind fun body i hhi => .pure ?_
  have hbe := (hbc.passes hcd.toPasses).append hde
  have hbi := (((hbe.passes hef.toPasses).append hfg).passes hgh.toPasses).append hhi
  have hsb := hsa.trans hab
  exact hbi.behind hsb

theorem forEachStmt_ends (hr : r.Orderly) (s : ParseState) :
    Ends (forEachStmt r) s fun k t => s.Reads false t k.nodes := by
  unfold forEachStmt
  refine (expectWord_ends .foreachKw s).bind fun _ a hsa => ?_
  refine (expect_ends .lParen a).bind fun _ b hab => ?_
  refine (type_ends hr b).bind fun type c hbc => ?_
  refine (expectName_ends c).bind fun name d hcd => ?_
  refine (expectWord_ends .inKw d).bind fun _ e hde => ?_
  refine (hr.expr e).bind fun iter f hef => ?_
  refine (expect_ends .rParen f).bind fun _ g hfg => ?_
  refine (hr.stmt g).bind fun body h hgh => .pure ?_
  have hse := (((hsa.trans hab).trans hbc).trans hcd).trans hde
  have hsh := ((hef.passes hfg.toPasses).append hgh).after hse.toPasses
  exact hsh.reads

theorem caught_ends (hr : r.Orderly) (s : ParseState) :
    Ends (caught r) s fun _ t => s.Passes t := by
  unfold caught
  refine (accept_passes .lParen s).bind fun b t hst => ?_
  refine .ite (fun _ => ?_) fun _ => .pure hst
  refine (type_ends hr t).bind fun type u htu => ?_
  refine (designation_ends u).bind fun name v huv => ?_
  exact (expect_ends .rParen v).bind fun _ w hvw =>
    .pure (((hst.trans htu.toPasses).trans huv).trans hvw.toPasses)

/-- A filter is read and left out. -/
theorem catchFilter_ends (hr : r.Orderly) (s : ParseState) :
    Ends (catchFilter r) s fun _ t => s.Yields false t [] := by
  have read : Ends (catchFilter r) s fun filter t =>
      s.Yields false t (filter.map Node.expr).toList := by
    unfold catchFilter
    simp only [ends_checkName]
    refine .ite (fun _ => ?_) fun _ => .pure (.refl s)
    refine (advance_passes s).bind fun _ t hst => ?_
    exact (condition_ends hr t).bind fun e u htu => .pure (htu.after hst)
  refine read.run.mono fun filter t hRead => ?_
  obtain ⟨hst, run⟩ := hRead
  cases filter with
  | none => exact hst
  | some e =>
    -- the run itself is kept: it alone tells which numbers the filter took
    obtain ⟨n, rfl⟩ := hr.depth
    exact ⟨hst.leadsTo, .filter (.refl _ _) ⟨n, s, t, run, rfl, rfl⟩ hst.laid (.nil (.refl _ _))⟩

theorem catchClause_ends (hr : r.Orderly) (s : ParseState) :
    Ends (catchClause r) s fun c t => s.Yields false t (c.body.map .stmt) := by
  unfold catchClause
  simp only [ends_currentStart]
  refine (expectWord_ends .catchKw s).bind fun _ t hst => ?_
  refine (caught_ends hr t).bind fun found u htu => ?_
  obtain ⟨type, name⟩ := found
  refine (catchFilter_ends hr u).bind fun _ v huv => ?_
  refine (block_ends hr v).bind fun body w hvw => ?_
  simp only [ends_spanFrom]
  exact .pure ((huv.append hvw.toYields).after (hst.toPasses.trans htu))

theorem catchClauses_ends (hr : r.Orderly) (s : ParseState) :
    Ends (catchClauses r) s fun cs t =>
      s.Yields false t (cs.flatMap fun c => c.body.map .stmt) := by
  refine loop_ends (fun (cs : List (CatchClause Stmt)) t =>
    s.Yields false t (cs.flatMap fun c => c.body.map Node.stmt)) (.refl s) fun cs t hst => ?_
  simp only [ends_checkWord]
  refine .ite (fun _ => ?_) fun _ => .pure hst
  refine (catchClause_ends hr t).bind fun c u htu => .pure ?_
  have := hst.append htu
  simpa [List.flatMap_append] using this

theorem tryStmt_ends (hr : r.Orderly) (s : ParseState) :
    Ends (tryStmt r) s fun k t => s.Reads false t k.nodes := by
  unfold tryStmt
  simp only [ends_current]
  refine (expectWord_ends .tryKw s).bind fun _ t hst => ?_
  refine (block_ends hr t).bind fun body u htu => ?_
  refine (catchClauses_ends hr u).bind fun catches v huv => ?_
  refine (acceptWord_passes .finallyKw v).bind fun b w hvw => ?_
  refine .join (P := fun (finish : Option (List Stmt)) x =>
      w.Yields false x ((finish.getD []).map Node.stmt))
    (fun _ => (block_ends hr w).map fun _ _ h => h.toYields) (fun _ => .pure (.refl w))
    fun finish x hwx => ?_
  refine .ite (fun _ => ?_) fun _ => .pure ?_
  · simp only [ends_currentKind]
    exact failAt_ends _ _
  · have htx := ((htu.append huv).passes hvw).append hwx
    exact htx.after hst.toPasses

theorem inner_take_two {ts : List Token} (first : (Tokens.kind ts).isEof = false)
    (second : (Tokens.kind (ts.drop 1)).isEof = false) : Tokens.Inner (ts.take 2) := by
  match ts with
  | [] => exact Tokens.inner_nil
  | [x] => exact Tokens.inner_nil.cons fun h => by simp [Tokens.kind, h, TokenKind.isEof] at first
  | x :: y :: rest =>
    refine (Tokens.inner_nil.cons fun h => ?_).cons fun h => ?_
    · simp [Tokens.kind, h, TokenKind.isEof] at second
    · simp [Tokens.kind, h, TokenKind.isEof] at first

/-- A name and the keyword that makes it the first word of a statement. -/
theorem inner_contextualWord {name : String} {w : Keyword} (h : s.current.kind = .ident name)
    (hw : (Tokens.kind (s.rest.drop 1)).isKeyword w = true) : Tokens.Inner (s.rest.take 2) := by
  refine inner_take_two ?_ (isEof_of_isKeyword hw)
  rw [kind_rest, h]
  rfl

theorem caseLabels_ends (hr : r.Orderly) (s : ParseState) :
    Ends (caseLabels r) s fun labels t =>
      s.Yields false t ((labels.filterMap fun l => l).map .expr) := by
  refine loop_ends (fun labels t => s.Yields false t ((labels.filterMap fun l => l).map .expr))
    (.refl s) fun labels t hst => ?_
  simp only [ends_checkName]
  refine .ite (fun _ => ?_) fun _ => ?_
  · refine (advance_passes t).bind fun _ u htu => ?_
    refine (hr.expr u).bind fun label v huv => ?_
    refine (expect_ends .colon v).bind fun _ w hvw => .pure ?_
    have hsw := ((hst.passes htu).append huv).passes hvw.toPasses
    simpa using hsw
  · simp only [ends_atDefaultLabel]
    refine .ite (fun hDefault => ?_) fun _ => .pure hst
    rw [Bool.and_eq_true, ← kind_rest] at hDefault
    have inner := inner_take_two (isEof_of_isKeyword hDefault.1) (isEof_of_isPunct hDefault.2)
    refine (skip_passes inner).bind fun _ u htu => .pure ?_
    simpa using hst.passes htu

theorem switchBody_ends (hr : r.Orderly) (s : ParseState) :
    Ends (switchBody r) s fun body t => s.Yields false t (body.map .stmt) := by
  refine loop_ends (fun body t => s.Yields false t (body.map .stmt)) (.refl s) fun body t hst => ?_
  simp only [ends_check, ends_atEnd, ends_checkName, ends_atDefaultLabel]
  refine .ite (fun _ => .pure hst) fun _ => ?_
  refine (hr.stmt t).bind fun x u htu => .pure ?_
  change s.Yields false u ((body ++ [x]).map .stmt)
  rw [List.map_append]
  exact hst.append htu

theorem switchSection_ends (hr : r.Orderly) (s : ParseState) :
    Ends (switchSection r) s fun x t =>
      s.Yields false t ((x.labels.filterMap fun l => l).map .expr ++ x.body.map .stmt) := by
  unfold switchSection
  refine (caseLabels_ends hr s).bind fun labels t hst => ?_
  refine .ite (fun _ => failExpected_ends _) fun _ => ?_
  exact (switchBody_ends hr t).bind fun body u htu => .pure (hst.append htu)

theorem switchStmt_ends (hr : r.Orderly) (s : ParseState) :
    Ends (switchStmt r) s fun k t => s.Reads false t k.nodes := by
  unfold switchStmt
  refine (advance_passes s).bind fun _ t hst => ?_
  refine (condition_ends hr t).bind fun subject u htu => ?_
  refine (expect_ends .lBrace u).bind fun _ v huv => ?_
  refine (loop_ends (fun (sections : List (SwitchSection Stmt)) w => v.Yields false w
    (sections.flatMap fun x => (x.labels.filterMap fun l => l).map Node.expr ++ x.body.map .stmt))
    (.refl v) fun sections w hvw => ?_ : Ends _ v fun sections w => v.Yields false w
    (sections.flatMap fun x =>
      (x.labels.filterMap fun l => l).map Node.expr ++ x.body.map .stmt)).bind fun sections w hvw => ?_
  · simp only [ends_check, ends_atEnd]
    refine .ite (fun _ => .pure hvw) fun _ => ?_
    refine (switchSection_ends hr w).bind fun x y hwy => .pure ?_
    have := hvw.append hwy
    simpa [List.flatMap_append] using this
  · refine (expect_ends .rBrace w).bind fun _ x hwx => .pure ?_
    have hsx := (((htu.passes huv.toPasses).append hvw).passes hwx.toPasses).after hst
    exact hsx.reads

theorem usingStmt_ends (hr : r.Orderly) (s : ParseState) :
    Ends (usingStmt r) s fun k t => s.Reads false t k.nodes := by
  unfold usingStmt
  refine (expectWord_ends .usingKw s).bind fun _ a hsa => ?_
  refine (expect_ends .lParen a).bind fun _ b hab => ?_
  refine (declOrExpr_ends hr b).bind fun resource c hbc => ?_
  refine (expect_ends .rParen c).bind fun _ d hcd => ?_
  refine (hr.stmt d).bind fun body e hde => .pure ?_
  have hse := ((hbc.passes hcd.toPasses).append hde).after (hsa.trans hab).toPasses
  exact hse.reads

theorem fixedStmt_ends (hr : r.Orderly) (s : ParseState) :
    Ends (fixedStmt r) s fun k t => s.Reads false t k.nodes := by
  unfold fixedStmt
  refine (advance_passes s).bind fun _ a hsa => ?_
  refine (expect_ends .lParen a).bind fun _ b hab => ?_
  refine (localDecl_ends hr false b).bind fun d c hbc => ?_
  refine (expect_ends .rParen c).bind fun _ e hce => ?_
  refine (hr.stmt e).bind fun body f hef => .pure ?_
  have hbf := (hbc.passes hce.toPasses).append hef
  exact hbf.after (hsa.takes hab).toPasses

theorem lockStmt_ends (hr : r.Orderly) (s : ParseState) :
    Ends (lockStmt r) s fun k t => s.Reads false t k.nodes := by
  unfold lockStmt
  refine (advance_passes s).bind fun _ t hst => ?_
  refine (condition_ends hr t).bind fun subject u htu => ?_
  refine (hr.stmt u).bind fun body v huv => .pure ?_
  have hsv := (htu.append huv).after hst
  exact hsv.reads

theorem localStmt_ends (hr : r.Orderly) (isConst : Bool) (hst : s.Passes t) :
    Ends (localStmt r isConst) t fun k u => s.Reads false u k.nodes := by
  unfold localStmt
  refine (localDecl_ends hr isConst t).bind fun d u htu => ?_
  exact (expect_ends .semi u).bind fun _ v huv => .pure ((htu.passes huv.toPasses).after hst)

theorem optionalValue_ends (hr : r.Orderly) (s : ParseState) :
    Ends (optionalValue r) s fun value t => s.Reads false t (value.map Node.expr).toList := by
  unfold optionalValue
  simp only [ends_check]
  refine .join (P := fun value t => s.Yields false t (value.map Node.expr).toList)
    (fun _ => .pure (.refl s)) (fun _ => (hr.expr s).map fun _ _ h => h) fun value t hst => ?_
  exact (expect_ends .semi t).bind fun _ u htu => .pure (hst.takes htu)

theorem plainStmt_ends (hr : r.Orderly) (s : ParseState) :
    Ends (plainStmt r) s fun k t => s.Reads false t k.nodes := by
  unfold plainStmt
  simp only [ends_remaining]
  refine .ite (fun _ => localStmt_ends hr false (.refl s)) fun _ => ?_
  refine (expr_ends hr s).bind fun e t hst => ?_
  refine (expect_ends .semi t).bind fun _ u htu => .pure ?_
  have hsu := hst.passes htu.toPasses
  exact hsu.reads

theorem contextualStmt_ends (hr : r.Orderly) {name : String} (h : s.current.kind = .ident name) :
    Ends (contextualStmt r name) s fun k t => s.Reads false t k.nodes := by
  unfold contextualStmt
  simp only [ends_peekKind]
  refine .ite (fun hYield => ?_) fun _ => .ite (fun hYield => ?_) fun _ => ?_
  · rw [Bool.and_eq_true] at hYield
    refine (skip_passes (inner_contextualWord h hYield.2)).bind fun _ t hst => ?_
    refine (hr.expr t).bind fun value u htu => ?_
    refine (expect_ends .semi u).bind fun _ v huv => .pure ?_
    have hsv := (htu.passes huv.toPasses).after hst
    exact hsv.reads
  · rw [Bool.and_eq_true] at hYield
    refine (skip_passes (inner_contextualWord h hYield.2)).bind fun _ t hst => ?_
    refine (expect_ends .semi t).bind fun _ u htu => .pure ?_
    have hsu := hst.takes htu
    exact hsu.reads
  · exact .ite (fun _ => fixedStmt_ends hr s) fun _ => .ite (fun _ => lockStmt_ends hr s) fun _ =>
      .ite (fun _ => switchStmt_ends hr s) fun _ => plainStmt_ends hr s

/-! ## All statements -/

/-- One word and a `;`. -/
theorem wordStmt_ends {kind : StmtKind Stmt} (h : kind.nodes = []) (s : ParseState) :
    Ends (do let _ ← advance; expect .semi; return kind) s fun k t => s.Reads false t k.nodes := by
  refine (advance_passes s).bind fun _ t hst => ?_
  refine (expect_ends .semi t).bind fun _ u htu => .pure ?_
  have hsu := hst.takes htu
  rw [h]
  exact hsu.reads

/-- One word and perhaps a value. -/
theorem valueStmt_ends (hr : r.Orderly) {kind : Option Expr → StmtKind Stmt}
    (h : ∀ value, (kind value).nodes = (value.map Node.expr).toList) (s : ParseState) :
    Ends (do let _ ← advance; return kind (← optionalValue r)) s fun k t =>
      s.Reads false t k.nodes := by
  refine (advance_passes s).bind fun _ t hst => ?_
  refine (optionalValue_ends hr t).bind fun value u htu => .pure ?_
  rw [h]
  exact htu.after hst

theorem keywordStmt_ends (hr : r.Orderly) (w : Keyword) (s : ParseState) :
    Ends (keywordStmt r w) s fun k t => s.Reads false t k.nodes := by
  unfold keywordStmt
  split
  next => exact ifStmt_ends hr s
  next =>
    refine (advance_passes s).bind fun _ t hst => ?_
    refine (condition_ends hr t).bind fun cond u htu => ?_
    refine (hr.stmt u).bind fun body v huv => .pure ?_
    have hsv := (htu.append huv).after hst
    exact hsv.reads
  next =>
    refine (advance_passes s).bind fun _ t hst => ?_
    refine (hr.stmt t).bind fun body u htu => ?_
    refine (expectWord_ends .whileKw u).bind fun _ v huv => ?_
    refine (condition_ends hr v).bind fun cond w hvw => ?_
    refine (expect_ends .semi w).bind fun _ x hwx => .pure ?_
    have hsx := (((htu.passes huv.toPasses).append hvw).passes hwx.toPasses).after hst
    exact hsx.reads
  next => exact forStmt_ends hr s
  next => exact forEachStmt_ends hr s
  next => exact valueStmt_ends hr (fun _ => rfl) s
  next => exact valueStmt_ends hr (fun _ => rfl) s
  next => exact wordStmt_ends rfl s
  next => exact wordStmt_ends rfl s
  next => exact tryStmt_ends hr s
  next =>
    simp only [ends_peekKind]
    refine .ite (fun _ => ?_) fun _ => plainStmt_ends hr s
    refine (advance_passes s).bind fun _ t hst => ?_
    refine (block_ends hr t).bind fun body u htu => .pure ?_
    exact htu.after hst
  next =>
    exact (advance_passes s).bind fun _ t hst => localStmt_ends hr true hst
  next =>
    simp only [ends_peekKind]
    refine .ite (fun _ => usingStmt_ends hr s) fun _ => ?_
    exact (advance_passes s).bind fun _ t hst => localStmt_ends hr false hst
  next => exact plainStmt_ends hr s

theorem stmt_ends (hr : r.Orderly) (s : ParseState) :
    Ends (stmt r) s fun x t => s.Yields false t [.stmt x] := by
  unfold stmt
  simp only [ends_currentStart, ends_currentKind]
  have finish : ∀ k t, s.Reads false t k.nodes →
      Ends (finishStmt s.current.span.start k) t fun x u => s.Yields false u [.stmt x] :=
    fun _ _ h => finishStmt_ends h
  split
  next => exact (block_ends hr s).bind fun body t h => finish (.block body) t h
  next h =>
    refine (advance_ends s).bind fun _ t hRead => finish .empty t ?_
    obtain ⟨_, _, takes⟩ := hRead
    have hst := takes (by rw [h]; rfl)
    exact hst.reads
  next w _ => exact (keywordStmt_ends hr w s).bind finish
  next h => exact (contextualStmt_ends hr h).bind finish
  next => exact (plainStmt_ends hr s).bind finish

end Parse

end Stackable
