import Stackable.Proofs.Respelling.Creation

/-!
# Statements around a respelled word

A statement finds the word if it is in the initial value of a declarator below it. A rule that gives
the parts of a statement finds what its parts find, and of the parts one at most has read the word.
-/

set_option autoImplicit false

namespace Stackable

open ParseState Parse

namespace Respelling

variable {v : Respelling}

/-- The declarator is one of the nodes or below them. -/
def Found (v : Respelling) (ns : List Node) : Prop := ∃ n ∈ ns, v.Holds n

@[simp] theorem found_nil : ¬v.Found [] := by
  rintro ⟨n, hn, _⟩
  cases hn

@[simp] theorem found_cons {n : Node} {ns : List Node} :
    v.Found (n :: ns) ↔ v.Holds n ∨ v.Found ns := by
  simp [Found]

@[simp] theorem found_append {ns ms : List Node} :
    v.Found (ns ++ ms) ↔ v.Found ns ∨ v.Found ms := by
  simp only [Found, List.mem_append, or_and_right, exists_or]

@[simp] theorem holds_expr (e : Expr) : v.Holds (.expr e) ↔ False :=
  iff_of_false (v.not_holds_expr e) id

@[simp] theorem found_exprs (es : List Expr) : v.Found (es.map .expr) ↔ False := by
  simp [Found]

@[simp] theorem found_expr? (e : Option Expr) : v.Found (e.map Node.expr).toList ↔ False := by
  cases e <;> simp

@[simp] theorem found_stmts {xs : List Stmt} :
    v.Found (xs.map .stmt) ↔ ∃ x ∈ xs, v.Holds (.stmt x) := by
  simp [Found]

@[simp] theorem found_declarators {ds : List Declarator} :
    v.Found (ds.map .declarator) ↔ ∃ d ∈ ds, v.Starts d := by
  simp [Found, holds_declarator]

theorem found_flatMap {α : Type} {l : List α} {f : α → List Node} :
    v.Found (l.flatMap f) ↔ ∃ x ∈ l, v.Found (f x) := by
  simp only [Found, List.mem_flatMap]
  constructor
  · rintro ⟨n, ⟨x, hx, hn⟩, h⟩
    exact ⟨x, hx, n, hn, h⟩
  · rintro ⟨x, hx, n, hn, h⟩
    exact ⟨n, ⟨x, hx, hn⟩, h⟩

theorem holds_stmt {x : Stmt} : v.Holds (.stmt x) ↔ v.Found x.kind.nodes := by
  rw [holds_iff]
  simp only [reduceCtorEq, false_and, exists_false, false_or]
  rfl

end Respelling

namespace RespelledText

variable {c : RespelledText} {r : Rules} {s t : ParseState}

theorem kind_eq_of_isPunct {k : TokenKind} {p : Punct} (h : k.isPunct p = true) : k = .punct p := by
  cases k <;> simp_all [TokenKind.isPunct]

theorem optionalVarInitializer_tracks (hr : r.Tracked c) (s : ParseState) :
    c.Tracks (optionalVarInitializer r) (optionalVarInitializer r) s (Option.map c.initializer)
      fun init => ∃ i, init = some i ∧ c.Creates i := by
  intro hs
  refine Tracks.check (.ite (fun hEq => ?_) fun _ => .pure rfl (by simp)) hs
  refine (advance_tracks s).bind_run fun mark t hRun _ => ?_
  rcases advance_cases s with ⟨hEof, _⟩ | ⟨x, l, hRest, _, hRun'⟩
  · rw [isEof_of_isPunct hEq] at hEof
    cases hEof
  · rw [hRun'] at hRun
    cases hRun
    have hMark : mark.kind = .punct .eq := by
      rw [ParseState.current, hRest] at hEq
      exact kind_eq_of_isPunct hEq
    refine Tracks.bind (initialValue_tracks hr hMark (hRest ▸ hs)) fun e u _ => ?_
    exact .pure rfl (by simp)

theorem declaratorTail_tracks (hr : r.Tracked c) (name : String) (nameSpan : Span) (s : ParseState) :
    c.Tracks (declaratorTail r name nameSpan) (declaratorTail r name (c.span nameSpan)) s
      c.declarator c.Starts := by
  unfold declaratorTail
  refine (optionalVarInitializer_tracks hr s).bind fun init t _ => ?_
  refine (freshId_tracks t).bind fun id u _ => .spanFrom (.pure rfl ?_)
  exact fun h => h.2 h.1

theorem declarator_tracks (hr : r.Tracked c) (s : ParseState) :
    c.Tracks (declarator r) (declarator r) s c.declarator c.Starts := by
  unfold declarator
  refine .current ?_
  exact (expectName_tracks s).bind fun name t _ => declaratorTail_tracks hr name _ t

theorem localDecl_tracks (hr : r.Tracked c) (isConst : Bool) (s : ParseState) :
    c.Tracks (localDecl r isConst) (localDecl r isConst) s c.localDecl
      fun d => ∃ x ∈ d.declarators, c.Starts x := by
  unfold localDecl
  refine (type_tracks hr s).bind fun type t _ => ?_
  refine (commaSeparated_tracks (declarator_tracks hr) t).bind fun ds u _ => ?_
  exact .pure rfl fun h => h.2 h.1

theorem blockStep_tracks (hr : r.Tracked c) (body : List Stmt) (s : ParseState) :
    c.Tracks (blockStep r body) (blockStep r (body.map c.stmt)) s
      (Sum.map (List.map c.stmt) (List.map c.stmt))
      fun out => Sum.elim (fun body => ∃ x ∈ body, c.Holds (.stmt x))
        (fun body => ∃ x ∈ body, c.Holds (.stmt x)) out ∧ ¬∃ x ∈ body, c.Holds (.stmt x) := by
  unfold blockStep
  refine .check (.atEnd (.ite (fun _ => .pure rfl fun h => h.2 h.1) fun _ => .remaining ?_))
  refine attempt_tracks (hr.stmt s) ((hr.orderly.stmt s).mono fun _ _ _ => trivial)
    (fun x t => .pure (by simp) not_found_snoc) fun e t => ?_
  refine (recordError_ends e).bind fun goOn u ⟨_, hne⟩ => .ite (fun _ => ?_) fun _ => ?_
  · refine (recover_ends (Tokens.inner_toStmt u.rest)).bind fun _ w huw => .pure ?_
    rw [huw.sameErrors]
    exact hne
  · rw [ends_remaining]
    refine (skip_ends (Tokens.inner_toClosingBrace 1 u.rest)).bind fun _ w ⟨huw, _⟩ => .pure ?_
    rw [huw.sameErrors]
    exact hne

theorem block_tracks (hr : r.Tracked c) (s : ParseState) :
    c.Tracks (block r) (block r) s (List.map c.stmt) fun body => ∃ x ∈ body, c.Holds (.stmt x) := by
  unfold block
  refine (expect_tracks .lBrace s).bind fun _ t _ => ?_
  refine Tracks.bind (loop_tracks (f := List.map c.stmt) (g := List.map c.stmt)
    (fun body => ∃ x ∈ body, c.Holds (.stmt x)) (by simp) rfl
    fun body u => blockStep_tracks hr body u) fun body u _ => ?_
  exact (expect_tracks .rBrace u).bind fun _ _ _ => .pure rfl fun h => h.2 h.1

theorem condition_tracks (hr : r.Tracked c) (s : ParseState) :
    c.Plain (condition r) (condition r) s c.expr := by
  unfold condition
  refine (expect_tracks .lParen s).bind fun _ t _ => ?_
  refine (hr.expr t).bind fun _ u _ => ?_
  exact (expect_tracks .rParen u).bind fun _ _ _ => .pure rfl id

theorem ifStmt_tracks (hr : r.Tracked c) (s : ParseState) :
    c.Tracks (ifStmt r) (ifStmt r) s c.stmtKind fun k => c.Found k.nodes := by
  unfold ifStmt
  refine (expectWord_tracks .ifKw s).bind fun _ t _ => ?_
  refine (condition_tracks hr t).bind fun cond u _ => ?_
  refine (hr.stmt u).bind fun whenTrue w _ => ?_
  refine (acceptWord_tracks (by decide) (by decide) w).bind fun b x _ => ?_
  refine Tracks.join (f := Option.map c.stmt) (L := fun o => ∃ y, o = some y ∧ c.Holds (.stmt y))
    (fun _ => (hr.stmt x).map (fun _ => rfl) (by simp)) (fun _ => .pure rfl (by simp))
    fun whenFalse y _ => .pure ?_ ?_
  · cases whenFalse <;> rfl
  · cases whenFalse <;> simp [StmtKind.nodes]
    tauto

theorem declOrExpr_tracks (hr : r.Tracked c) (s : ParseState) :
    c.Tracks (declOrExpr r) (declOrExpr r) s c.stmt fun x => c.Holds (.stmt x) := by
  unfold declOrExpr
  refine .currentStart (.remaining ?_)
  rw [c.startsLocalDecl_map]
  refine .ite (fun _ => ?_) fun _ => ?_
  · refine (localDecl_tracks hr false s).bind fun d t _ => finishStmt_tracks rfl fun id span => ?_
    simp [Respelling.holds_stmt, StmtKind.nodes]
  · refine (hr.expr s).bind fun e t _ => finishStmt_tracks rfl fun id span => ?_
    simp [Respelling.holds_stmt, StmtKind.nodes]

theorem forInit_tracks (hr : r.Tracked c) (s : ParseState) :
    c.Tracks (forInit r) (forInit r) s (List.map c.stmt) fun xs => ∃ x ∈ xs, c.Holds (.stmt x) := by
  unfold forInit
  refine .check (.ite (fun _ => .pure rfl (by simp)) fun _ => .remaining ?_)
  rw [c.startsLocalDecl_map]
  refine .ite (fun _ => ?_) fun _ => ?_
  · exact (declOrExpr_tracks hr s).bind fun x t _ => .pure rfl (by simp)
  · refine commaSeparated_tracks (fun t => .currentStart ?_) s
    refine (hr.expr t).bind fun e u _ => finishStmt_tracks rfl fun id span => ?_
    simp [Respelling.holds_stmt, StmtKind.nodes]

theorem forStmt_tracks (hr : r.Tracked c) (s : ParseState) :
    c.Tracks (forStmt r) (forStmt r) s c.stmtKind fun k => c.Found k.nodes := by
  unfold forStmt
  refine (expectWord_tracks .forKw s).bind fun _ t _ => ?_
  refine (expect_tracks .lParen t).bind fun _ u _ => ?_
  refine (forInit_tracks hr u).bind fun init w _ => ?_
  refine (expect_tracks .semi w).bind fun _ x _ => .check ?_
  refine Plain.join (f := Option.map c.expr) (fun _ => .pure rfl id)
    (fun _ => (hr.expr x).map (fun _ => rfl) fun _ => id) fun cond y _ => ?_
  refine (expect_tracks .semi y).bind fun _ z _ => .check ?_
  refine Plain.join (f := List.map c.expr) (fun _ => .pure rfl id)
    (fun _ => commaSeparated_plain hr.expr z) fun update a _ => ?_
  refine (expect_tracks .rParen a).bind fun _ b _ => ?_
  refine (hr.stmt b).bind fun body d _ => .pure (by simp [Respelling.stmtKind]) ?_
  simp [StmtKind.nodes]
  tauto

theorem forEachStmt_tracks (hr : r.Tracked c) (s : ParseState) :
    c.Tracks (forEachStmt r) (forEachStmt r) s c.stmtKind fun k => c.Found k.nodes := by
  unfold forEachStmt
  refine (expectWord_tracks .foreachKw s).bind fun _ t _ => ?_
  refine (expect_tracks .lParen t).bind fun _ u _ => ?_
  refine (type_tracks hr u).bind fun type w _ => ?_
  refine (expectName_tracks w).bind fun name x _ => ?_
  refine (expectWord_tracks .inKw x).bind fun _ y _ => ?_
  refine (hr.expr y).bind fun iter z _ => ?_
  refine (expect_tracks .rParen z).bind fun _ a _ => ?_
  refine (hr.stmt a).bind fun body b _ => .pure rfl ?_
  simp [StmtKind.nodes]

theorem caught_tracks (hr : r.Tracked c) (s : ParseState) :
    c.Plain (caught r) (caught r) s fun x => (x.1.map c.typeRef, x.2) := by
  unfold caught
  refine (accept_tracks .lParen s).bind fun b t _ => ?_
  refine .ite (fun _ => ?_) fun _ => .pure rfl id
  refine (type_tracks hr t).bind fun type u _ => ?_
  refine (designation_tracks u).bind fun name w _ => ?_
  exact (expect_tracks .rParen w).bind fun _ _ _ => .pure rfl id

theorem catchFilter_tracks (hr : r.Tracked c) (s : ParseState) :
    c.Plain (catchFilter r) (catchFilter r) s (Option.map c.expr) := by
  unfold catchFilter
  refine .checkName (.ite (fun _ => ?_) fun _ => .pure rfl id)
  refine (advance_tracks s).bind fun _ t _ => ?_
  exact (condition_tracks hr t).bind fun _ _ _ => .pure rfl id

theorem catchClause_tracks (hr : r.Tracked c) (s : ParseState) :
    c.Tracks (catchClause r) (catchClause r) s c.catchClause
      fun clause => ∃ x ∈ clause.body, c.Holds (.stmt x) := by
  unfold catchClause
  refine .currentStart ?_
  refine (expectWord_tracks .catchKw s).bind fun _ t _ => ?_
  refine (caught_tracks hr t).bind fun ⟨type, name⟩ u _ => ?_
  refine (catchFilter_tracks hr u).bind fun _ w _ => ?_
  refine (block_tracks hr w).bind fun body x _ => .spanFrom (.pure ?_ fun h => h.2 h.1)
  simp [Respelling.catchClause, Respelling.span]

theorem catchClauses_tracks (hr : r.Tracked c) (s : ParseState) :
    c.Tracks (catchClauses r) (catchClauses r) s (List.map c.catchClause)
      fun l => ∃ clause ∈ l, ∃ x ∈ clause.body, c.Holds (.stmt x) := by
  refine loop_tracks (f := List.map c.catchClause)
    (fun l => ∃ clause ∈ l, ∃ x ∈ clause.body, c.Holds (.stmt x)) (by simp) rfl fun l t => .checkWord ?_
  rw [c.isKeyword_token _ (by decide) (by decide)]
  refine .ite (fun _ => ?_) fun _ => .pure rfl fun h => h.2 h.1
  exact (catchClause_tracks hr t).bind fun clause u _ => .pure (by simp) not_found_snoc

theorem tryStmt_tracks (hr : r.Tracked c) (s : ParseState) :
    c.Tracks (tryStmt r) (tryStmt r) s c.stmtKind fun k => c.Found k.nodes := by
  unfold tryStmt
  refine .current ((expectWord_tracks .tryKw s).bind fun _ t _ => ?_)
  refine (block_tracks hr t).bind fun body u _ => ?_
  refine (catchClauses_tracks hr u).bind fun catches w _ => ?_
  refine (acceptWord_tracks (by decide) (by decide) w).bind fun b x _ => ?_
  refine Tracks.join (f := Option.map (List.map c.stmt))
    (L := fun o => ∃ body, o = some body ∧ ∃ y ∈ body, c.Holds (.stmt y))
    (fun _ => (block_tracks hr x).map (fun _ => rfl) (by simp)) (fun _ => .pure rfl (by simp))
    fun finish y _ => ?_
  dsimp only
  rw [List.isEmpty_map, Option.isNone_map]
  refine .ite (fun _ => .currentKind failAt_tracks) fun _ => .pure (by simp [Respelling.stmtKind]) ?_
  cases finish <;> simp [StmtKind.nodes, Respelling.found_flatMap] <;> tauto

theorem caseLabels_tracks (hr : r.Tracked c) (s : ParseState) :
    c.Plain (caseLabels r) (caseLabels r) s (List.map (Option.map c.expr)) := by
  refine loop_plain (f := List.map (Option.map c.expr)) rfl fun labels t => .checkName ?_
  refine .ite (fun _ => ?_) fun _ => ?_
  · refine (advance_tracks t).bind fun _ u _ => ?_
    refine (hr.expr u).bind fun label w _ => ?_
    exact (expect_tracks .colon w).bind fun _ _ _ => .pure (by simp) id
  · refine .atDefaultLabel (.ite (fun hDefault => ?_) fun _ => .pure rfl id)
    rw [Bool.and_eq_true, ← kind_rest] at hDefault
    have inner := inner_take_two (isEof_of_isKeyword hDefault.1) (isEof_of_isPunct hDefault.2)
    exact (skip_tracks inner).bind fun _ _ _ => .pure (by simp) id

theorem switchBody_tracks (hr : r.Tracked c) (s : ParseState) :
    c.Tracks (switchBody r) (switchBody r) s (List.map c.stmt)
      fun body => ∃ x ∈ body, c.Holds (.stmt x) := by
  refine loop_tracks (f := List.map c.stmt) (fun body => ∃ x ∈ body, c.Holds (.stmt x)) (by simp) rfl
    fun body t => .check (.atEnd (.checkName (.atDefaultLabel ?_)))
  refine .ite (fun _ => .pure rfl fun h => h.2 h.1) fun _ => ?_
  exact (hr.stmt t).bind fun x u _ => .pure (by simp) not_found_snoc

theorem switchSection_tracks (hr : r.Tracked c) (s : ParseState) :
    c.Tracks (switchSection r) (switchSection r) s c.switchSection
      fun x => ∃ y ∈ x.body, c.Holds (.stmt y) := by
  unfold switchSection
  refine (caseLabels_tracks hr s).bind fun labels t _ => ?_
  rw [List.isEmpty_map]
  refine .ite (fun _ => failExpected_tracks) fun _ => ?_
  refine (switchBody_tracks hr t).bind fun body u _ => .pure ?_ fun h => h.2 h.1
  simp [Respelling.switchSection]

theorem switchStmt_tracks (hr : r.Tracked c) (s : ParseState) :
    c.Tracks (switchStmt r) (switchStmt r) s c.stmtKind fun k => c.Found k.nodes := by
  unfold switchStmt
  refine (advance_tracks s).bind fun _ t _ => ?_
  refine (condition_tracks hr t).bind fun subject u _ => ?_
  refine (expect_tracks .lBrace u).bind fun _ w _ => ?_
  refine Tracks.bind (loop_tracks (f := List.map c.switchSection) (g := List.map c.switchSection)
    (M := fun l => ∃ x ∈ l, ∃ y ∈ x.body, c.Holds (.stmt y))
    (fun l => ∃ x ∈ l, ∃ y ∈ x.body, c.Holds (.stmt y)) (by simp) rfl
    fun sections x => .check (.atEnd ?_)) fun sections x _ => ?_
  · refine .ite (fun _ => .pure rfl fun h => h.2 h.1) fun _ => ?_
    exact (switchSection_tracks hr x).bind fun y z _ => .pure (by simp) not_found_snoc
  · refine (expect_tracks .rBrace x).bind fun _ _ _ => .pure (by simp [Respelling.stmtKind]) ?_
    simp [StmtKind.nodes, Respelling.found_flatMap]

theorem usingStmt_tracks (hr : r.Tracked c) (s : ParseState) :
    c.Tracks (usingStmt r) (usingStmt r) s c.stmtKind fun k => c.Found k.nodes := by
  unfold usingStmt
  refine (expectWord_tracks .usingKw s).bind fun _ t _ => ?_
  refine (expect_tracks .lParen t).bind fun _ u _ => ?_
  refine (declOrExpr_tracks hr u).bind fun resource w _ => ?_
  refine (expect_tracks .rParen w).bind fun _ x _ => ?_
  refine (hr.stmt x).bind fun body y _ => .pure rfl ?_
  simp [StmtKind.nodes]
  tauto

theorem fixedStmt_tracks (hr : r.Tracked c) (s : ParseState) :
    c.Tracks (fixedStmt r) (fixedStmt r) s c.stmtKind fun k => c.Found k.nodes := by
  unfold fixedStmt
  refine (advance_tracks s).bind fun _ t _ => ?_
  refine (expect_tracks .lParen t).bind fun _ u _ => ?_
  refine (localDecl_tracks hr false u).bind fun d w _ => ?_
  refine (expect_tracks .rParen w).bind fun _ x _ => ?_
  refine (hr.stmt x).bind fun body y _ => .pure rfl ?_
  simp [StmtKind.nodes]
  tauto

theorem lockStmt_tracks (hr : r.Tracked c) (s : ParseState) :
    c.Tracks (lockStmt r) (lockStmt r) s c.stmtKind fun k => c.Found k.nodes := by
  unfold lockStmt
  refine (advance_tracks s).bind fun _ t _ => ?_
  refine (condition_tracks hr t).bind fun subject u _ => ?_
  refine (hr.stmt u).bind fun body w _ => .pure rfl ?_
  simp [StmtKind.nodes]

theorem localStmt_tracks (hr : r.Tracked c) (isConst : Bool) (s : ParseState) :
    c.Tracks (localStmt r isConst) (localStmt r isConst) s c.stmtKind fun k => c.Found k.nodes := by
  unfold localStmt
  refine (localDecl_tracks hr isConst s).bind fun d t _ => ?_
  refine (expect_tracks .semi t).bind fun _ u _ => .pure rfl ?_
  simp [StmtKind.nodes]

theorem optionalValue_tracks (hr : r.Tracked c) (s : ParseState) :
    c.Plain (optionalValue r) (optionalValue r) s (Option.map c.expr) := by
  unfold optionalValue
  refine .check (Plain.join (f := Option.map c.expr) (fun _ => .pure rfl id)
    (fun _ => (hr.expr s).map (fun _ => rfl) fun _ => id) fun value t _ => ?_)
  exact (expect_tracks .semi t).bind fun _ _ _ => .pure rfl id

theorem plainStmt_tracks (hr : r.Tracked c) (s : ParseState) :
    c.Tracks (plainStmt r) (plainStmt r) s c.stmtKind fun k => c.Found k.nodes := by
  unfold plainStmt
  refine .remaining ?_
  rw [c.startsLocalDecl_map]
  refine .ite (fun _ => localStmt_tracks hr false s) fun _ => ?_
  refine (expr_tracks hr s).bind fun e t _ => ?_
  refine (expect_tracks .semi t).bind fun _ u _ => .pure rfl ?_
  simp [StmtKind.nodes]

theorem contextualStmt_tracks (hr : r.Tracked c) {name : String} (h : s.current.kind = .ident name) :
    c.Tracks (contextualStmt r name) (contextualStmt r name) s c.stmtKind
      fun k => c.Found k.nodes := by
  unfold contextualStmt
  refine .peekKind ?_
  rw [c.isKeyword_map _ (by decide) (by decide), c.isKeyword_map _ (by decide) (by decide),
    c.isPunct_map]
  refine .ite (fun hYield => ?_) fun _ => .ite (fun hYield => ?_) fun _ => ?_
  · rw [Bool.and_eq_true] at hYield
    refine (skip_tracks (inner_contextualWord h hYield.2)).bind fun _ t _ => ?_
    refine (hr.expr t).bind fun value u _ => ?_
    exact (expect_tracks .semi u).bind fun _ _ _ => .pure rfl (by simp [StmtKind.nodes])
  · rw [Bool.and_eq_true] at hYield
    refine (skip_tracks (inner_contextualWord h hYield.2)).bind fun _ t _ => ?_
    exact (expect_tracks .semi t).bind fun _ _ _ => .pure rfl (by simp [StmtKind.nodes])
  · exact .ite (fun _ => fixedStmt_tracks hr s) fun _ => .ite (fun _ => lockStmt_tracks hr s)
      fun _ => .ite (fun _ => switchStmt_tracks hr s) fun _ => plainStmt_tracks hr s

/-! ## All statements -/

theorem keywordStmt_tracks (hr : r.Tracked c) (w : Keyword) (s : ParseState) :
    c.Tracks (keywordStmt r w) (keywordStmt r w) s c.stmtKind fun k => c.Found k.nodes := by
  have valued : ∀ {kind : Option Expr → StmtKind Stmt},
      (∀ value, kind (value.map c.expr) = c.stmtKind (kind value)) →
      (∀ value, (kind value).nodes = (value.map Node.expr).toList) →
      c.Tracks (do let _ ← advance; return kind (← optionalValue r))
        (do let _ ← advance; return kind (← optionalValue r)) s c.stmtKind
        fun k => c.Found k.nodes := by
    intro kind hKind hNodes
    refine (advance_tracks s).bind fun _ t _ => ?_
    refine (optionalValue_tracks hr t).bind fun value u _ => .pure (hKind value) ?_
    simp [hNodes]
  have bare : ∀ {kind : StmtKind Stmt}, kind = c.stmtKind kind → kind.nodes = [] →
      c.Tracks (do let _ ← advance; expect .semi; return kind)
        (do let _ ← advance; expect .semi; return kind) s c.stmtKind fun k => c.Found k.nodes := by
    intro kind hKind hNodes
    refine (advance_tracks s).bind fun _ t _ => ?_
    exact (expect_tracks .semi t).bind fun _ u _ => .pure hKind (by simp [hNodes])
  unfold keywordStmt
  split
  next => exact ifStmt_tracks hr s
  next =>
    refine (advance_tracks s).bind fun _ t _ => ?_
    refine (condition_tracks hr t).bind fun cond u _ => ?_
    exact (hr.stmt u).bind fun body w _ => .pure rfl (by simp [StmtKind.nodes])
  next =>
    refine (advance_tracks s).bind fun _ t _ => ?_
    refine (hr.stmt t).bind fun body u _ => ?_
    refine (expectWord_tracks .whileKw u).bind fun _ w _ => ?_
    refine (condition_tracks hr w).bind fun cond x _ => ?_
    exact (expect_tracks .semi x).bind fun _ _ _ => .pure rfl (by simp [StmtKind.nodes])
  next => exact forStmt_tracks hr s
  next => exact forEachStmt_tracks hr s
  next => exact valued (fun _ => rfl) fun _ => rfl
  next => exact valued (fun _ => rfl) fun _ => rfl
  next => exact bare rfl rfl
  next => exact bare rfl rfl
  next => exact tryStmt_tracks hr s
  next =>
    refine .peekKind ?_
    rw [c.isPunct_map]
    refine .ite (fun _ => ?_) fun _ => plainStmt_tracks hr s
    refine (advance_tracks s).bind fun _ t _ => ?_
    refine (block_tracks hr t).bind fun body u _ => .pure (by simp [Respelling.stmtKind]) ?_
    simp [StmtKind.nodes]
  next =>
    exact (advance_tracks s).bind fun _ t _ => localStmt_tracks hr true t
  next =>
    refine .peekKind ?_
    rw [c.isPunct_map]
    refine .ite (fun _ => usingStmt_tracks hr s) fun _ => ?_
    exact (advance_tracks s).bind fun _ t _ => localStmt_tracks hr false t
  next => exact plainStmt_tracks hr s

theorem stmt_tracks (hr : r.Tracked c) (s : ParseState) :
    c.Tracks (stmt r) (stmt r) s c.stmt fun x => c.Holds (.stmt x) := by
  have finish : ∀ k t, c.Tracks (finishStmt s.current.span.start k)
      (finishStmt (c.shift s.current.span.start) (c.stmtKind k)) t c.stmt
      fun x => c.Holds (.stmt x) ∧ ¬c.Found k.nodes := by
    intro k t
    refine finishStmt_tracks rfl fun id span => ?_
    rw [Respelling.holds_stmt]
    exact fun h => h.2 h.1
  unfold stmt
  refine .currentStart (.currentKind (.by_kind (fun hk => ?_) fun hNew hk _ => ?_))
  · rw [hk]
    split
    next =>
      refine (block_tracks hr s).bind fun body t _ => ?_
      simpa [Respelling.stmtKind, StmtKind.nodes] using finish (.block body) t
    next =>
      refine (advance_tracks s).bind fun _ t _ => ?_
      simpa [Respelling.stmtKind, StmtKind.nodes] using finish .empty t
    next w _ => exact (keywordStmt_tracks hr w s).bind fun k t _ => finish k t
    next h => exact (contextualStmt_tracks hr h).bind fun k t _ => finish k t
    next => exact (plainStmt_tracks hr s).bind fun k t _ => finish k t
  · -- no statement starts with the word alone
    rw [hNew, hk]
    exact (plainStmt_tracks hr s).bind fun k t _ => finish k t

end RespelledText

end Stackable
