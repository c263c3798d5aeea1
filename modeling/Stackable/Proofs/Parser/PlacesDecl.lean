import Stackable.Proofs.Parser.Decl
import Stackable.Proofs.Parser.Places

/-!
# Errors of statements and declarations

The rules for statements and declarations report errors at tokens, also those that they recover
from, and so does the grammar as a whole.
-/

set_option autoImplicit false

namespace Stackable

namespace Parse

variable {tokens : List Token} {r : Rules}

theorem optionalVarInitializer_locates (hr : r.Locates tokens) :
    Locates tokens (optionalVarInitializer r) := by
  refine (check_locates .eq).bind fun _ => .ite (advance_locates.bind fun _ => ?_) .pure
  exact (varInitializer_locates hr).bind fun _ => .pure

theorem declaratorTail_locates (hr : r.Locates tokens) (name : String) (nameSpan : Span) :
    Locates tokens (declaratorTail r name nameSpan) :=
  (optionalVarInitializer_locates hr).bind fun _ => freshId_locates.bind fun _ =>
    (spanFrom_locates nameSpan.start).bind fun _ => .pure

theorem declarator_locates (hr : r.Locates tokens) : Locates tokens (declarator r) :=
  current_locates fun _ _ => expectName_locates.bind fun _ => declaratorTail_locates hr _ _

theorem localDecl_locates (hr : r.Locates tokens) (isConst : Bool) :
    Locates tokens (localDecl r isConst) :=
  (type_locates hr).bind fun _ =>
    (commaSeparated_locates (declarator_locates hr)).bind fun _ => .pure

theorem blockStep_locates (hr : r.Locates tokens) (body : List Stmt) :
    Locates tokens (blockStep r body) := by
  refine (check_locates .rBrace).bind fun _ => atEnd_locates.bind fun _ => .ite .pure ?_
  refine remaining_locates.bind fun _ => attempt_locates hr.stmt (fun _ => .pure) fun e he => ?_
  refine (recordError_locates he).bind fun _ => .ite ((recover_locates _ _).bind fun _ => .pure) ?_
  exact remaining_locates.bind fun _ => (skip_locates _).bind fun _ => .pure

theorem block_locates (hr : r.Locates tokens) : Locates tokens (block r) := by
  refine (expect_locates .lBrace).bind fun _ => (loop_locates (blockStep_locates hr)).bind fun _ => ?_
  exact (expect_locates .rBrace).bind fun _ => .pure

theorem condition_locates (hr : r.Locates tokens) : Locates tokens (condition r) := by
  refine (expect_locates .lParen).bind fun _ => hr.expr.bind fun _ => ?_
  exact (expect_locates .rParen).bind fun _ => .pure

theorem ifStmt_locates (hr : r.Locates tokens) : Locates tokens (ifStmt r) := by
  refine (expectWord_locates .ifKw).bind fun _ => (condition_locates hr).bind fun _ => ?_
  refine hr.stmt.bind fun _ => (acceptWord_locates .elseKw).bind fun _ => ?_
  exact .join hr.stmt.map .pure fun _ => .pure

theorem declOrExpr_locates (hr : r.Locates tokens) : Locates tokens (declOrExpr r) := by
  refine currentStart_locates.bind fun start => remaining_locates.bind fun _ => .ite ?_ ?_
  · exact (localDecl_locates hr false).bind fun _ => finishStmt_locates start _
  · exact hr.expr.bind fun _ => finishStmt_locates start _

theorem forInit_locates (hr : r.Locates tokens) : Locates tokens (forInit r) := by
  refine (check_locates .semi).bind fun _ => .ite .pure ?_
  refine remaining_locates.bind fun _ => .ite ((declOrExpr_locates hr).bind fun _ => .pure) ?_
  apply commaSeparated_locates
  exact currentStart_locates.bind fun start => hr.expr.bind fun _ => finishStmt_locates start _

theorem forStmt_locates (hr : r.Locates tokens) : Locates tokens (forStmt r) := by
  refine (expectWord_locates .forKw).bind fun _ => (expect_locates .lParen).bind fun _ => ?_
  refine (forInit_locates hr).bind fun _ => (expect_locates .semi).bind fun _ => ?_
  refine (check_locates .semi).bind fun _ => .join .pure hr.expr.map fun _ => ?_
  refine (expect_locates .semi).bind fun _ => (check_locates .rParen).bind fun _ => ?_
  refine .join .pure (commaSeparated_locates hr.expr) fun _ => ?_
  exact (expect_locates .rParen).bind fun _ => hr.stmt.bind fun _ => .pure

theorem forEachStmt_locates (hr : r.Locates tokens) : Locates tokens (forEachStmt r) := by
  refine (expectWord_locates .foreachKw).bind fun _ => (expect_locates .lParen).bind fun _ => ?_
  refine (type_locates hr).bind fun _ => expectName_locates.bind fun _ => ?_
  refine (expectWord_locates .inKw).bind fun _ => hr.expr.bind fun _ => ?_
  exact (expect_locates .rParen).bind fun _ => hr.stmt.bind fun _ => .pure

theorem caught_locates (hr : r.Locates tokens) : Locates tokens (caught r) := by
  refine (accept_locates .lParen).bind fun _ => .ite ((type_locates hr).bind fun _ => ?_) .pure
  exact designation_locates.bind fun _ => (expect_locates .rParen).bind fun _ => .pure

theorem catchFilter_locates (hr : r.Locates tokens) : Locates tokens (catchFilter r) := by
  refine (checkName_locates "when").bind fun _ => .ite (advance_locates.bind fun _ => ?_) .pure
  exact (condition_locates hr).bind fun _ => .pure

theorem catchClause_locates (hr : r.Locates tokens) : Locates tokens (catchClause r) := by
  refine currentStart_locates.bind fun start => (expectWord_locates .catchKw).bind fun _ => ?_
  refine (caught_locates hr).bind fun ⟨_, _⟩ => (catchFilter_locates hr).bind fun _ => ?_
  exact (block_locates hr).bind fun _ => (spanFrom_locates start).bind fun _ => .pure

theorem catchClauses_locates (hr : r.Locates tokens) : Locates tokens (catchClauses r) :=
  loop_locates fun _ => (checkWord_locates .catchKw).bind fun _ =>
    .ite ((catchClause_locates hr).bind fun _ => .pure) .pure

/-- A `try` that nothing follows is reported at its keyword. -/
theorem tryStmt_locates (hr : r.Locates tokens) : Locates tokens (tryStmt r) := by
  refine current_locates fun _ hTry => (expectWord_locates .tryKw).bind fun _ => ?_
  refine (block_locates hr).bind fun _ => (catchClauses_locates hr).bind fun _ => ?_
  refine (acceptWord_locates .finallyKw).bind fun _ => .join (block_locates hr).map .pure fun _ => ?_
  exact .ite (currentKind_locates.bind fun _ => failAt_locates hTry) .pure

theorem caseLabels_locates (hr : r.Locates tokens) : Locates tokens (caseLabels r) := by
  refine loop_locates fun _ => (checkName_locates "case").bind fun _ => .ite ?_ ?_
  · refine advance_locates.bind fun _ => hr.expr.bind fun _ => ?_
    exact (expect_locates .colon).bind fun _ => .pure
  · refine atDefaultLabel_locates.bind fun _ => .ite ?_ .pure
    exact (skip_locates 2).bind fun _ => .pure

theorem switchBody_locates (hr : r.Locates tokens) : Locates tokens (switchBody r) := by
  refine loop_locates fun _ => (check_locates .rBrace).bind fun _ => atEnd_locates.bind fun _ => ?_
  refine (checkName_locates "case").bind fun _ => atDefaultLabel_locates.bind fun _ => ?_
  exact .ite .pure (hr.stmt.bind fun _ => .pure)

theorem switchSection_locates (hr : r.Locates tokens) : Locates tokens (switchSection r) :=
  (caseLabels_locates hr).bind fun _ =>
    .ite (failExpected_locates _) ((switchBody_locates hr).bind fun _ => .pure)

theorem switchStmt_locates (hr : r.Locates tokens) : Locates tokens (switchStmt r) := by
  refine advance_locates.bind fun _ => (condition_locates hr).bind fun _ => ?_
  refine (expect_locates .lBrace).bind fun _ => (loop_locates fun _ => ?_).bind fun _ =>
    (expect_locates .rBrace).bind fun _ => .pure
  refine (check_locates .rBrace).bind fun _ => atEnd_locates.bind fun _ => .ite .pure ?_
  exact (switchSection_locates hr).bind fun _ => .pure

theorem usingStmt_locates (hr : r.Locates tokens) : Locates tokens (usingStmt r) := by
  refine (expectWord_locates .usingKw).bind fun _ => (expect_locates .lParen).bind fun _ => ?_
  refine (declOrExpr_locates hr).bind fun _ => (expect_locates .rParen).bind fun _ => ?_
  exact hr.stmt.bind fun _ => .pure

theorem fixedStmt_locates (hr : r.Locates tokens) : Locates tokens (fixedStmt r) := by
  refine advance_locates.bind fun _ => (expect_locates .lParen).bind fun _ => ?_
  refine (localDecl_locates hr false).bind fun _ => (expect_locates .rParen).bind fun _ => ?_
  exact hr.stmt.bind fun _ => .pure

theorem lockStmt_locates (hr : r.Locates tokens) : Locates tokens (lockStmt r) :=
  advance_locates.bind fun _ => (condition_locates hr).bind fun _ => hr.stmt.bind fun _ => .pure

theorem localStmt_locates (hr : r.Locates tokens) (isConst : Bool) :
    Locates tokens (localStmt r isConst) :=
  (localDecl_locates hr isConst).bind fun _ => (expect_locates .semi).bind fun _ => .pure

theorem optionalValue_locates (hr : r.Locates tokens) : Locates tokens (optionalValue r) :=
  (check_locates .semi).bind fun _ => .join .pure hr.expr.map fun _ =>
    (expect_locates .semi).bind fun _ => .pure

theorem plainStmt_locates (hr : r.Locates tokens) : Locates tokens (plainStmt r) := by
  refine remaining_locates.bind fun _ => .ite (localStmt_locates hr false) ?_
  exact (expr_locates hr).bind fun _ => (expect_locates .semi).bind fun _ => .pure

theorem contextualStmt_locates (hr : r.Locates tokens) (name : String) :
    Locates tokens (contextualStmt r name) := by
  refine (peekKind_locates 1).bind fun _ => .ite ?_ (.ite ?_ (.ite (fixedStmt_locates hr)
    (.ite (lockStmt_locates hr) (.ite (switchStmt_locates hr) (plainStmt_locates hr)))))
  · refine (skip_locates 2).bind fun _ => hr.expr.bind fun _ => ?_
    exact (expect_locates .semi).bind fun _ => .pure
  · exact (skip_locates 2).bind fun _ => (expect_locates .semi).bind fun _ => .pure

theorem keywordStmt_locates (hr : r.Locates tokens) (w : Keyword) :
    Locates tokens (keywordStmt r w) := by
  have closed : ∀ kind : StmtKind Stmt, Locates tokens (do
      let _ ← advance
      expect .semi
      return kind) := fun _ =>
    advance_locates.bind fun _ => (expect_locates .semi).bind fun _ => .pure
  unfold keywordStmt
  split
  · exact ifStmt_locates hr
  · refine advance_locates.bind fun _ => (condition_locates hr).bind fun _ => ?_
    exact hr.stmt.bind fun _ => .pure
  · refine advance_locates.bind fun _ => hr.stmt.bind fun _ => ?_
    refine (expectWord_locates .whileKw).bind fun _ => (condition_locates hr).bind fun _ => ?_
    exact (expect_locates .semi).bind fun _ => .pure
  · exact forStmt_locates hr
  · exact forEachStmt_locates hr
  · exact advance_locates.bind fun _ => (optionalValue_locates hr).bind fun _ => .pure
  · exact advance_locates.bind fun _ => (optionalValue_locates hr).bind fun _ => .pure
  · exact closed .breakStmt
  · exact closed .continueStmt
  · exact tryStmt_locates hr
  · refine (peekKind_locates 1).bind fun _ => .ite ?_ (plainStmt_locates hr)
    exact advance_locates.bind fun _ => (block_locates hr).bind fun _ => .pure
  · exact advance_locates.bind fun _ => localStmt_locates hr true
  · refine (peekKind_locates 1).bind fun _ => .ite (usingStmt_locates hr) ?_
    exact advance_locates.bind fun _ => localStmt_locates hr false
  · exact plainStmt_locates hr

theorem stmt_locates (hr : r.Locates tokens) : Locates tokens (stmt r) := by
  refine currentStart_locates.bind fun start => currentKind_locates.bind fun k => ?_
  have rest : ∀ kind, Locates tokens (finishStmt start kind) := finishStmt_locates start
  split
  · exact (block_locates hr).bind fun _ => Locates.pure.bind rest
  · exact advance_locates.bind fun _ => Locates.pure.bind rest
  · exact (keywordStmt_locates hr _).bind rest
  · exact (contextualStmt_locates hr _).bind rest
  · exact (plainStmt_locates hr).bind rest

theorem modifiers_locates : Locates tokens modifiers := by
  refine loop_locates fun _ => currentKind_locates.bind fun _ => (peekKind_locates 1).bind fun _ => ?_
  split
  · exact advance_locates.bind fun _ => .pure
  · exact .pure

theorem typeParams_locates : Locates tokens typeParams := by
  refine (expect_locates .lt).bind fun _ => (commaSeparated_locates ?_).bind fun _ =>
    expectClosingAngle_locates.bind fun _ => .pure
  refine skipAttributes_locates.bind fun _ => (acceptWord_locates .inKw).bind fun _ => ?_
  exact .ite expectName_locates ((acceptWord_locates .outKw).bind fun _ => expectName_locates)

theorem optionalTypeParams_locates : Locates tokens optionalTypeParams :=
  (check_locates .lt).bind fun _ => .ite typeParams_locates .pure

theorem skipConstraints_locates : Locates tokens skipConstraints :=
  (checkName_locates "where").bind fun _ =>
    .ite (remaining_locates.bind fun _ => skip_locates _) .pure

theorem param_locates (hr : r.Locates tokens) : Locates tokens (param r) := by
  refine skipAttributes_locates.bind fun _ => currentStart_locates.bind fun start => ?_
  refine currentKind_locates.bind fun _ => .optional ?_ fun rest => advance_locates.bind fun _ => rest
  refine (type_locates hr).bind fun _ => expectName_locates.bind fun _ => ?_
  refine (accept_locates .eq).bind fun _ => .join hr.expr.map .pure fun _ => ?_
  exact (spanFrom_locates start).bind fun _ => .pure

theorem params_locates (hr : r.Locates tokens) : Locates tokens (params r) := by
  refine (expect_locates .lParen).bind fun _ => (check_locates .rParen).bind fun _ => ?_
  refine .join .pure (commaSeparated_locates (param_locates hr)) fun _ => ?_
  exact (expect_locates .rParen).bind fun _ => .pure

theorem fnBody_locates (hr : r.Locates tokens) : Locates tokens (fnBody r) := by
  apply currentKind_locates.bind
  intro k
  split
  · exact (block_locates hr).bind fun _ => .pure
  · refine advance_locates.bind fun _ => hr.expr.bind fun _ => ?_
    exact (expect_locates .semi).bind fun _ => .pure
  · exact advance_locates.bind fun _ => .pure
  · exact failExpected_locates _

theorem method_locates (hr : r.Locates tokens) (mods : List Modifier) (returnType : TypeRef)
    (name : String) (nameSpan : Span) :
    Locates tokens (method r mods returnType name nameSpan) := by
  refine optionalTypeParams_locates.bind fun _ => (params_locates hr).bind fun _ => ?_
  exact skipConstraints_locates.bind fun _ => (fnBody_locates hr).bind fun _ => .pure

theorem constructorChain_locates (hr : r.Locates tokens) : Locates tokens (constructorChain r) := by
  refine (accept_locates .colon).bind fun _ => .ite (currentKind_locates.bind fun _ => ?_) .pure
  refine .ite (advance_locates.bind fun _ => ?_) (failExpected_locates _)
  exact (arguments_locates hr).bind fun _ => .pure

theorem constructor_locates (hr : r.Locates tokens) (mods : List Modifier) :
    Locates tokens (constructor r mods) := by
  refine current_locates fun _ _ => expectName_locates.bind fun _ => ?_
  refine (params_locates hr).bind fun _ => (constructorChain_locates hr).bind fun _ => ?_
  exact (fnBody_locates hr).bind fun _ => .pure

theorem accessor_locates (hr : r.Locates tokens) : Locates tokens (accessor r) := by
  refine skipAttributes_locates.bind fun _ => currentStart_locates.bind fun start => ?_
  refine modifiers_locates.bind fun _ => currentKind_locates.bind fun _ => ?_
  split
  · refine advance_locates.bind fun _ => (fnBody_locates hr).bind fun _ => ?_
    exact freshId_locates.bind fun _ => (spanFrom_locates start).bind fun _ => .pure
  · exact failExpected_locates _

theorem accessors_locates (hr : r.Locates tokens) : Locates tokens (accessors r) := by
  refine (expect_locates .lBrace).bind fun _ => (loop_locates fun _ => ?_).bind fun _ =>
    (expect_locates .rBrace).bind fun _ => .pure
  refine (check_locates .rBrace).bind fun _ => atEnd_locates.bind fun _ => .ite .pure ?_
  exact (accessor_locates hr).bind fun _ => .pure

theorem propertyInitializer_locates (hr : r.Locates tokens) :
    Locates tokens (propertyInitializer r) := by
  apply (optionalVarInitializer_locates hr).bind
  intro init
  split
  · exact (expect_locates .semi).bind fun _ => .pure
  · exact .pure

theorem property_locates (hr : r.Locates tokens) (mods : List Modifier) (type : TypeRef)
    (name : String) (nameSpan : Span) : Locates tokens (property r mods type name nameSpan) := by
  refine (accept_locates .fatArrow).bind fun _ => .ite ?_ ?_
  · exact hr.expr.bind fun _ => (expect_locates .semi).bind fun _ => .pure
  · exact (accessors_locates hr).bind fun _ => (propertyInitializer_locates hr).bind fun _ => .pure

theorem fieldDeclarators_locates (hr : r.Locates tokens) (name : String) (nameSpan : Span) :
    Locates tokens (fieldDeclarators r name nameSpan) := by
  refine (declaratorTail_locates hr name nameSpan).bind fun _ => ?_
  refine (accept_locates .comma).bind fun _ => ?_
  refine .join (commaSeparated_locates (declarator_locates hr)) .pure fun _ => ?_
  exact (expect_locates .semi).bind fun _ => .pure

theorem memberName_locates : Locates tokens memberName := by
  refine expectName_locates.bind fun _ => loop_locates fun _ => (check_locates .dot).bind fun _ => ?_
  refine (peekKind_locates 1).bind fun _ => .ite (advance_locates.bind fun _ => ?_) .pure
  exact expectName_locates.bind fun _ => .pure

theorem typedMember_locates (hr : r.Locates tokens) (mods : List Modifier) :
    Locates tokens (typedMember r mods) := by
  refine (type_locates hr).bind fun _ => (checkWord_locates .thisKw).bind fun _ => ?_
  refine .ite (current_locates fun _ hx => failAt_locates hx) ?_
  refine (checkName_locates "operator").bind fun _ => ?_
  refine .ite (current_locates fun _ hx => failAt_locates hx) ?_
  refine currentStart_locates.bind fun start => memberName_locates.bind fun _ => ?_
  refine (spanFrom_locates start).bind fun _ => currentKind_locates.bind fun k => ?_
  split
  · exact (method_locates hr mods _ _ _).bind fun _ => .pure
  · exact (method_locates hr mods _ _ _).bind fun _ => .pure
  · exact (property_locates hr mods _ _ _).bind fun _ => .pure
  · exact (property_locates hr mods _ _ _).bind fun _ => .pure
  · exact (fieldDeclarators_locates hr _ _).bind fun _ => .pure
  · exact (fieldDeclarators_locates hr _ _).bind fun _ => .pure
  · exact (fieldDeclarators_locates hr _ _).bind fun _ => .pure
  · exact failExpected_locates _

theorem enumMember_locates (hr : r.Locates tokens) : Locates tokens (enumMember r) := by
  refine skipAttributes_locates.bind fun _ => currentStart_locates.bind fun start => ?_
  refine current_locates fun _ _ => expectName_locates.bind fun _ => ?_
  refine (accept_locates .eq).bind fun _ => .join hr.expr.map .pure fun _ => ?_
  exact freshId_locates.bind fun _ => (spanFrom_locates start).bind fun _ => .pure

theorem enumMembers_locates (hr : r.Locates tokens) : Locates tokens (enumMembers r) := by
  refine loop_locates fun _ => (check_locates .rBrace).bind fun _ => atEnd_locates.bind fun _ => ?_
  refine .ite .pure ((enumMember_locates hr).bind fun _ => ?_)
  exact (accept_locates .comma).bind fun _ => .ite .pure .pure

theorem membersStep_locates (hr : r.Locates tokens) (name : String) (list : List Member) :
    Locates tokens (membersStep r name list) := by
  refine (check_locates .rBrace).bind fun _ => atEnd_locates.bind fun _ => .ite .pure ?_
  refine (accept_locates .semi).bind fun _ => .ite .pure (remaining_locates.bind fun _ => ?_)
  refine attempt_locates (hr.member name) (fun _ => .pure) fun e he => ?_
  refine (recordError_locates he).bind fun _ => .ite ((recover_locates _ _).bind fun _ => .pure) ?_
  exact remaining_locates.bind fun _ => (skip_locates _).bind fun _ => .pure

theorem bases_locates (hr : r.Locates tokens) : Locates tokens (bases r) := by
  refine (accept_locates .colon).bind fun _ => .ite (commaSeparated_locates ?_) .pure
  refine (type_locates hr).bind fun _ => (check_locates .lParen).bind fun _ => ?_
  exact .ite ((arguments_locates hr).bind fun _ => .pure) .pure

theorem skipRecordKind_locates : Locates tokens skipRecordKind :=
  (acceptWord_locates .classKw).bind fun _ =>
    .ite .pure ((acceptWord_locates .structKw).bind fun _ => .pure)

theorem typeDecl_locates (hr : r.Locates tokens) (mods : List Modifier) :
    Locates tokens (typeDecl r mods) := by
  apply currentKind_locates.bind
  intro k
  split
  · exact failExpected_locates _
  refine advance_locates.bind fun _ => .optional ?_ fun rest => skipRecordKind_locates.bind fun _ => rest
  refine current_locates fun _ _ => expectName_locates.bind fun _ => ?_
  refine optionalTypeParams_locates.bind fun _ => (check_locates .lParen).bind fun _ => ?_
  refine .optional ?_ fun rest => (params_locates hr).bind fun _ => rest
  refine (bases_locates hr).bind fun _ => skipConstraints_locates.bind fun _ => ?_
  refine (check_locates .semi).bind fun _ => .ite (advance_locates.bind fun _ => .pure) ?_
  refine (expect_locates .lBrace).bind fun _ => ?_
  refine .join (enumMembers_locates hr) (loop_locates (membersStep_locates hr _)) fun _ => ?_
  exact (expect_locates .rBrace).bind fun _ => (accept_locates .semi).bind fun _ => .pure

theorem member_locates (hr : r.Locates tokens) (typeName : String) :
    Locates tokens (member r typeName) := by
  refine skipAttributes_locates.bind fun _ => currentStart_locates.bind fun start => ?_
  refine modifiers_locates.bind fun mods => currentKind_locates.bind fun _ => ?_
  refine (peekKind_locates 1).bind fun _ => ?_
  have rest : ∀ kind : MemberKind Member, Locates tokens (do
      return (⟨← freshId, kind, ← spanFrom start⟩ : Member)) := fun _ =>
    freshId_locates.bind fun _ => (spanFrom_locates start).bind fun _ => .pure
  refine .ite ?_ (.ite ?_ (.ite ?_ ?_))
  · exact (typeDecl_locates hr mods).map.bind rest
  · exact (constructor_locates hr mods).map.bind rest
  · exact current_locates fun _ hx => (failAt_locates hx).bind rest
  · exact (typedMember_locates hr mods).bind rest

theorem namespaceBody_locates (hr : r.Locates tokens) (topLevel : Bool) :
    Locates tokens (namespaceBody r.decl topLevel) := by
  refine loop_locates fun _ => atEnd_locates.bind fun _ => (check_locates .rBrace).bind fun _ => ?_
  refine .ite .pure (remaining_locates.bind fun _ => ?_)
  refine attempt_locates hr.decl (fun _ => .pure) fun e he => ?_
  exact (recordError_locates he).bind fun _ => .ite ((recover_locates _ _).bind fun _ => .pure) .pure

theorem usingAlias_locates : Locates tokens usingAlias := by
  refine (peekKind_locates 1).bind fun _ => .ite (expectName_locates.bind fun _ => ?_) .pure
  exact advance_locates.bind fun _ => .pure

theorem usingDirective_locates (hr : r.Locates tokens) : Locates tokens (usingDirective r) := by
  refine (expectWord_locates .usingKw).bind fun _ => (acceptWord_locates .staticKw).bind fun _ => ?_
  refine usingAlias_locates.bind fun _ => (type_locates hr).bind fun _ => ?_
  exact (expect_locates .semi).bind fun _ => .pure

theorem namespaceName_locates : Locates tokens namespaceName := by
  refine expectName_locates.bind fun _ => loop_locates fun _ => (accept_locates .dot).bind fun _ => ?_
  exact .ite (expectName_locates.bind fun _ => .pure) .pure

theorem namespaceDecl_locates (hr : r.Locates tokens) : Locates tokens (namespaceDecl r) := by
  refine (expectWord_locates .namespaceKw).bind fun _ => namespaceName_locates.bind fun _ => ?_
  refine (accept_locates .semi).bind fun _ => .ite ?_ ?_
  · exact (namespaceBody_locates hr true).bind fun _ => .pure
  · refine (expect_locates .lBrace).bind fun _ => (namespaceBody_locates hr false).bind fun _ => ?_
    exact (expect_locates .rBrace).bind fun _ => .pure

theorem decl_locates (hr : r.Locates tokens) : Locates tokens (decl r) := by
  refine skipAttributes_locates.bind fun _ => currentStart_locates.bind fun start => ?_
  refine currentKind_locates.bind fun k => ?_
  have rest : ∀ kind : DeclKind Decl, Locates tokens (do
      return (⟨← freshId, kind, ← spanFrom start⟩ : Decl)) := fun _ =>
    freshId_locates.bind fun _ => (spanFrom_locates start).bind fun _ => .pure
  split
  · exact (usingDirective_locates hr).map.bind rest
  · exact (namespaceDecl_locates hr).map.bind rest
  · have top : Locates tokens (topTypeDecl r) :=
      modifiers_locates.bind fun mods => typeDecl_locates hr mods
    exact top.map.bind rest

end Parse

open Parse

/-! ## The grammar as a whole -/

theorem Rules.locates_exhausted (tokens : List Token) : Rules.exhausted.Locates tokens where
  orderly := Rules.orderly_exhausted
  type := current_locates fun _ hx => failAt_locates hx
  expr := current_locates fun _ hx => failAt_locates hx
  exprAbove _ := current_locates fun _ hx => failAt_locates hx
  varInitializer := current_locates fun _ hx => failAt_locates hx
  stmt := current_locates fun _ hx => failAt_locates hx
  member _ := current_locates fun _ hx => failAt_locates hx
  decl := current_locates fun _ hx => failAt_locates hx

theorem Rules.Locates.step {tokens : List Token} {r : Rules} (hr : r.Locates tokens) :
    r.step.Locates tokens where
  orderly := hr.orderly.step
  type := type_locates hr
  expr := expr_locates hr
  exprAbove := exprAbove_locates hr
  varInitializer := varInitializer_locates hr
  stmt := stmt_locates hr
  member := member_locates hr
  decl := decl_locates hr

theorem Rules.locates (tokens : List Token) (n : Nat) : (Rules.depth n).Locates tokens := by
  induction n with
  | zero => exact Rules.locates_exhausted tokens
  | succ n ih => exact ih.step

/-- Every error of a unit stands at tokens, where the last token marks the end. -/
theorem bound_of_mem_errors {tokens : List Token} (hs : (ParseState.ofTokens tokens).Within tokens)
    {e : ParseError} (he : e ∈ (parseTokens tokens).2) : Tokens.Bound tokens e.span := by
  have body : Parse.Locates tokens (withRules fun r => namespaceBody r.decl true) :=
    remaining_locates.bind fun _ => namespaceBody_locates (Rules.locates tokens _) true
  have hBody := body _ hs
  unfold parseTokens at he
  rcases compilationUnit_cases (.ofTokens tokens) with ⟨list, t, hRun, h⟩ | ⟨failure, t, hRun, h⟩
  · rw [h] at he
    exact ((locatesAt_of_ok hRun).mp hBody).errors e he
  · rw [h] at he
    obtain ⟨ht, hFailure⟩ := (locatesAt_of_error hRun).mp hBody
    rcases List.mem_append.mp he with he | he
    · exact ht.errors e he
    · rw [List.mem_singleton.mp he]
      exact hFailure

end Stackable
