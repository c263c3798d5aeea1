import Stackable.Proofs.Parser.Decl
import Stackable.Proofs.Shape.Expr

/-!
# The form of statements and declarations

What a rule for statements or declarations gives holds what its parts have given, so the form of
expressions goes up to the unit as a whole. Statements that were read in front of an error stay.
-/

set_option autoImplicit false

namespace Stackable

namespace Parse

variable {r : Rules} [hr : r.Formed] {start : Nat}

/-- The `=` is one of the tokens that were left. -/
theorem optionalVarInitializer_formed {s : ParseState} (hs : s.Sound) :
    GivesAt (optionalVarInitializer r) s fun init => ∀ i ∈ init,
      i.value.Formed ∧ (∃ x ∈ s.rest, x.span = i.mark) ∧ i.mark.start < i.value.span.start := by
  apply GivesAt.of_read (p := check .eq) rfl
  split
  next hMark =>
    refine (Gives.of_steady s hs).bind_ends (advance_ends s) ?_
    rintro _ t _ ⟨rfl, _, taken⟩ hst ht
    have hEof := isEof_of_isPunct hMark
    refine (varInitializer_formed t ht).bind_ends (varInitializer_ends hr.orderly t) ?_
    intro x u hx read _ hu
    have hBehind := read.beyond ((taken hEof).beyond hs) (.expr x) List.mem_cons_self
    refine ⟨?_, hu⟩
    rintro i ⟨⟩
    exact ⟨hx, ⟨s.current, ParseState.current_mem hEof, rfl⟩, hBehind⟩
  next =>
    refine ⟨?_, hs⟩
    rintro i ⟨⟩

theorem declaratorTail_formed (name : String) {nameSpan : Span} {s : ParseState} (hs : s.Sound)
    (beyond : s.Beyond nameSpan.start) :
    GivesAt (declaratorTail r name nameSpan) s Declarator.Formed := by
  refine (optionalVarInitializer_formed hs).bind fun init h => .skip fun id t ht => ?_
  apply GivesAt.of_read (p := spanFrom nameSpan.start) rfl
  refine ⟨Declarator.formed ?_ fun i hi => (h i hi).1, ht⟩
  intro i hi
  obtain ⟨_, ⟨x, hx, hMark⟩, hBehind⟩ := h i hi
  exact ⟨hMark ▸ beyond x hx, hBehind⟩

theorem declarator_formed : Gives (declarator r) Declarator.Formed := by
  intro s hs
  apply GivesAt.of_read (p := current) rfl
  refine (Gives.of_steady s hs).bind_ends (expectName_ends s) fun name t _ taken _ ht => ?_
  exact declaratorTail_formed name ht (taken.beyond hs)

theorem localDecl_formed (isConst : Bool) :
    Gives (localDecl r isConst) fun d => ∀ x ∈ d.declarators, x.Formed :=
  .skip fun _ => (Gives.commaSeparated declarator_formed).bind fun _ h => .pure h

theorem blockStep_formed (body : List Stmt) (h : ∀ s ∈ body, s.Formed) :
    Gives (blockStep r body) (Sum.elim (fun l => ∀ s ∈ l, s.Formed) fun l => ∀ s ∈ l, s.Formed) := by
  refine .skip fun _ => .skip fun _ => .ite (.pure h) (.skip fun _ => hr.stmt.attempt ?_ fun e => ?_)
  · exact fun s hs => .pure (forall_mem_concat h hs)
  · refine .recordError fun _ => .ite (.skip fun _ => .pure h) ?_
    exact .skip fun _ => .skip fun _ => .pure h

theorem block_formed : Gives (block r) fun body => ∀ s ∈ body, s.Formed :=
  .skip fun _ => (Gives.gather blockStep_formed).bind fun _ h => .skip fun _ => .pure h

theorem finishStmt_formed {kind : StmtKind Stmt} (h : kind.Formed) :
    Gives (finishStmt start kind) Stmt.Formed :=
  .skip fun _ => .skip fun _ => .pure (Node.formed_of_children trivial h)

theorem condition_formed : Gives (condition r) Expr.Formed :=
  .skip fun _ => hr.expr.bind fun _ h => .skip fun _ => .pure h

theorem ifStmt_formed : Gives (ifStmt r) StmtKind.Formed := by
  refine .skip fun _ => condition_formed.bind fun cond hCond => hr.stmt.bind fun yes hYes => ?_
  refine .skip fun _ => .join hr.stmt.some .none fun no hNo => .pure ?_
  simpa [StmtKind.Formed, StmtKind.nodes] using ⟨hCond, hYes, hNo⟩

theorem declOrExpr_formed : Gives (declOrExpr r) Stmt.Formed := by
  refine .skip fun _ => .skip fun _ => .ite ?_ ?_
  · refine (localDecl_formed false).bind fun d h => finishStmt_formed ?_
    simpa [StmtKind.Formed, StmtKind.nodes] using h
  · refine hr.expr.bind fun e h => finishStmt_formed ?_
    simpa [StmtKind.Formed, StmtKind.nodes] using h

theorem forInit_formed : Gives (forInit r) fun init => ∀ s ∈ init, s.Formed := by
  refine .skip fun _ => .ite (.pure (by simp)) (.skip fun _ => .ite ?_ (.commaSeparated ?_))
  · exact declOrExpr_formed.bind fun s h => .pure (List.forall_mem_singleton.mpr h)
  · refine .skip fun _ => hr.expr.bind fun e h => finishStmt_formed ?_
    simpa [StmtKind.Formed, StmtKind.nodes] using h

theorem forStmt_formed : Gives (forStmt r) StmtKind.Formed := by
  refine .skip fun _ => .skip fun _ => forInit_formed.bind fun init hInit => .skip fun _ => ?_
  refine .skip fun _ => .join .none hr.expr.some fun cond hCond => .skip fun _ => .skip fun _ => ?_
  refine .join (.pure (by simp)) (.commaSeparated hr.expr) fun update hUpdate => .skip fun _ => ?_
  refine hr.stmt.bind fun body hBody => .pure ?_
  simpa [StmtKind.Formed, StmtKind.nodes, or_imp, forall_and, and_assoc] using
    ⟨hInit, hCond, hUpdate, hBody⟩

theorem forEachStmt_formed : Gives (forEachStmt r) StmtKind.Formed := by
  refine .skip fun _ => .skip fun _ => .skip fun _ => .skip fun _ => .skip fun _ => ?_
  refine hr.expr.bind fun iter hIter => .skip fun _ => hr.stmt.bind fun body hBody => .pure ?_
  simpa [StmtKind.Formed, StmtKind.nodes] using ⟨hIter, hBody⟩

theorem catchClause_formed : Gives (catchClause r) fun c => ∀ s ∈ c.body, s.Formed :=
  .skip fun _ => .skip fun _ => .skip fun _ => .skip fun _ => block_formed.bind fun _ h =>
    .skip fun _ => .pure h

theorem catchClauses_formed : Gives (catchClauses r) fun l => ∀ c ∈ l, ∀ s ∈ c.body, s.Formed := by
  refine .gather fun l hl => ?_
  refine .skip fun _ => .ite (catchClause_formed.bind fun c hc => .pure ?_) (.pure hl)
  exact forall_mem_concat hl hc

theorem tryStmt_formed : Gives (tryStmt r) StmtKind.Formed := by
  refine .skip fun _ => .skip fun _ => block_formed.bind fun body hBody => ?_
  refine catchClauses_formed.bind fun catches hCatches => .skip fun _ => ?_
  refine .join block_formed.some .none fun finish hFinish => .ite (.skip fun _ => .failAt) (.pure ?_)
  have hFinish : ∀ s ∈ finish.getD [], s.Formed := by
    cases finish with
    | none => simp
    | some body => exact hFinish body rfl
  simp only [StmtKind.Formed, StmtKind.nodes, List.forall_mem_append, List.forall_mem_map,
    List.forall_mem_flatMap]
  exact ⟨⟨hBody, hCatches⟩, hFinish⟩

theorem caseLabels_formed :
    Gives (caseLabels r) fun labels => ∀ label ∈ labels, ∀ x ∈ label, x.Formed := by
  refine .gather fun l hl => ?_
  refine .skip fun _ => .ite (.skip fun _ => hr.expr.bind fun x hx => .skip fun _ => .pure ?_) ?_
  · exact forall_mem_concat hl (by simpa using hx)
  · exact .skip fun _ => .ite (.skip fun _ => .pure (forall_mem_concat hl (by simp))) (.pure hl)

theorem switchBody_formed : Gives (switchBody r) fun body => ∀ s ∈ body, s.Formed := by
  refine .gather fun l hl => ?_
  refine .skip fun _ => .skip fun _ => .skip fun _ => .skip fun _ => .ite (.pure hl) ?_
  exact hr.stmt.bind fun s hs => .pure (forall_mem_concat hl hs)

/-- The labels and the statements of a part of a `switch`. -/
def SectionFormed (part : SwitchSection Stmt) : Prop :=
  (∀ x ∈ part.labels.filterMap fun l => l, x.Formed) ∧ ∀ s ∈ part.body, s.Formed

theorem switchSection_formed : Gives (switchSection r) SectionFormed := by
  refine caseLabels_formed.bind fun labels hLabels => .ite .failExpected ?_
  refine switchBody_formed.bind fun body hBody => .pure ⟨fun x hx => ?_, hBody⟩
  obtain ⟨label, hLabel, rfl⟩ := List.mem_filterMap.mp hx
  exact hLabels _ hLabel x rfl

theorem switchStmt_formed : Gives (switchStmt r) StmtKind.Formed := by
  refine .skip fun _ => condition_formed.bind fun subject hSubject => .skip fun _ => ?_
  refine .bind (P := fun l => ∀ part ∈ l, SectionFormed part) (.gather fun l hl => ?_) ?_
  · refine .skip fun _ => .skip fun _ => .ite (.pure hl) (switchSection_formed.bind fun part h => ?_)
    exact .pure (forall_mem_concat hl h)
  · intro sections hSections
    refine .skip fun _ => .pure (List.forall_mem_cons.mpr ⟨hSubject, ?_⟩)
    simp only [List.forall_mem_flatMap, List.forall_mem_append, List.forall_mem_map]
    exact hSections

theorem usingStmt_formed : Gives (usingStmt r) StmtKind.Formed := by
  refine .skip fun _ => .skip fun _ => declOrExpr_formed.bind fun resource hResource => ?_
  refine .skip fun _ => hr.stmt.bind fun body hBody => .pure ?_
  simpa [StmtKind.Formed, StmtKind.nodes] using ⟨hResource, hBody⟩

theorem fixedStmt_formed : Gives (fixedStmt r) StmtKind.Formed := by
  refine .skip fun _ => .skip fun _ => (localDecl_formed false).bind fun d hd => .skip fun _ => ?_
  refine hr.stmt.bind fun body hBody => .pure ?_
  simpa [StmtKind.Formed, StmtKind.nodes, or_imp, forall_and] using ⟨hd, hBody⟩

theorem lockStmt_formed : Gives (lockStmt r) StmtKind.Formed := by
  refine .skip fun _ => condition_formed.bind fun subject hSubject => ?_
  refine hr.stmt.bind fun body hBody => .pure ?_
  simpa [StmtKind.Formed, StmtKind.nodes] using ⟨hSubject, hBody⟩

theorem localStmt_formed (isConst : Bool) : Gives (localStmt r isConst) StmtKind.Formed := by
  refine (localDecl_formed isConst).bind fun d h => .skip fun _ => .pure ?_
  simpa [StmtKind.Formed, StmtKind.nodes] using h

theorem optionalValue_formed : Gives (optionalValue r) fun value => ∀ x ∈ value, x.Formed :=
  .skip fun _ => .join .none hr.expr.some fun _ h => .skip fun _ => .pure h

theorem plainStmt_formed : Gives (plainStmt r) StmtKind.Formed := by
  refine .skip fun _ => .ite (localStmt_formed false) (expr_formed.bind fun e h => ?_)
  exact .skip fun _ => .pure (List.forall_mem_singleton.mpr h)

theorem contextualStmt_formed (name : String) : Gives (contextualStmt r name) StmtKind.Formed := by
  refine .skip fun _ => .ite (.skip fun _ => hr.expr.bind fun e h => .skip fun _ => .pure ?_) ?_
  · exact List.forall_mem_singleton.mpr h
  · refine .ite (.skip fun _ => .skip fun _ => .pure (by simp [StmtKind.Formed, StmtKind.nodes])) ?_
    exact .ite fixedStmt_formed (.ite lockStmt_formed (.ite switchStmt_formed plainStmt_formed))

theorem keywordStmt_formed (w : Keyword) : Gives (keywordStmt r w) StmtKind.Formed := by
  have value : ∀ value : Option Expr, (∀ x ∈ value, x.Formed) →
      ∀ n ∈ (value.map Node.expr).toList, n.Formed := by
    intro value h
    simpa using h
  unfold keywordStmt
  split
  · exact ifStmt_formed
  · refine .skip fun _ => condition_formed.bind fun cond hCond => hr.stmt.bind fun body hBody => ?_
    refine .pure ?_
    simpa [StmtKind.Formed, StmtKind.nodes] using ⟨hCond, hBody⟩
  · refine .skip fun _ => hr.stmt.bind fun body hBody => .skip fun _ => ?_
    refine condition_formed.bind fun cond hCond => .skip fun _ => .pure ?_
    simpa [StmtKind.Formed, StmtKind.nodes] using ⟨hBody, hCond⟩
  · exact forStmt_formed
  · exact forEachStmt_formed
  · exact .skip fun _ => optionalValue_formed.bind fun v h => .pure (value v h)
  · exact .skip fun _ => optionalValue_formed.bind fun v h => .pure (value v h)
  · exact .skip fun _ => .skip fun _ => .pure (by simp [StmtKind.Formed, StmtKind.nodes])
  · exact .skip fun _ => .skip fun _ => .pure (by simp [StmtKind.Formed, StmtKind.nodes])
  · exact tryStmt_formed
  · refine .skip fun _ => .ite (.skip fun _ => block_formed.bind fun body h => .pure ?_) plainStmt_formed
    exact List.forall_mem_map.mpr h
  · exact .skip fun _ => localStmt_formed true
  · exact .skip fun _ => .ite usingStmt_formed (.skip fun _ => localStmt_formed false)
  · exact plainStmt_formed

theorem stmt_formed : Gives (stmt r) Stmt.Formed := by
  refine .skip fun _ => .skip fun k => ?_
  split
  · refine block_formed.bind fun body h => Gives.pure ?_ |>.bind fun _ h => finishStmt_formed h
    exact List.forall_mem_map.mpr h
  · refine .skip fun _ => Gives.pure ?_ |>.bind fun _ h => finishStmt_formed h
    simp [StmtKind.Formed, StmtKind.nodes]
  · exact (keywordStmt_formed _).bind fun _ h => finishStmt_formed h
  · exact (contextualStmt_formed _).bind fun _ h => finishStmt_formed h
  · exact plainStmt_formed.bind fun _ h => finishStmt_formed h

theorem param_formed : Gives (param r) fun p => ∀ x ∈ p.default, x.Formed := by
  refine .skip fun _ => .skip fun _ => .skip fun _ => .optional ?_ fun rest => .skip fun _ => rest
  refine .skip fun _ => .skip fun _ => .skip fun _ => .join hr.expr.some .none fun _ h => ?_
  exact .skip fun _ => .pure h

theorem params_formed : Gives (params r) fun l => ∀ n ∈ Param.defaults l, n.Formed := by
  refine .skip fun _ => .skip fun _ => .join (.pure (by simp)) (.commaSeparated param_formed) ?_
  intro list h
  refine .skip fun _ => .pure (List.forall_mem_map.mpr fun x hx => ?_)
  obtain ⟨p, hp, hx⟩ := List.mem_filterMap.mp hx
  exact h p hp x hx

theorem fnBody_formed : Gives (fnBody r) FnBody.Formed := by
  refine .skip fun k => ?_
  split
  · exact block_formed.bind fun body h => .pure (List.forall_mem_map.mpr h)
  · refine .skip fun _ => hr.expr.bind fun e h => .skip fun _ => .pure ?_
    exact List.forall_mem_singleton.mpr h
  · exact .skip fun _ => .pure (by simp [FnBody.Formed])
  · exact .failExpected

theorem method_formed (mods : List Modifier) (returnType : TypeRef) (name : String)
    (nameSpan : Span) : Gives (method r mods returnType name nameSpan) fun d =>
      MemberKind.Formed (.method d) := by
  refine .skip fun _ => params_formed.bind fun list hList => .skip fun _ => ?_
  exact fnBody_formed.bind fun body hBody => .pure (List.forall_mem_append.mpr ⟨hList, hBody⟩)

theorem constructorChain_formed :
    Gives (constructorChain r) fun chain => ∀ c ∈ chain, ∀ a ∈ c.args, a.expr.Formed := by
  refine .skip fun _ => .ite (.skip fun k => .ite ?_ .failExpected) .none
  refine .skip fun _ => arguments_formed.bind fun args h => .pure ?_
  simpa using h

theorem constructor_formed (mods : List Modifier) :
    Gives (constructor r mods) fun d => MemberKind.Formed (.constructor d) := by
  refine .skip fun _ => .skip fun _ => params_formed.bind fun list hList => ?_
  refine constructorChain_formed.bind fun chain hChain => fnBody_formed.bind fun body hBody => ?_
  refine .pure (List.forall_mem_append.mpr ⟨List.forall_mem_append.mpr ⟨hList, ?_⟩, hBody⟩)
  cases chain with
  | none => simp
  | some c => exact List.forall_mem_map.mpr (hChain c rfl)

theorem accessor_formed : Gives (accessor r) Accessor.Formed := by
  refine .skip fun _ => .skip fun _ => .skip fun mods => .skip fun k => ?_
  split
  · refine .skip fun _ => fnBody_formed.bind fun body h => .skip fun _ => .skip fun _ => .pure ?_
    exact Node.formed_of_children trivial h
  · exact .failExpected

theorem accessors_formed : Gives (accessors r) fun l => ∀ a ∈ l, a.Formed := by
  refine .skip fun _ => (Gives.gather fun l hl => ?_).bind fun _ h => .skip fun _ => .pure h
  refine .skip fun _ => .skip fun _ => .ite (.pure hl) (accessor_formed.bind fun a ha => ?_)
  exact .pure (forall_mem_concat hl ha)

theorem propertyInitializer_formed : Gives (propertyInitializer r) Initializer.Formed := by
  intro s hs
  refine (optionalVarInitializer_formed hs).bind fun init h => ?_
  have hInit : Initializer.Formed init := fun i hi => (h i hi).1
  split
  · exact .skip fun _ => .pure hInit
  · exact .pure hInit

theorem property_formed (mods : List Modifier) (type : TypeRef) (name : String) (nameSpan : Span) :
    Gives (property r mods type name nameSpan) fun d => MemberKind.Formed (.property d) := by
  refine .skip fun _ => .ite ?_ ?_
  · refine hr.expr.bind fun e h => .skip fun _ => .pure ?_
    simpa [MemberKind.Formed, MemberKind.nodes] using h
  · refine accessors_formed.bind fun list hList => propertyInitializer_formed.bind fun init hInit => ?_
    refine .pure ?_
    simpa [MemberKind.Formed, MemberKind.nodes, or_imp, forall_and] using ⟨hList, hInit⟩

theorem fieldDeclarators_formed (name : String) {nameSpan : Span} {s : ParseState} (hs : s.Sound)
    (beyond : s.Beyond nameSpan.start) :
    GivesAt (fieldDeclarators r name nameSpan) s fun l => ∀ d ∈ l, d.Formed := by
  refine (declaratorTail_formed name hs beyond).bind fun first hFirst => .skip fun _ => ?_
  refine .join (.commaSeparated declarator_formed) (.pure (by simp)) fun list hList => ?_
  exact .skip fun _ => .pure (List.forall_mem_cons.mpr ⟨hFirst, hList⟩)

theorem typedMember_formed (mods : List Modifier) : Gives (typedMember r mods) MemberKind.Formed := by
  refine .skip fun type => .skip fun _ => .ite (.skip fun _ => .failAt) ?_
  refine .skip fun _ => .ite (.skip fun _ => .failAt) fun s hs => ?_
  apply GivesAt.of_read (p := currentStart) rfl
  refine (Gives.of_steady s hs).bind_ends (memberName_ends s) fun name t _ taken _ ht => ?_
  apply GivesAt.of_read (p := spanFrom s.current.span.start) rfl
  apply GivesAt.of_read (p := Parse.currentKind) rfl
  have fields : GivesAt (fieldDeclarators r name ⟨s.current.span.start, t.prevEnd⟩ >>= fun l =>
      pure (.field ⟨mods, type, l⟩)) t MemberKind.Formed := by
    refine GivesAt.bind (fieldDeclarators_formed name ht (taken.beyond hs)) fun _ h => .pure ?_
    exact List.forall_mem_map.mpr h
  split
  · exact (method_formed mods _ _ _ t ht).bind fun _ h => .pure h
  · exact (method_formed mods _ _ _ t ht).bind fun _ h => .pure h
  · exact (property_formed mods _ _ _ t ht).bind fun _ h => .pure h
  · exact (property_formed mods _ _ _ t ht).bind fun _ h => .pure h
  · exact fields
  · exact fields
  · exact fields
  · exact Gives.failExpected t ht

theorem enumMember_formed : Gives (enumMember r) Member.Formed := by
  refine .skip fun _ => .skip fun _ => .skip fun _ => .skip fun _ => .skip fun _ => ?_
  refine .join hr.expr.some .none fun value h => .skip fun _ => .skip fun _ => .pure ?_
  apply Node.formed_of_children (n := .member _) trivial
  simpa [Node.children, MemberKind.nodes] using h

theorem enumMembers_formed : Gives (enumMembers r) fun l => ∀ m ∈ l, m.Formed := by
  refine .gather fun l hl => ?_
  refine .skip fun _ => .skip fun _ => .ite (.pure hl) (enumMember_formed.bind fun m hm => ?_)
  exact .skip fun _ => .ite (.pure (forall_mem_concat hl hm)) (.pure (forall_mem_concat hl hm))

theorem membersStep_formed (name : String) (list : List Member) (h : ∀ m ∈ list, m.Formed) :
    Gives (membersStep r name list)
      (Sum.elim (fun l => ∀ m ∈ l, m.Formed) fun l => ∀ m ∈ l, m.Formed) := by
  refine .skip fun _ => .skip fun _ => .ite (.pure h) (.skip fun _ => .ite (.pure h) ?_)
  refine .skip fun _ => (hr.member name).attempt (fun m hm => .pure (forall_mem_concat h hm)) ?_
  intro e
  refine .recordError fun _ => .ite (.skip fun _ => .pure h) ?_
  exact .skip fun _ => .skip fun _ => .pure h

theorem typeDecl_formed (mods : List Modifier) :
    Gives (typeDecl r mods) fun d => ∀ m ∈ d.members, m.Formed := by
  refine .skip fun k => ?_
  split
  · exact .failExpected
  refine .skip fun _ => .optional ?_ fun rest => .skip fun _ => rest
  refine .skip fun _ => .skip fun name => .skip fun _ => .skip fun _ => ?_
  refine .optional ?_ fun rest => .skip fun _ => rest
  refine .skip fun _ => .skip fun _ => .skip fun _ => .ite (.skip fun _ => .pure (by simp)) ?_
  refine .skip fun _ => .join enumMembers_formed (.loop (membersStep_formed name) (by simp)) ?_
  exact fun list h => .skip fun _ => .skip fun _ => .pure h

theorem member_formed (typeName : String) : Gives (member r typeName) Member.Formed := by
  refine .skip fun _ => .skip fun start => .skip fun mods => .skip fun k => .skip fun next => ?_
  have finish : ∀ kind, MemberKind.Formed kind → Gives (do
      return (⟨← freshId, kind, ← spanFrom start⟩ : Member)) Member.Formed :=
    fun _ h => .skip fun _ => .skip fun _ => .pure (Node.formed_of_children trivial h)
  refine .ite ?_ (.ite ?_ (.ite ?_ ?_))
  · have nodes : ∀ d : TypeDecl Member, (∀ m ∈ d.members, m.Formed) →
        MemberKind.Formed (.typeDecl d) := fun _ h => by
      simpa [MemberKind.Formed, MemberKind.nodes] using h
    exact ((typeDecl_formed mods).map nodes).bind finish
  · exact .bind ((constructor_formed mods).map fun _ h => h) finish
  · exact .skip fun _ => Gives.failAt.bind finish
  · exact (typedMember_formed mods).bind finish

theorem namespaceBody_formed (topLevel : Bool) :
    Gives (namespaceBody r.decl topLevel) fun l => ∀ d ∈ l, d.Formed := by
  refine .gather fun l hl => ?_
  refine .skip fun _ => .skip fun _ => .ite (.pure hl) (.skip fun _ => ?_)
  refine hr.decl.attempt (fun d hd => .pure (forall_mem_concat hl hd)) fun e => ?_
  exact .recordError fun _ => .ite (.skip fun _ => .pure hl) (.pure hl)

theorem namespaceDecl_formed : Gives (namespaceDecl r) fun d => ∀ x ∈ d.decls, x.Formed := by
  refine .skip fun _ => .skip fun _ => .skip fun _ => .ite ?_ (.skip fun _ => ?_)
  · exact (namespaceBody_formed true).bind fun _ h => .pure h
  · exact (namespaceBody_formed false).bind fun _ h => .skip fun _ => .pure h

theorem decl_formed : Gives (decl r) Decl.Formed := by
  refine .skip fun _ => .skip fun start => .skip fun k => ?_
  have finish : ∀ kind, (∀ id span, Decl.Formed ⟨id, kind, span⟩) → Gives (do
      return (⟨← freshId, kind, ← spanFrom start⟩ : Decl)) Decl.Formed :=
    fun _ h => .skip fun _ => .skip fun _ => .pure (h _ _)
  split
  · refine .bind (Gives.of_steady.map fun d _ id span => ?_) finish
    exact Node.formed_of_children trivial (by simp [Node.children])
  · refine .bind (namespaceDecl_formed.map fun d h id span => ?_) finish
    exact Node.formed_of_children trivial (List.forall_mem_map.mpr h)
  · have top : Gives (topTypeDecl r) fun d => ∀ m ∈ d.members, m.Formed :=
      .skip fun mods => typeDecl_formed mods
    refine .bind (top.map fun d h id span => ?_) finish
    exact Node.formed_of_children trivial (List.forall_mem_map.mpr h)

end Parse

open Parse

/-! ## The grammar as a whole -/

namespace Rules

instance formed_exhausted : Rules.exhausted.Formed where
  steady := inferInstance
  orderly := orderly_exhausted
  expr := .skip fun _ => .failAt
  exprAbove _ := .skip fun _ => .failAt
  varInitializer := .skip fun _ => .failAt
  stmt := .skip fun _ => .failAt
  member _ := .skip fun _ => .failAt
  decl := .skip fun _ => .failAt

instance Formed.step (r : Rules) [hr : r.Formed] : r.step.Formed where
  steady := inferInstance
  orderly := hr.orderly.step
  expr := expr_formed
  exprAbove := exprAbove_formed
  varInitializer := varInitializer_formed
  stmt := stmt_formed
  member := member_formed
  decl := decl_formed

instance formed (n : Nat) : (Rules.depth n).Formed := by
  induction n with
  | zero => exact formed_exhausted
  | succ n ih => exact Formed.step _

end Rules

/-- Each node of a unit has the form of one that was read, errors or not. -/
theorem formed_of_mem_walk {source : List Char} {n : Node}
    (h : n ∈ (SyntaxTree.ofUnit (parseSource source).1).walk) : n.Formed := by
  obtain ⟨d, hd, hn⟩ := List.mem_flatMap.mp (SyntaxTree.walk_ofUnit _ ▸ h)
  suffices d.Formed from this.below hn
  change d ∈ (parseTokens (Lexer.tokenize source).tokens).1.decls at hd
  have sound : (ParseState.ofTokens (Lexer.tokenize source).tokens).Sound :=
    ⟨fun _ => Lexer.wellFormed_of_mem_tokenize, Lexer.sorted_tokenize source⟩
  have body : Gives (withRules fun r => namespaceBody r.decl true) fun l => ∀ d ∈ l, d.Formed :=
    .skip fun _ => namespaceBody_formed true
  have given := body _ sound
  unfold parseTokens at hd
  rcases compilationUnit_cases (.ofTokens (Lexer.tokenize source).tokens) with
    ⟨list, t, hRun, hUnit⟩ | ⟨failure, t, hRun, hUnit⟩
  · rw [hUnit] at hd
    exact ((givesAt_of_ok hRun).mp given).1 d hd
  · rw [hUnit] at hd
    cases hd

end Stackable
