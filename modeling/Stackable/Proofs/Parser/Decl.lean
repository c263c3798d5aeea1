import Stackable.Proofs.Parser.Stmt

/-!
# Declarations as they are read

Every member and declaration is laid out over its parts. From this the rules of every depth are
orderly, and the declarations of a source are laid out over all its tokens.
-/

set_option autoImplicit false

namespace Stackable

open ParseState

namespace Parse

variable {r : Rules} {s t : ParseState}

theorem modifiers_ends (s : ParseState) : Ends modifiers s fun _ t => s.Passes t := by
  refine loop_ends (fun _ t => s.Passes t) (.refl s) fun list t hst => ?_
  simp only [ends_currentKind, ends_peekKind]
  split
  · exact (advance_passes t).bind fun _ u htu => .pure (hst.trans htu)
  · exact .pure hst

theorem typeParams_ends (s : ParseState) : Ends typeParams s fun _ t => s.Passes t := by
  unfold typeParams
  refine (expect_ends .lt s).bind fun _ t hst => ?_
  refine (commaSeparated_ends (fun _ u => t.Passes u) (fun _ _ _ htu huv => htu.trans huv) (.refl t)
    fun names u htu => ?_ : Ends _ t fun _ u => t.Passes u).bind fun names u htu => ?_
  · refine (skipAttributes_ends u).bind fun _ v huv => ?_
    refine (acceptWord_passes .inKw v).bind fun b w hvw => ?_
    have htw := (htu.trans huv).trans hvw
    have name : ∀ x, t.Passes x → Ends expectName x fun _ y => t.Passes y := fun x htx =>
      (expectName_ends x).mono fun _ y hxy => htx.trans hxy.toPasses
    refine .ite (fun _ => name w htw) fun _ => ?_
    exact (acceptWord_passes .outKw w).bind fun _ x hwx => name x (htw.trans hwx)
  · exact (expectClosingAngle_ends u).bind fun _ v huv =>
      .pure ((hst.toPasses.trans htu).trans huv)

theorem optionalTypeParams_ends (s : ParseState) :
    Ends optionalTypeParams s fun _ t => s.Passes t := by
  unfold optionalTypeParams
  simp only [ends_check]
  exact .ite (fun _ => typeParams_ends s) fun _ => .pure (.refl s)

theorem param_ends (hr : r.Orderly) (s : ParseState) :
    Ends (param r) s fun p t => s.Yields false t (p.default.map Node.expr).toList := by
  unfold param
  refine (skipAttributes_ends s).bind fun _ a hsa => ?_
  simp only [ends_currentStart, ends_currentKind]
  refine .optional s.Passes (fun b hsb => ?_) (fun _ rest => ?_) fun _ => hsa
  · refine (type_ends hr b).bind fun type c hbc => ?_
    refine (expectName_ends c).bind fun name d hcd => ?_
    refine (accept_passes .eq d).bind fun _ e hde => ?_
    have hse := ((hsb.trans hbc.toPasses).trans hcd.toPasses).trans hde
    refine .join (P := fun default f => s.Yields false f (default.map Node.expr).toList)
      (fun _ => (hr.expr e).map fun _ f hef => hef.after hse) (fun _ => .pure (.ofPasses hse))
      fun default f hsf => ?_
    simp only [ends_spanFrom]
    exact .pure hsf
  · exact (advance_passes a).bind fun _ b hab => rest b (hsa.trans hab)

theorem defaults_eq_flatMap (list : List Param) :
    Param.defaults list = list.flatMap fun p => (p.default.map Node.expr).toList := by
  have h := map_sizes (list.map (·.default))
  rw [List.flatMap_map, List.filterMap_map] at h
  exact h.symm

theorem params_ends (hr : r.Orderly) (s : ParseState) :
    Ends (params r) s fun list t => s.Yields false t (Param.defaults list) := by
  unfold params
  refine (expect_ends .lParen s).bind fun _ t hst => ?_
  simp only [ends_check]
  refine .join (P := fun list u => t.Yields false u (Param.defaults list))
    (fun _ => .pure (.refl t)) (fun _ => ?_) fun list u htu => ?_
  · refine (commaSeparated_yields _ (param_ends hr) t).mono fun list u htu => ?_
    rwa [defaults_eq_flatMap]
  · exact (expect_ends .rParen u).bind fun _ v huv =>
      .pure ((htu.passes huv.toPasses).after hst.toPasses)

theorem fnBody_ends (hr : r.Orderly) (s : ParseState) :
    Ends (fnBody r) s fun b t => s.Reads false t ((b.map FnBody.nodes).getD []) := by
  unfold fnBody
  simp only [ends_currentKind]
  split
  next => exact (block_ends hr s).bind fun body t h => .pure h
  next =>
    refine (advance_passes s).bind fun _ t hst => ?_
    refine (hr.expr t).bind fun e u htu => ?_
    refine (expect_ends .semi u).bind fun _ v huv => .pure ?_
    have hsv := (htu.passes huv.toPasses).after hst
    exact hsv.reads
  next h =>
    refine (advance_ends s).bind fun _ t hRead => .pure ?_
    obtain ⟨_, _, takes⟩ := hRead
    have hst := takes (by rw [h]; rfl)
    exact hst.reads
  next => exact failExpected_ends _

theorem method_ends (hr : r.Orderly) (mods : List Modifier) (returnType : TypeRef) (name : String)
    (nameSpan : Span) (s : ParseState) :
    Ends (method r mods returnType name nameSpan) s fun d t =>
      s.Yields false t (MemberKind.method d).nodes := by
  unfold method
  refine (optionalTypeParams_ends s).bind fun typeParams t hst => ?_
  refine (params_ends hr t).bind fun list u htu => ?_
  refine (skipConstraints_ends u).bind fun _ v huv => ?_
  exact (fnBody_ends hr v).bind fun body w hvw =>
    .pure (((htu.passes huv).append hvw.1).after hst)

theorem constructorChain_ends (hr : r.Orderly) (s : ParseState) :
    Ends (constructorChain r) s fun chain t =>
      s.Yields false t ((chain.map fun c => c.args.map fun a => Node.expr a.expr).getD []) := by
  unfold constructorChain
  refine (accept_passes .colon s).bind fun _ t hst => ?_
  refine .ite (fun _ => ?_) fun _ => .pure (.ofPasses hst)
  simp only [ends_currentKind]
  refine .ite (fun _ => ?_) fun _ => failExpected_ends _
  refine (advance_passes t).bind fun _ u htu => ?_
  refine (arguments_ends hr u).bind fun args v huv => .pure ?_
  rw [List.map_map] at huv
  exact huv.after (hst.trans htu)

theorem constructor_ends (hr : r.Orderly) (mods : List Modifier) (s : ParseState) :
    Ends (constructor r mods) s fun d t => s.Reads false t (MemberKind.constructor d).nodes := by
  unfold constructor
  simp only [ends_current]
  refine (expectName_ends s).bind fun name t hst => ?_
  refine (params_ends hr t).bind fun list u htu => ?_
  refine (constructorChain_ends hr u).bind fun chain v huv => ?_
  refine (fnBody_ends hr v).bind fun body w hRead => .pure ?_
  obtain ⟨hvw, _⟩ := hRead
  have htw := (htu.append huv).append hvw
  exact htw.behind hst

theorem accessor_ends (hr : r.Orderly) (s : ParseState) :
    Ends (accessor r) s fun a t => s.Yields false t [.accessor a] := by
  unfold accessor
  refine (skipAttributes_ends s).bind fun _ t hst => ?_
  simp only [ends_currentStart]
  refine (modifiers_ends t).bind fun mods u htu => ?_
  simp only [ends_currentKind]
  split
  · refine (advance_passes u).bind fun _ v huv => ?_
    refine (fnBody_ends hr v).bind fun body w hvw => fresh_ends ?_
    exact .node hst (hvw.after (htu.trans huv)) rfl rfl fun _ h => by cases h
  · exact failExpected_ends _

theorem accessors_ends (hr : r.Orderly) (s : ParseState) :
    Ends (accessors r) s fun list t => s.Yields false t (list.map .accessor) := by
  unfold accessors
  refine (expect_ends .lBrace s).bind fun _ t hst => ?_
  refine (loop_ends (fun list u => t.Yields false u (list.map .accessor)) (.refl t)
    fun list u htu => ?_ : Ends _ t fun list u => t.Yields false u (list.map .accessor)).bind
    fun list u htu => ?_
  · simp only [ends_check, ends_atEnd]
    refine .ite (fun _ => .pure htu) fun _ => ?_
    refine (accessor_ends hr u).bind fun a v huv => .pure ?_
    change t.Yields false v ((list ++ [a]).map .accessor)
    rw [List.map_append]
    exact htu.append huv
  · exact (expect_ends .rBrace u).bind fun _ v huv =>
      .pure ((htu.passes huv.toPasses).after hst.toPasses)

theorem propertyInitializer_ends (hr : r.Orderly) (s : ParseState) :
    Ends (propertyInitializer r) s fun init t =>
      s.Yields false t (init.map fun i => Node.expr i.value).toList := by
  unfold propertyInitializer
  refine (optionalVarInitializer_ends hr s).bind fun init t hst => ?_
  cases init with
  | none => exact .pure hst
  | some init => exact (expect_ends .semi t).bind fun _ u htu => .pure (hst.passes htu.toPasses)

theorem property_ends (hr : r.Orderly) (mods : List Modifier) (type : TypeRef) (name : String)
    (nameSpan : Span) (s : ParseState) :
    Ends (property r mods type name nameSpan) s fun d t =>
      s.Yields false t (MemberKind.property d).nodes := by
  unfold property
  refine (accept_passes .fatArrow s).bind fun _ t hst => ?_
  refine .ite (fun _ => ?_) fun _ => ?_
  · refine (hr.expr t).bind fun e u htu => ?_
    exact (expect_ends .semi u).bind fun _ v huv => .pure ((htu.passes huv.toPasses).after hst)
  · refine (accessors_ends hr t).bind fun list u htu => ?_
    refine (propertyInitializer_ends hr u).bind fun init v huv => .pure ?_
    have htv := ((htu.append (.refl u)).append huv).after hst
    exact htv

theorem fieldDeclarators_ends (hr : r.Orderly) (name : String) {nameSpan : Span} (hst : s.Takes t)
    (hstart : nameSpan.start = s.current.span.start) :
    Ends (fieldDeclarators r name nameSpan) t fun ds u =>
      s.Yields false u (ds.map .declarator) := by
  unfold fieldDeclarators
  refine (declaratorTail_ends hr name hst hstart).bind fun first u hsu => ?_
  refine (accept_passes .comma u).bind fun _ v huv => ?_
  refine .join (P := fun (ds : List Declarator) w => v.Yields false w (ds.map .declarator))
    (fun _ => declarators_ends hr v) (fun _ => .pure (.refl v)) fun list w hvw => ?_
  exact (expect_ends .semi w).bind fun _ x hwx =>
    .pure (((hsu.passes huv).append hvw).passes hwx.toPasses)

theorem memberName_ends (s : ParseState) : Ends memberName s fun _ t => s.Takes t := by
  unfold memberName
  refine (expectName_ends s).bind fun first t hst => ?_
  refine loop_ends (fun _ u => s.Takes u) hst fun name u hsu => ?_
  simp only [ends_check, ends_peekKind]
  refine .ite (fun _ => ?_) fun _ => .pure hsu
  refine (advance_passes u).bind fun _ v huv => ?_
  exact (expectName_ends v).bind fun _ w hvw => .pure ((hsu.passes huv).trans hvw)

theorem typedMember_ends (hr : r.Orderly) (mods : List Modifier) (s : ParseState) :
    Ends (typedMember r mods) s fun k t => s.Reads k.isType t k.nodes := by
  unfold typedMember
  refine (type_ends hr s).bind fun type a hsa => ?_
  simp only [ends_checkWord]
  refine .ite (fun _ => ?_) fun _ => ?_
  · simp only [ends_current]
    exact failAt_ends _ _
  simp only [ends_checkName]
  refine .ite (fun _ => ?_) fun _ => ?_
  · simp only [ends_current]
    exact failAt_ends _ _
  simp only [ends_currentStart]
  refine (memberName_ends a).bind fun name b hab => ?_
  simp only [ends_spanFrom, ends_currentKind]
  have hsb := hsa.trans hab
  have finish : ∀ k u, b.Yields (MemberKind.isType k) u k.nodes →
      s.Reads k.isType u k.nodes := fun k u hbu => hbu.behind hsb
  split
  · exact (method_ends hr _ _ _ _ b).bind fun d u hbu => .pure (finish (.method d) u hbu)
  · exact (method_ends hr _ _ _ _ b).bind fun d u hbu => .pure (finish (.method d) u hbu)
  · exact (property_ends hr _ _ _ _ b).bind fun d u hbu => .pure (finish (.property d) u hbu)
  · exact (property_ends hr _ _ _ _ b).bind fun d u hbu => .pure (finish (.property d) u hbu)
  iterate 3
    refine Ends.bind (fieldDeclarators_ends hr name hab ?_) fun ds u hau => .pure ?_
    · rfl
    · exact hau.behind hsa
  · exact failExpected_ends _

theorem enumMember_ends (hr : r.Orderly) (s : ParseState) :
    Ends (enumMember r) s fun m t => s.Yields false t [.member m] := by
  unfold enumMember
  refine (skipAttributes_ends s).bind fun _ t hst => ?_
  simp only [ends_currentStart, ends_current]
  refine (expectName_ends t).bind fun name u htu => ?_
  refine (accept_passes .eq u).bind fun _ v huv => ?_
  refine .join (P := fun value w => v.Yields false w (value.map Node.expr).toList)
    (fun _ => (hr.expr v).map fun _ _ h => h) (fun _ => .pure (.refl v)) fun value w hvw => ?_
  refine fresh_ends (.node hst (hvw.behind (htu.passes huv)) rfl rfl fun m h hf => ?_)
  cases h
  cases hf

theorem enumMembers_ends (hr : r.Orderly) (s : ParseState) :
    Ends (enumMembers r) s fun list t => s.Yields false t (list.map .member) := by
  refine loop_ends (fun list t => s.Yields false t (list.map .member)) (.refl s)
    fun list t hst => ?_
  simp only [ends_check, ends_atEnd]
  refine .ite (fun _ => .pure hst) fun _ => ?_
  refine (enumMember_ends hr t).bind fun m u htu => ?_
  refine (accept_passes .comma u).bind fun _ v huv => ?_
  have hsv : s.Yields false v ((list ++ [m]).map .member) := by
    rw [List.map_append]
    exact (hst.append htu).passes huv
  exact .ite (fun _ => .pure hsv) fun _ => .pure hsv

theorem membersStep_ends (hr : r.Orderly) (name : String) {list : List Member}
    (h : s.Yields false t (list.map .member)) :
    Ends (membersStep r name list) t fun b u =>
      Sum.elim (fun list => s.Yields false u (list.map .member))
        (fun list => s.Yields false u (list.map .member)) b := by
  unfold membersStep
  simp only [ends_check, ends_atEnd]
  refine .ite (fun _ => .pure h) fun _ => ?_
  refine (accept_passes .semi t).bind fun _ u htu => ?_
  have hsu := h.passes htu
  refine .ite (fun _ => .pure hsu) fun _ => ?_
  simp only [ends_remaining]
  refine (attempt_ends (hr.member name u)).bind fun outcome v hv => ?_
  cases outcome with
  | ok m =>
    refine .pure ?_
    change s.Yields false v ((list ++ [m]).map .member)
    rw [List.map_append]
    exact hsu.append hv
  | error e =>
    refine (recordError_ends e).bind fun goOn w hRead => ?_
    obtain ⟨hvw, hne⟩ := hRead
    have hsw := hsu.lost (hv.trans hvw) (hv.ne_of_ne_right hvw hne)
    refine .ite (fun _ => ?_) fun _ => ?_
    · exact (recover_ends (Tokens.inner_toMember 0 w.rest)).bind fun _ x hwx =>
        .pure (hsw.passes hwx)
    · simp only [ends_remaining]
      exact (skip_passes (Tokens.inner_toClosingBrace 1 w.rest)).bind fun _ x hwx =>
        .pure (hsw.passes hwx)

theorem members_ends (hr : r.Orderly) (name : String) (s : ParseState) :
    Ends (members r name) s fun list t => s.Yields false t (list.map .member) :=
  loop_ends (fun list t => s.Yields false t (list.map .member)) (.refl s) fun _ _ hst =>
    membersStep_ends hr name hst

/-- Arguments for a record's base are read and left out. -/
theorem bases_ends (hr : r.Orderly) (s : ParseState) : Ends (bases r) s fun _ t => s.LeadsTo t := by
  unfold bases
  refine (accept_passes .colon s).bind fun _ t hst => ?_
  refine .ite (fun _ => ?_) fun _ => .pure hst.toLeadsTo
  refine commaSeparated_ends (fun _ u => s.LeadsTo u) (fun _ _ _ hsu huv => hsu.trans huv.toLeadsTo)
    hst.toLeadsTo fun list u hsu => ?_
  refine (type_ends hr u).bind fun type v huv => ?_
  simp only [ends_check]
  have hsv := hsu.trans huv.toLeadsTo
  refine .optional s.LeadsTo (fun w hsw => .pure hsw) (fun _ rest => ?_) fun _ => hsv
  exact (arguments_ends hr v).bind fun _ w hvw => rest w (hsv.trans hvw.leadsTo)

theorem skipRecordKind_ends (s : ParseState) : Ends skipRecordKind s fun _ t => s.Passes t := by
  unfold skipRecordKind
  refine (acceptWord_passes .classKw s).bind fun _ t hst => ?_
  refine .ite (fun _ => .pure hst) fun _ => ?_
  exact (acceptWord_passes .structKw t).bind fun _ u htu => .pure (hst.trans htu)

theorem typeDecl_ends (hr : r.Orderly) (mods : List Modifier) (s : ParseState) :
    Ends (typeDecl r mods) s fun d t => s.Reads true t (d.members.map .member) := by
  unfold typeDecl
  simp only [ends_currentKind]
  split
  · exact failExpected_ends _
  refine (advance_passes s).bind fun _ a hsa => ?_
  refine .optional s.Passes (fun b hsb => ?_) (fun _ rest => ?_) fun _ => hsa
  · simp only [ends_current]
    refine (expectName_ends b).bind fun name c hbc => ?_
    refine (optionalTypeParams_ends c).bind fun typeParams d hcd => ?_
    have hsd := (hsb.takes hbc).passes hcd
    simp only [ends_check]
    refine .optional (fun e => s.Reads true e []) (fun e hse => ?_) (fun _ rest => ?_)
      fun _ => hsd.reads
    · refine (bases_ends hr e).bind fun types f hef => ?_
      refine (skipConstraints_ends f).bind fun _ g hfg => ?_
      simp only [ends_check]
      have hsg := hse.append (.skipped (hef.trans hfg.toLeadsTo))
      refine .ite (fun _ => ?_) fun _ => ?_
      · exact (advance_passes g).bind fun _ h hgh => .pure (hsg.passes hgh)
      · refine (expect_ends .lBrace g).bind fun _ h hgh => ?_
        refine .join (P := fun (list : List Member) i => h.Yields false i (list.map .member))
          (fun _ => enumMembers_ends hr h) (fun _ => members_ends hr name h) fun list i hhi => ?_
        refine (expect_ends .rBrace i).bind fun _ j hij => ?_
        refine (accept_passes .semi j).bind fun _ k hjk => .pure ?_
        have hhk := (hhi.passes hij.toPasses).passes hjk
        exact hsg.append (hhk.after hgh.toPasses).loosen
    · exact (params_ends hr d).bind fun _ e hde =>
        rest e (hsd.reads.append (.skipped hde.leadsTo))
  · exact (skipRecordKind_ends a).bind fun _ b hab => rest b (hsa.trans hab)

/-- The member was read from `s` on, behind attributes, and then took the last number. -/
def MemberRead (s : ParseState) (m : Member) (t : ParseState) : Prop :=
  ∃ a b, s.Passes a ∧ a.Reads m.kind.isType b m.kind.nodes ∧ m.id = b.nextId ∧
    m.span = ⟨a.current.span.start, b.prevEnd⟩ ∧ t = { b with nextId := b.nextId + 1 }

theorem member_read (hr : r.Orderly) (typeName : String) (s : ParseState) :
    Ends (member r typeName) s (MemberRead s) := by
  unfold member
  refine (skipAttributes_ends s).bind fun _ a hsa => ?_
  simp only [ends_currentStart]
  refine (modifiers_ends a).bind fun mods b hab => ?_
  simp only [ends_currentKind, ends_peekKind]
  have finish : ∀ k c, b.Reads (MemberKind.isType k) c k.nodes →
      Ends (do return (⟨← freshId, k, ← spanFrom a.current.span.start⟩ : Member)) c
        (MemberRead s) := by
    intro k c hbc
    exact fresh_ends ⟨a, c, hsa, hbc.after hab, rfl, rfl, rfl⟩
  refine .ite (fun _ => ?_) fun _ => .ite (fun _ => ?_) fun _ => .ite (fun _ => ?_) fun _ => ?_
  · exact ((typeDecl_ends hr mods b).map fun _ _ h => h).bind finish
  · exact ((constructor_ends hr mods b).map fun _ _ h => h).bind finish
  · simp only [ends_current]
    exact (failAt_ends _ _).bind finish
  · exact (typedMember_ends hr mods b).bind finish

theorem member_ends (hr : r.Orderly) (typeName : String) (s : ParseState) :
    Ends (member r typeName) s fun m t => s.Yields false t [.member m] := by
  refine (member_read hr typeName s).run.mono fun m t hRead => ?_
  obtain ⟨⟨a, b, hsa, hab, hid, hspan, ht⟩, run⟩ := hRead
  subst ht
  refine .node hsa hab hid hspan fun m' h hf => ?_
  cases h
  obtain ⟨n, rfl⟩ := hr.depth
  refine ⟨n, typeName, s, _, run, rfl, rfl, fun same => ?_⟩
  exact Classical.not_not.mp same

theorem namespaceStep_ends {decl : Parse Decl} (topLevel : Bool)
    (hd : ∀ s, Ends decl s fun d t => s.Yields false t [.decl d]) {list : List Decl}
    (h : s.Yields false t (list.map .decl)) :
    Ends (namespaceStep decl topLevel list) t fun b u =>
      Sum.elim (fun list => s.Yields false u (list.map .decl))
        (fun list => s.Yields false u (list.map .decl)) b := by
  unfold namespaceStep
  simp only [ends_check, ends_atEnd]
  refine .ite (fun _ => .pure h) fun _ => ?_
  simp only [ends_remaining]
  refine (attempt_ends (hd t)).bind fun outcome u hu => ?_
  cases outcome with
  | ok d =>
    refine .pure ?_
    change s.Yields false u ((list ++ [d]).map .decl)
    rw [List.map_append]
    exact h.append hu
  | error e =>
    refine (recordError_ends e).bind fun goOn v hRead => ?_
    obtain ⟨huv, hne⟩ := hRead
    have hsv := h.lost (hu.trans huv) (hu.ne_of_ne_right huv hne)
    refine .ite (fun _ => ?_) fun _ => .pure hsv
    exact (recover_ends (Tokens.inner_toDecl 0 v.rest)).bind fun _ w hvw => .pure (hsv.passes hvw)

theorem namespaceBody_ends {decl : Parse Decl} (topLevel : Bool)
    (hd : ∀ s, Ends decl s fun d t => s.Yields false t [.decl d]) (s : ParseState) :
    Ends (namespaceBody decl topLevel) s fun list t => s.Yields false t (list.map .decl) :=
  loop_ends (fun list t => s.Yields false t (list.map .decl)) (.refl s) fun _ _ hst =>
    namespaceStep_ends topLevel hd hst

theorem usingDirective_ends (hr : r.Orderly) (s : ParseState) :
    Ends (usingDirective r) s fun _ t => s.Takes t := by
  unfold usingDirective
  refine (expectWord_ends .usingKw s).bind fun _ t hst => ?_
  refine (acceptWord_passes .staticKw t).bind fun isStatic u htu => ?_
  have aliased : Ends usingAlias u fun _ v => u.Passes v := by
    unfold usingAlias
    simp only [ends_peekKind]
    refine .ite (fun _ => ?_) fun _ => .pure (.refl u)
    refine (expectName_ends u).bind fun name v huv => ?_
    exact (advance_passes v).bind fun _ w hvw => .pure (huv.toPasses.trans hvw)
  refine aliased.bind fun aliasName v huv => ?_
  refine (type_ends hr v).bind fun type w hvw => ?_
  exact (expect_ends .semi w).bind fun _ x hwx =>
    .pure ((((hst.passes htu).passes huv).trans hvw).trans hwx)

theorem namespaceName_ends (s : ParseState) : Ends namespaceName s fun _ t => s.Takes t := by
  unfold namespaceName
  refine (expectName_ends s).bind fun first t hst => ?_
  refine loop_ends (fun _ u => s.Takes u) hst fun path u hsu => ?_
  refine (accept_passes .dot u).bind fun _ v huv => ?_
  refine .ite (fun _ => ?_) fun _ => .pure (hsu.passes huv)
  exact (expectName_ends v).bind fun _ w hvw => .pure ((hsu.passes huv).trans hvw)

theorem namespaceDecl_ends (hr : r.Orderly) (s : ParseState) :
    Ends (namespaceDecl r) s fun n t => s.Reads false t (n.decls.map .decl) := by
  unfold namespaceDecl
  refine (expectWord_ends .namespaceKw s).bind fun _ t hst => ?_
  refine (namespaceName_ends t).bind fun name u htu => ?_
  refine (accept_passes .semi u).bind fun _ v huv => ?_
  have hsv := (hst.trans htu).passes huv
  refine .ite (fun _ => ?_) fun _ => ?_
  · refine (namespaceBody_ends true hr.decl v).bind fun decls w hvw => .pure ?_
    exact hvw.behind hsv
  · refine (expect_ends .lBrace v).bind fun _ w hvw => ?_
    refine (namespaceBody_ends false hr.decl w).bind fun decls x hwx => ?_
    refine (expect_ends .rBrace x).bind fun _ y hxy => .pure ?_
    have hwy := hwx.passes hxy.toPasses
    have hsw := hsv.trans hvw
    exact hwy.behind hsw

theorem decl_ends (hr : r.Orderly) (s : ParseState) :
    Ends (decl r) s fun d t => s.Yields false t [.decl d] := by
  unfold decl
  refine (skipAttributes_ends s).bind fun _ a hsa => ?_
  simp only [ends_currentStart, ends_currentKind]
  have finish : ∀ p : Parse (DeclKind Decl), (Ends p a fun k b =>
      a.Reads true b (Node.decl ⟨b.nextId, k, ⟨0, 0⟩⟩).children) →
      Ends (do
        let k ← p
        return (⟨← freshId, k, ← spanFrom a.current.span.start⟩ : Decl)) a
        fun d t => s.Yields false t [.decl d] := fun p hp =>
    hp.bind fun k b hab => fresh_ends (.node hsa hab rfl rfl fun _ h => by cases h)
  split
  · exact finish _ ((usingDirective_ends hr a).map fun _ b hab => hab.reads)
  · exact finish _ ((namespaceDecl_ends hr a).map fun _ b hab => ⟨hab.loosen, hab.moves⟩)
  · refine finish _ (Ends.map (P := fun (d : TypeDecl Member) b =>
      a.Reads true b (d.members.map .member)) ?_ fun _ b h => h)
    unfold topTypeDecl
    refine (modifiers_ends a).bind fun mods b hab => ?_
    exact (typeDecl_ends hr mods b).mono fun d c hbc => hbc.after hab

end Parse

/-! ## The grammar as a whole -/

open Parse

theorem Rules.orderly_exhausted : Rules.exhausted.Orderly where
  depth := ⟨0, rfl⟩
  type _ := LeadsTo.refl _
  expr _ := LeadsTo.refl _
  exprAbove _ _ := LeadsTo.refl _
  varInitializer _ := LeadsTo.refl _
  stmt _ := LeadsTo.refl _
  member _ _ := LeadsTo.refl _
  decl _ := LeadsTo.refl _

theorem Rules.Orderly.step {r : Rules} (hr : r.Orderly) : r.step.Orderly where
  depth := by
    obtain ⟨n, rfl⟩ := hr.depth
    exact ⟨n + 1, rfl⟩
  type := type_ends hr
  expr := expr_ends hr
  exprAbove := exprAbove_ends hr
  varInitializer := varInitializer_ends hr
  stmt := stmt_ends hr
  member := member_ends hr
  decl := decl_ends hr

theorem Rules.orderly (n : Nat) : (Rules.depth n).Orderly := by
  induction n with
  | zero => exact Rules.orderly_exhausted
  | succ n ih => exact ih.step

/-- A unit is made of the declarations read, and takes the errors met with it. -/
theorem compilationUnit_cases (s : ParseState) :
    (∃ list t, withRules (fun r => namespaceBody r.decl true) s = .ok list t ∧
      compilationUnit s =
        .ok (⟨list, ⟨0, t.endOffset⟩⟩, t.errors) { t with errors := [] }) ∨
    ∃ e t, withRules (fun r => namespaceBody r.decl true) s = .error e t ∧
      compilationUnit s = .error e t := by
  cases h : withRules (fun r => namespaceBody r.decl true) s with
  | ok list t =>
    exact .inl ⟨list, t, rfl, (bind_of_ok h).trans rfl⟩
  | error e t =>
    exact .inr ⟨e, t, rfl, bind_of_error h⟩

theorem namespaceBody_withRules_ends (s : ParseState) :
    Ends (withRules fun r => namespaceBody r.decl true) s fun list t =>
      s.Yields false t (list.map .decl) := by
  unfold withRules
  simp only [ends_remaining]
  exact namespaceBody_ends true (Rules.orderly _).decl s

/-- The declarations of a unit are laid out over its tokens. -/
theorem laid_parseTokens (tokens : List Token) :
    ∃ b, Laid ((parseTokens tokens).2 ≠ []) false ⟨0, tokens⟩ b
      ((parseTokens tokens).1.decls.map .decl) := by
  have read := namespaceBody_withRules_ends (.ofTokens tokens)
  unfold parseTokens
  rcases compilationUnit_cases (.ofTokens tokens) with ⟨list, t, hRun, h⟩ | ⟨e, t, hRun, h⟩
  · rw [h]
    exact ⟨t.mark, ((ends_of_ok hRun).mp read).2.laid⟩
  · rw [h]
    exact ⟨⟨0, tokens⟩, .nil (.refl _ _)⟩

end Stackable
