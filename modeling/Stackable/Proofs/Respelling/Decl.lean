import Stackable.Proofs.Respelling.Stmt

/-!
# Declarations around a respelled word

Members and declarations find the word where their parts do. From this the rules of every depth
follow themselves over the respelled tokens. If a text has no error and its unit holds the declarator
whose initial value the word creates, the respelled text has none, and its unit is the respelled one.
-/

set_option autoImplicit false

namespace Stackable

open ParseState Parse

namespace Respelling

variable {v : Respelling}

theorem holds_accessor {a : Accessor} :
    v.Holds (.accessor a) ↔ v.Found ((a.body.map FnBody.nodes).getD []) := by
  rw [holds_iff]
  simp only [reduceCtorEq, false_and, exists_false, false_or]
  rfl

theorem holds_member {m : Member} : v.Holds (.member m) ↔ v.Found m.kind.nodes := by
  rw [holds_iff]
  simp only [reduceCtorEq, false_and, exists_false, false_or]
  rfl

theorem holds_decl {d : Decl} : v.Holds (.decl d) ↔ v.Found (Node.decl d).children := by
  rw [holds_iff]
  simp only [reduceCtorEq, false_and, exists_false, false_or]
  rfl

@[simp] theorem found_members {ms : List Member} :
    v.Found (ms.map .member) ↔ ∃ m ∈ ms, v.Holds (.member m) := by
  simp [Found]

@[simp] theorem found_decls {ds : List Decl} :
    v.Found (ds.map .decl) ↔ ∃ d ∈ ds, v.Holds (.decl d) := by
  simp [Found]

@[simp] theorem found_accessors {as : List Accessor} :
    v.Found (as.map .accessor) ↔ ∃ a ∈ as, v.Holds (.accessor a) := by
  simp [Found]

@[simp] theorem found_defaults (l : List Param) : v.Found (Param.defaults l) ↔ False :=
  found_exprs _

@[simp] theorem found_initializer (i : Option Initializer) :
    v.Found (i.map fun i => Node.expr i.value).toList ↔ False := by
  cases i <;> simp

@[simp] theorem found_chain (o : Option ConstructorChain) :
    v.Found ((o.map fun x => x.args.map fun a => Node.expr a.expr).getD []) ↔ False := by
  cases o <;> simp [Found]

end Respelling

namespace RespelledText

variable {c : RespelledText} {r : Rules} {s t : ParseState}

theorem modifierAt_token (fits : c.Fits) (hs : s.rest <:+ c.tokens)
    (hk : (c.token s.current).kind = s.current.kind) :
    modifierAt (c.token s.current).kind (Tokens.kind ((s.rest.drop 1).map c.token)) =
      modifierAt s.current.kind (Tokens.kind (s.rest.drop 1)) := by
  have next : ∀ name, s.current.kind = .ident name →
      Tokens.kind ((s.rest.drop 1).map c.token) = Tokens.kind (s.rest.drop 1) := by
    intro name hName
    rw [← kind_rest] at hName
    cases hRest : s.rest with
    | nil => rfl
    | cons x l =>
      rw [hRest] at hs hName
      refine kind_behind fits hs fun hEq => ?_
      rw [Tokens.kind, hEq] at hName
      cases hName
  rw [hk]
  cases hKind : s.current.kind with
  | ident name => rw [next name hKind]
  | _ => rfl

theorem modifiers_tracks (s : ParseState) : c.Plain modifiers modifiers s fun l => l := by
  refine loop_plain (f := fun l => l) rfl fun list t => ?_
  refine .by_kind (fun hk => ?_) fun hNew _ hw => ?_
  · refine .of_fits (fun fits hs => .currentKind (.peekKind ?_)) ?_
    · rw [modifierAt_token fits hs hk]
      split
      · exact (advance_tracks t).bind fun _ _ _ => .pure rfl id
      · exact .pure rfl id
    · rw [ends_currentKind, ends_peekKind]
      split
      · exact (advance_ends t).bind fun _ _ _ => .pure trivial
      · exact .pure trivial
  · -- the word is read as a modifier
    refine .of_word hw ?_
    rw [ends_currentKind, ends_peekKind, hNew]
    refine (advance_ends t).bind fun _ u ⟨_, _, takes⟩ => .pure ?_
    exact (takes (by rw [hNew]; rfl)).moves

theorem typeParams_tracks (s : ParseState) : c.Plain typeParams typeParams s fun l => l := by
  unfold typeParams
  refine (expect_tracks .lt s).bind fun _ t _ => ?_
  refine Plain.bind (commaSeparated_plain (f := fun name => name) (fun u => ?_) t) fun names u _ => ?_
  · refine (skipAttributes_tracks u).bind fun _ w _ => ?_
    refine (acceptWord_tracks (by decide) (by decide) w).bind fun _ x _ => ?_
    refine .ite (fun _ => expectName_tracks x) fun _ => ?_
    exact (acceptWord_tracks (by decide) (by decide) x).bind fun _ y _ => expectName_tracks y
  · exact (expectClosingAngle_tracks u).bind fun _ _ _ => .pure (by simp) id

theorem optionalTypeParams_tracks (s : ParseState) :
    c.Plain optionalTypeParams optionalTypeParams s fun l => l := by
  unfold optionalTypeParams
  exact .check (.ite (fun _ => typeParams_tracks s) fun _ => .pure rfl id)

theorem param_tracks (hr : r.Tracked c) (s : ParseState) :
    c.Plain (param r) (param r) s c.param := by
  unfold param
  refine (skipAttributes_tracks s).bind fun _ t _ => .currentStart (.currentKind ?_)
  rw [c.paramModifier?_token]
  refine .optional (fun u _ => ?_) fun _ rest => ?_
  · refine (type_tracks hr u).bind fun type w _ => ?_
    refine (expectName_tracks w).bind fun name x _ => ?_
    refine (accept_tracks .eq x).bind fun _ y _ => ?_
    refine Plain.join (f := Option.map c.expr) (fun _ => (hr.expr y).map (fun _ => rfl) fun _ => id)
      (fun _ => .pure rfl id) fun default z _ => ?_
    exact .spanFrom (.pure rfl id)
  · exact (advance_tracks t).bind fun _ u htu => rest u htu

theorem params_tracks (hr : r.Tracked c) (s : ParseState) :
    c.Plain (params r) (params r) s (List.map c.param) := by
  unfold params
  refine (expect_tracks .lParen s).bind fun _ t _ => .check ?_
  refine Plain.join (f := List.map c.param) (fun _ => .pure rfl id)
    (fun _ => commaSeparated_plain (param_tracks hr) t) fun list u _ => ?_
  exact (expect_tracks .rParen u).bind fun _ _ _ => .pure rfl id

theorem fnBody_tracks (hr : r.Tracked c) (s : ParseState) :
    c.Tracks (fnBody r) (fnBody r) s (Option.map c.fnBody)
      fun b => c.Found ((b.map FnBody.nodes).getD []) := by
  unfold fnBody
  refine .currentKind (.by_kind (fun hk => ?_) fun hNew _ _ => ?_)
  · rw [hk]
    split
    next =>
      refine (block_tracks hr s).bind fun body t _ => .pure rfl ?_
      simp [FnBody.nodes]
    next =>
      refine (advance_tracks s).bind fun _ t _ => ?_
      refine (hr.expr t).bind fun e u _ => ?_
      exact (expect_tracks .semi u).bind fun _ _ _ => .pure rfl (by simp [FnBody.nodes])
    next => exact (advance_tracks s).bind fun _ t _ => .pure rfl (by simp)
    next => exact failExpected_tracks
  · rw [hNew]
    exact failExpected_tracks

theorem method_tracks (hr : r.Tracked c) (mods : List Modifier) (returnType : TypeRef)
    (name : String) (nameSpan : Span) (s : ParseState) :
    c.Tracks (method r mods returnType name nameSpan)
      (method r mods (c.typeRef returnType) name (c.span nameSpan)) s c.methodDecl
      fun d => c.Found (MemberKind.method d).nodes := by
  unfold method
  refine (optionalTypeParams_tracks s).bind fun typeParams t _ => ?_
  refine (params_tracks hr t).bind fun list u _ => ?_
  refine (skipConstraints_tracks u).bind fun _ w _ => ?_
  refine (fnBody_tracks hr w).bind fun body x _ => .pure rfl ?_
  simp [MemberKind.nodes]

theorem constructorChain_tracks (hr : r.Tracked c) (s : ParseState) :
    c.Plain (constructorChain r) (constructorChain r) s (Option.map c.constructorChain) := by
  unfold constructorChain
  refine (accept_tracks .colon s).bind fun _ t _ => ?_
  refine .ite (fun _ => .currentKind ?_) fun _ => .pure rfl id
  rw [c.isKeyword_token _ (by decide) (by decide), c.isKeyword_token _ (by decide) (by decide)]
  refine .ite (fun _ => ?_) fun _ => failExpected_tracks
  refine (advance_tracks t).bind fun _ u _ => ?_
  exact (arguments_tracks hr u).bind fun _ _ _ => .pure rfl id

theorem constructor_tracks (hr : r.Tracked c) (mods : List Modifier) (s : ParseState) :
    c.Tracks (Parse.constructor r mods) (Parse.constructor r mods) s c.constructorDecl
      fun d => c.Found (MemberKind.constructor d).nodes := by
  unfold Parse.constructor
  refine .current ((expectName_tracks s).bind fun name t _ => ?_)
  refine (params_tracks hr t).bind fun list u _ => ?_
  refine (constructorChain_tracks hr u).bind fun chain w _ => ?_
  refine (fnBody_tracks hr w).bind fun body x _ => .pure rfl ?_
  simp [MemberKind.nodes]

theorem accessor_tracks (hr : r.Tracked c) (s : ParseState) :
    c.Tracks (accessor r) (accessor r) s c.accessor fun a => c.Holds (.accessor a) := by
  unfold accessor
  refine (skipAttributes_tracks s).bind fun _ t _ => .currentStart ?_
  refine (modifiers_tracks t).bind fun mods u _ => .currentKind ?_
  rw [c.accessorKind?_token]
  split
  · refine (advance_tracks u).bind fun _ w _ => ?_
    refine (fnBody_tracks hr w).bind fun body x _ => ?_
    refine (freshId_tracks x).bind fun id y _ => .spanFrom (.pure rfl ?_)
    rw [Respelling.holds_accessor]
    exact fun h => h.2 h.1
  · exact failExpected_tracks

theorem accessors_tracks (hr : r.Tracked c) (s : ParseState) :
    c.Tracks (accessors r) (accessors r) s (List.map c.accessor)
      fun l => ∃ a ∈ l, c.Holds (.accessor a) := by
  unfold accessors
  refine (expect_tracks .lBrace s).bind fun _ t _ => ?_
  refine Tracks.bind (loop_tracks (f := List.map c.accessor) (g := List.map c.accessor)
    (M := fun l => ∃ a ∈ l, c.Holds (.accessor a)) (fun l => ∃ a ∈ l, c.Holds (.accessor a))
    (by simp) rfl fun list u => .check (.atEnd ?_)) fun list u _ => ?_
  · refine .ite (fun _ => .pure rfl fun h => h.2 h.1) fun _ => ?_
    exact (accessor_tracks hr u).bind fun a w _ => .pure (by simp) not_found_snoc
  · exact (expect_tracks .rBrace u).bind fun _ _ _ => .pure rfl fun h => h.2 h.1

theorem propertyInitializer_tracks (hr : r.Tracked c) (s : ParseState) :
    c.Plain (propertyInitializer r) (propertyInitializer r) s (Option.map c.initializer) := by
  unfold propertyInitializer
  have plain : c.Plain (optionalVarInitializer r) (optionalVarInitializer r) s
      (Option.map c.initializer) := (optionalVarInitializer_tracks hr s).mono fun _ => False.elim
  refine plain.bind fun init t _ => ?_
  cases init with
  | none => exact .pure rfl id
  | some init => exact (expect_tracks .semi t).bind fun _ _ _ => .pure rfl id

theorem property_tracks (hr : r.Tracked c) (mods : List Modifier) (type : TypeRef) (name : String)
    (nameSpan : Span) (s : ParseState) :
    c.Tracks (property r mods type name nameSpan)
      (property r mods (c.typeRef type) name (c.span nameSpan)) s c.propertyDecl
      fun d => c.Found (MemberKind.property d).nodes := by
  unfold property
  refine (accept_tracks .fatArrow s).bind fun _ t _ => .ite (fun _ => ?_) fun _ => ?_
  · refine (hr.expr t).bind fun e u _ => ?_
    exact (expect_tracks .semi u).bind fun _ _ _ => .pure rfl (by simp [MemberKind.nodes])
  · refine (accessors_tracks hr t).bind fun list u _ => ?_
    refine (propertyInitializer_tracks hr u).bind fun init w _ => .pure rfl ?_
    simp [MemberKind.nodes]

theorem fieldDeclarators_tracks (hr : r.Tracked c) (name : String) (nameSpan : Span)
    (s : ParseState) :
    c.Tracks (fieldDeclarators r name nameSpan) (fieldDeclarators r name (c.span nameSpan)) s
      (List.map c.declarator) fun ds => ∃ d ∈ ds, c.Starts d := by
  unfold fieldDeclarators
  refine (declaratorTail_tracks hr name nameSpan s).bind fun first t _ => ?_
  refine (accept_tracks .comma t).bind fun _ u _ => ?_
  refine Tracks.join (f := List.map c.declarator) (L := fun ds => ∃ d ∈ ds, c.Starts d)
    (fun _ => commaSeparated_tracks (declarator_tracks hr) u) (fun _ => .pure rfl (by simp))
    fun list w _ => ?_
  refine (expect_tracks .semi w).bind fun _ _ _ => .pure rfl ?_
  simp
  tauto

theorem memberName_tracks (s : ParseState) : c.Plain memberName memberName s fun n => n := by
  unfold memberName
  refine (expectName_tracks s).bind fun first t _ => ?_
  refine loop_plain (f := fun n => n) rfl fun name u => .check (.peekKind ?_)
  rw [c.isIdent_map]
  refine .ite (fun _ => ?_) fun _ => .pure rfl id
  refine (advance_tracks u).bind fun _ w _ => ?_
  exact (expectName_tracks w).bind fun _ _ _ => .pure rfl id

theorem typedMember_tracks (hr : r.Tracked c) (mods : List Modifier) (s : ParseState) :
    c.Tracks (typedMember r mods) (typedMember r mods) s c.memberKind fun k => c.Found k.nodes := by
  unfold typedMember
  refine (type_tracks hr s).bind fun type t _ => .checkWord ?_
  rw [c.isKeyword_token _ (by decide) (by decide)]
  refine .ite (fun _ => .current failAt_tracks) fun _ => .checkName ?_
  refine .ite (fun _ => .current failAt_tracks) fun _ => .currentStart ?_
  refine (memberName_tracks t).bind fun name u _ => .spanFrom (.currentKind ?_)
  refine .by_kind (fun hk => ?_) fun hNew _ _ => ?_
  · rw [hk]
    split
    iterate 2
      exact (method_tracks hr mods type name _ u).bind fun d w _ => .pure rfl fun h => h.2 h.1
    iterate 2
      exact (property_tracks hr mods type name _ u).bind fun d w _ => .pure rfl fun h => h.2 h.1
    iterate 3
      refine (fieldDeclarators_tracks hr name _ u).bind fun ds w _ => .pure rfl ?_
      simp [MemberKind.nodes]
    exact failExpected_tracks
  · rw [hNew]
    exact failExpected_tracks

theorem enumMember_tracks (hr : r.Tracked c) (s : ParseState) :
    c.Tracks (enumMember r) (enumMember r) s c.member fun m => c.Holds (.member m) := by
  unfold enumMember
  refine (skipAttributes_tracks s).bind fun _ t _ => .currentStart (.current ?_)
  refine (expectName_tracks t).bind fun name u _ => ?_
  refine (accept_tracks .eq u).bind fun _ w _ => ?_
  refine Plain.join (f := Option.map c.expr) (fun _ => (hr.expr w).map (fun _ => rfl) fun _ => id)
    (fun _ => .pure rfl id) fun value x _ => ?_
  refine (freshId_tracks x).bind fun _ y _ => .spanFrom (.pure rfl ?_)
  simp [Respelling.holds_member, MemberKind.nodes]

theorem enumMembers_tracks (hr : r.Tracked c) (s : ParseState) :
    c.Tracks (enumMembers r) (enumMembers r) s (List.map c.member)
      fun l => ∃ m ∈ l, c.Holds (.member m) := by
  refine loop_tracks (f := List.map c.member) (fun l => ∃ m ∈ l, c.Holds (.member m)) (by simp) rfl
    fun list t => .check (.atEnd ?_)
  refine .ite (fun _ => .pure rfl fun h => h.2 h.1) fun _ => ?_
  refine (enumMember_tracks hr t).bind fun m u _ => ?_
  refine (accept_tracks .comma u).bind fun _ _ _ => ?_
  exact .ite (fun _ => .pure (by simp) not_found_snoc) fun _ => .pure (by simp) not_found_snoc

theorem membersStep_tracks (hr : r.Tracked c) (name : String) (list : List Member)
    (s : ParseState) :
    c.Tracks (membersStep r name list) (membersStep r name (list.map c.member)) s
      (Sum.map (List.map c.member) (List.map c.member))
      fun out => Sum.elim (fun l => ∃ m ∈ l, c.Holds (.member m))
        (fun l => ∃ m ∈ l, c.Holds (.member m)) out ∧ ¬∃ m ∈ list, c.Holds (.member m) := by
  unfold membersStep
  refine .check (.atEnd (.ite (fun _ => .pure rfl fun h => h.2 h.1) fun _ => ?_))
  refine (accept_tracks .semi s).bind fun _ t _ => ?_
  refine .ite (fun _ => .pure rfl fun h => h.2 h.1) fun _ => .remaining ?_
  refine attempt_tracks (hr.member name t) ((hr.orderly.member name t).mono fun _ _ _ => trivial)
    (fun m u => .pure (by simp) not_found_snoc) fun e u => ?_
  refine (recordError_ends e).bind fun goOn w ⟨_, hne⟩ => .ite (fun _ => ?_) fun _ => ?_
  · refine (recover_ends (Tokens.inner_toMember 0 w.rest)).bind fun _ x hwx => .pure ?_
    rw [hwx.sameErrors]
    exact hne
  · rw [ends_remaining]
    refine (skip_ends (Tokens.inner_toClosingBrace 1 w.rest)).bind fun _ x ⟨hwx, _⟩ => .pure ?_
    rw [hwx.sameErrors]
    exact hne

theorem members_tracks (hr : r.Tracked c) (name : String) (s : ParseState) :
    c.Tracks (members r name) (members r name) s (List.map c.member)
      fun l => ∃ m ∈ l, c.Holds (.member m) :=
  loop_tracks (f := List.map c.member) (fun l => ∃ m ∈ l, c.Holds (.member m)) (by simp) rfl
    fun list t => membersStep_tracks hr name list t

theorem bases_tracks (hr : r.Tracked c) (s : ParseState) :
    c.Plain (bases r) (bases r) s (List.map c.typeRef) := by
  unfold bases
  refine (accept_tracks .colon s).bind fun _ t _ => ?_
  refine .ite (fun _ => commaSeparated_plain (fun u => ?_) t) fun _ => .pure rfl id
  refine (type_tracks hr u).bind fun type w _ => .check ?_
  refine .optional (fun _ _ => .pure rfl id) fun _ rest => ?_
  exact (arguments_tracks hr w).bind fun _ x hwx => rest x hwx

theorem skipRecordKind_tracks (s : ParseState) :
    c.Plain skipRecordKind skipRecordKind s fun u => u := by
  unfold skipRecordKind
  refine (acceptWord_tracks (by decide) (by decide) s).bind fun _ t _ => ?_
  refine .ite (fun _ => .pure rfl id) fun _ => ?_
  exact (acceptWord_tracks (by decide) (by decide) t).bind fun _ _ _ => .pure rfl id

theorem typeDecl_tracks (hr : r.Tracked c) (mods : List Modifier) (s : ParseState) :
    c.Tracks (typeDecl r mods) (typeDecl r mods) s c.typeDecl
      fun d => ∃ m ∈ d.members, c.Holds (.member m) := by
  unfold typeDecl
  refine .currentKind ?_
  rw [c.typeKind?_token]
  split
  · exact failExpected_tracks
  next kind _ =>
  refine (advance_tracks s).bind fun _ t _ => .optional (fun u _ => .current ?_) fun _ rest => ?_
  · refine (expectName_tracks u).bind fun name w _ => ?_
    refine (optionalTypeParams_tracks w).bind fun typeParams x _ => .check ?_
    refine .optional (fun y _ => ?_) fun _ rest => ?_
    · refine (bases_tracks hr y).bind fun types z _ => ?_
      refine (skipConstraints_tracks z).bind fun _ a _ => .check (.ite (fun _ => ?_) fun _ => ?_)
      · exact (advance_tracks a).bind fun _ _ _ => .pure rfl (by simp)
      · refine (expect_tracks .lBrace a).bind fun _ b _ => ?_
        refine Tracks.join (f := List.map c.member) (L := fun l => ∃ m ∈ l, c.Holds (.member m))
          (fun _ => enumMembers_tracks hr b) (fun _ => members_tracks hr name b) fun list d _ => ?_
        refine (expect_tracks .rBrace d).bind fun _ e _ => ?_
        refine (accept_tracks .semi e).bind fun _ _ _ => .pure ?_ fun h => h.2 h.1
        simp [Respelling.typeDecl, Respelling.token]
    · exact (params_tracks hr x).bind fun _ y hxy => rest y hxy
  · exact (skipRecordKind_tracks t).bind fun _ u htu => rest u htu

theorem member_tracks (hr : r.Tracked c) (typeName : String) (s : ParseState) :
    c.Tracks (member r typeName) (member r typeName) s c.member fun m => c.Holds (.member m) := by
  unfold member
  refine (skipAttributes_tracks s).bind fun _ t _ => .currentStart ?_
  refine (modifiers_tracks t).bind fun mods u _ => .currentKind (.peekKind ?_)
  rw [c.typeKind?_token, c.isName_token, c.isPunct_map, c.isPunct_token]
  have finish : ∀ (p q : Parse (MemberKind Member)),
      (c.Tracks p q u c.memberKind fun k => c.Found k.nodes) →
      c.Tracks (do
          let k ← p
          return (⟨← freshId, k, ← spanFrom t.current.span.start⟩ : Member))
        (do
          let k ← q
          return (⟨← freshId, k, ← spanFrom (c.shift t.current.span.start)⟩ : Member)) u c.member
        fun m => c.Holds (.member m) := by
    intro p q hp
    refine hp.bind fun k w _ => (freshId_tracks w).bind fun id x _ => .spanFrom (.pure rfl ?_)
    rw [Respelling.holds_member]
    exact fun h => h.2 h.1
  refine .ite (fun _ => ?_) fun _ => .ite (fun _ => ?_) fun _ => .ite (fun _ => ?_) fun _ => ?_
  · exact finish _ _ ((typeDecl_tracks hr mods u).map (fun _ => rfl) (by simp [MemberKind.nodes]))
  · exact finish _ _ ((constructor_tracks hr mods u).map (fun _ => rfl) fun _ h => h)
  · exact .current fun _ => trivial
  · exact finish _ _ (typedMember_tracks hr mods u)

theorem namespaceStep_tracks {decl : Parse Decl} (topLevel : Bool)
    (hd : ∀ s, c.Tracks decl decl s c.decl fun d => c.Holds (.decl d))
    (lead : ∀ s, Ends decl s fun _ _ => True) (list : List Decl) (s : ParseState) :
    c.Tracks (namespaceStep decl topLevel list) (namespaceStep decl topLevel (list.map c.decl)) s
      (Sum.map (List.map c.decl) (List.map c.decl))
      fun out => Sum.elim (fun l => ∃ d ∈ l, c.Holds (.decl d))
        (fun l => ∃ d ∈ l, c.Holds (.decl d)) out ∧ ¬∃ d ∈ list, c.Holds (.decl d) := by
  unfold namespaceStep
  refine .atEnd (.check (.ite (fun _ => .pure rfl fun h => h.2 h.1) fun _ => .remaining ?_))
  refine attempt_tracks (hd s) (lead s) (fun d u => .pure (by simp) not_found_snoc) fun e u => ?_
  refine (recordError_ends e).bind fun goOn w ⟨_, hne⟩ => .ite (fun _ => ?_) fun _ => .pure hne
  refine (recover_ends (Tokens.inner_toDecl 0 w.rest)).bind fun _ x hwx => .pure ?_
  rw [hwx.sameErrors]
  exact hne

theorem namespaceBody_tracks {decl : Parse Decl} (topLevel : Bool)
    (hd : ∀ s, c.Tracks decl decl s c.decl fun d => c.Holds (.decl d))
    (lead : ∀ s, Ends decl s fun _ _ => True) (s : ParseState) :
    c.Tracks (namespaceBody decl topLevel) (namespaceBody decl topLevel) s (List.map c.decl)
      fun l => ∃ d ∈ l, c.Holds (.decl d) :=
  loop_tracks (f := List.map c.decl) (fun l => ∃ d ∈ l, c.Holds (.decl d)) (by simp) rfl
    fun list t => namespaceStep_tracks topLevel hd lead list t

theorem usingPath_typeRef (x : TypeRef) : usingPath (c.typeRef x) = usingPath x := by
  obtain ⟨kind, span⟩ := x
  cases kind <;> rfl

theorem usingDirective_tracks (hr : r.Tracked c) (s : ParseState) :
    c.Plain (usingDirective r) (usingDirective r) s fun d => d := by
  unfold usingDirective
  refine (expectWord_tracks .usingKw s).bind fun _ t _ => ?_
  refine (acceptWord_tracks (by decide) (by decide) t).bind fun isStatic u _ => ?_
  have aliased : c.Plain usingAlias usingAlias u fun name => name := by
    unfold usingAlias
    refine .peekKind ?_
    rw [c.isPunct_map]
    refine .ite (fun _ => ?_) fun _ => .pure rfl id
    refine (expectName_tracks u).bind fun name w _ => ?_
    exact (advance_tracks w).bind fun _ _ _ => .pure rfl id
  refine aliased.bind fun aliasName w _ => ?_
  refine (type_tracks hr w).bind fun type x _ => ?_
  refine (expect_tracks .semi x).bind fun _ _ _ => .pure ?_ id
  rw [usingPath_typeRef]

theorem namespaceName_tracks (s : ParseState) :
    c.Plain namespaceName namespaceName s fun path => path := by
  unfold namespaceName
  refine (expectName_tracks s).bind fun first t _ => ?_
  refine loop_plain (f := fun path => path) rfl fun path u => ?_
  refine (accept_tracks .dot u).bind fun _ w _ => ?_
  refine .ite (fun _ => ?_) fun _ => .pure rfl id
  exact (expectName_tracks w).bind fun _ _ _ => .pure rfl id

theorem namespaceDecl_tracks (hr : r.Tracked c) (s : ParseState) :
    c.Tracks (namespaceDecl r) (namespaceDecl r) s c.namespaceDecl
      fun n => ∃ d ∈ n.decls, c.Holds (.decl d) := by
  have lead : ∀ s, Ends r.decl s fun _ _ => True :=
    fun s => (hr.orderly.decl s).mono fun _ _ _ => trivial
  unfold namespaceDecl
  refine (expectWord_tracks .namespaceKw s).bind fun _ t _ => ?_
  refine (namespaceName_tracks t).bind fun name u _ => ?_
  refine (accept_tracks .semi u).bind fun _ w _ => .ite (fun _ => ?_) fun _ => ?_
  · refine (namespaceBody_tracks true hr.decl lead w).bind fun decls x _ => .pure ?_ fun h => h.2 h.1
    simp [Respelling.namespaceDecl]
  · refine (expect_tracks .lBrace w).bind fun _ x _ => ?_
    refine (namespaceBody_tracks false hr.decl lead x).bind fun decls y _ => ?_
    refine (expect_tracks .rBrace y).bind fun _ _ _ => .pure ?_ fun h => h.2 h.1
    simp [Respelling.namespaceDecl]

theorem decl_tracks (hr : r.Tracked c) (s : ParseState) :
    c.Tracks (decl r) (decl r) s c.decl fun d => c.Holds (.decl d) := by
  unfold decl
  refine (skipAttributes_tracks s).bind fun _ t _ => .currentStart (.currentKind ?_)
  have finish : ∀ (p q : Parse (DeclKind Decl)),
      (c.Tracks p q t c.declKind fun k => ∀ id span, c.Found (Node.decl ⟨id, k, span⟩).children) →
      c.Tracks (do
          let k ← p
          return (⟨← freshId, k, ← spanFrom t.current.span.start⟩ : Decl))
        (do
          let k ← q
          return (⟨← freshId, k, ← spanFrom (c.shift t.current.span.start)⟩ : Decl)) t c.decl
        fun d => c.Holds (.decl d) := by
    intro p q hp
    refine hp.bind fun k w _ => (freshId_tracks w).bind fun id x _ => .spanFrom (.pure rfl ?_)
    rw [Respelling.holds_decl]
    exact fun h => h.2 fun _ _ => h.1
  have typed : c.Tracks (DeclKind.typeDecl <$> topTypeDecl r) (DeclKind.typeDecl <$> topTypeDecl r) t
      c.declKind fun k => ∀ id span, c.Found (Node.decl ⟨id, k, span⟩).children := by
    refine Tracks.map (f := c.typeDecl) (L := fun d => ∃ m ∈ d.members, c.Holds (.member m)) ?_
      (fun _ => rfl) (by simp [Node.children])
    exact (modifiers_tracks t).bind fun mods u _ => typeDecl_tracks hr mods u
  refine .by_kind (fun hk => ?_) fun hNew hk _ => ?_
  · rw [hk]
    split
    · exact finish _ _ ((usingDirective_tracks hr t).map (fun _ => rfl) (by simp [Node.children]))
    · exact finish _ _ ((namespaceDecl_tracks hr t).map (fun _ => rfl) (by simp [Node.children]))
    · exact finish _ _ typed
  · rw [hNew, hk]
    exact finish _ _ typed

end RespelledText

/-! ## The grammar as a whole -/

open RespelledText

theorem Rules.tracked_exhausted (c : RespelledText) : Rules.exhausted.Tracked c where
  orderly := Rules.orderly_exhausted
  type _ := fun _ => trivial
  expr _ := fun _ => trivial
  exprAbove _ _ := fun _ => trivial
  varInitializer _ := fun _ => trivial
  stmt _ := fun _ => trivial
  member _ _ := fun _ => trivial
  decl _ := fun _ => trivial

theorem Rules.Tracked.step {c : RespelledText} {r : Rules} (hr : r.Tracked c) : r.step.Tracked c where
  orderly := hr.orderly.step
  type := type_tracks hr
  expr := expr_tracks hr
  exprAbove := exprAbove_tracks hr
  varInitializer := varInitializer_tracks hr
  stmt := stmt_tracks hr
  member := member_tracks hr
  decl := decl_tracks hr

theorem Rules.tracked (c : RespelledText) (n : Nat) : (Rules.depth n).Tracked c := by
  induction n with
  | zero => exact Rules.tracked_exhausted c
  | succ n ih => exact ih.step

namespace RespelledText

variable {c : RespelledText}

theorem state_ofTokens : c.state (.ofTokens c.tokens) = .ofTokens (c.tokens.map c.token) := by
  have hZero : c.shift 0 = 0 := c.shift_of_le (Nat.zero_le _)
  simp only [Respelling.state, ParseState.ofTokens, hZero, ParseState.mk.injEq, true_and,
    List.getLast?_map]
  cases c.tokens.getLast? with
  | none => exact hZero
  | some x => rfl

theorem unitBody_tracks (s : ParseState) :
    c.Tracks (withRules fun r => namespaceBody r.decl true) (withRules fun r => namespaceBody r.decl true)
      s (List.map c.decl) fun l => ∃ d ∈ l, c.Holds (.decl d) := by
  have hr := Rules.tracked c (s.rest.length + 1)
  unfold withRules
  refine .remaining ?_
  rw [List.length_map]
  exact namespaceBody_tracks true hr.decl
    (fun s => (hr.orderly.decl s).mono fun _ _ _ => trivial) s

/-- The run that reads a text without an error. -/
theorem unitBody_of_parseTokens (hFree : (parseTokens c.tokens).2 = []) :
    ∃ list t, parseTokens c.tokens = (⟨list, ⟨0, t.endOffset⟩⟩, []) ∧ t.errors = [] ∧
      withRules (fun r => namespaceBody r.decl true) (.ofTokens c.tokens) = .ok list t := by
  rcases compilationUnit_cases (.ofTokens c.tokens) with ⟨list, t, hBody, hUnit⟩ | ⟨e, t, _, hUnit⟩
  · have hParse : parseTokens c.tokens = (⟨list, ⟨0, t.endOffset⟩⟩, t.errors) := by
      rw [parseTokens, hUnit]
    rw [hParse] at hFree
    have hErrors : t.errors = [] := hFree
    rw [hErrors] at hParse
    exact ⟨list, t, hParse, hErrors, hBody⟩
  · rw [parseTokens, hUnit] at hFree
    simp at hFree

theorem fits_of_holds (hFree : (parseTokens c.tokens).2 = [])
    (hHolds : ∃ d ∈ (parseTokens c.tokens).1.decls, c.Holds (.decl d)) : c.Fits := by
  have tracks := unitBody_tracks (.ofTokens c.tokens) List.suffix_rfl
  obtain ⟨list, t, hParse, hErrors, hBody⟩ := unitBody_of_parseTokens hFree
  rw [hBody] at tracks
  rw [hParse] at hHolds
  exact ((tracks.2 hErrors).1 hHolds).2

/-- A text that is read without an error is read without one when the word is respelled. -/
theorem parseTokens_map (hFree : (parseTokens c.tokens).2 = [])
    (hHolds : ∃ d ∈ (parseTokens c.tokens).1.decls, c.Holds (.decl d)) :
    parseTokens (c.tokens.map c.token) = (c.unit (parseTokens c.tokens).1, []) := by
  have tracks := unitBody_tracks (.ofTokens c.tokens) List.suffix_rfl
  have fits := fits_of_holds hFree hHolds
  obtain ⟨list, t, hParse, hErrors, hBody⟩ := unitBody_of_parseTokens hFree
  rw [hBody] at tracks
  rw [hParse] at hHolds ⊢
  have hBody' := (tracks.2 hErrors).2 fits fun _ => hHolds
  rw [state_ofTokens] at hBody'
  rcases compilationUnit_cases (.ofTokens (c.tokens.map c.token)) with
    ⟨list', t', hRun, hUnit⟩ | ⟨e, t', hRun, _⟩
  · rw [hRun] at hBody'
    cases hBody'
    rw [parseTokens, hUnit]
    simp only [Respelling.unit, Respelling.span, c.shift_of_le (Nat.zero_le _)]
    exact congrArg _ hErrors
  · rw [hRun] at hBody'
    cases hBody'

end RespelledText

end Stackable
