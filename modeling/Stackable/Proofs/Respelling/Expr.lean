import Stackable.Proofs.Respelling.Run

/-!
# Types and expressions around a respelled word

What a rule for types or expressions reads elsewhere in the text it reads alike, since it looks at
the word only to find that it is neither a name nor a mark. A cast and an `await` ask whether an
operand follows; the `=` in front of the word keeps it out of their sight.
-/

set_option autoImplicit false

namespace Stackable

open ParseState Parse

/-- Each rule follows itself over the respelled tokens. -/
structure Rules.Tracked (c : RespelledText) (r : Rules) : Prop where
  orderly : r.Orderly
  type : ∀ s, c.Plain r.type r.type s c.typeRef
  expr : ∀ s, c.Plain r.expr r.expr s c.expr
  exprAbove : ∀ least s, c.Plain (r.exprAbove least) (r.exprAbove least) s c.expr
  varInitializer : ∀ s, c.Plain r.varInitializer r.varInitializer s c.expr
  stmt : ∀ s, c.Tracks r.stmt r.stmt s c.stmt fun x => c.Holds (.stmt x)
  member : ∀ name s, c.Tracks (r.member name) (r.member name) s c.member fun m => c.Holds (.member m)
  decl : ∀ s, c.Tracks r.decl r.decl s c.decl fun d => c.Holds (.decl d)

namespace RespelledText

variable {c : RespelledText} {r : Rules} {s t : ParseState}

theorem typeArgs_tracks (hr : r.Tracked c) (s : ParseState) :
    c.Plain (typeArgs r) (typeArgs r) s (List.map c.typeRef) := by
  unfold typeArgs
  refine (expect_tracks .lt s).bind fun _ t _ => ?_
  refine Plain.bind (f := List.map c.typeRef) (loop_plain (f := List.map c.typeRef) rfl
    fun args u => ?_) fun args u _ => ?_
  · refine (hr.type u).bind fun x w _ => .pendingGt ?_
    refine .ite (fun _ => .pure (by simp) id) fun _ => ?_
    refine (accept_tracks .comma w).bind fun _ _ _ => ?_
    exact .ite (fun _ => .pure (by simp) id) fun _ => .pure (by simp) id
  · exact (expectClosingAngle_tracks u).bind fun _ _ _ => .pure rfl id

theorem namedType_tracks (hr : r.Tracked c) (s : ParseState) :
    c.Plain (namedType r) (namedType r) s c.typeRefKind := by
  unfold namedType
  refine (expectName_tracks s).bind fun first t _ => ?_
  refine (accept_tracks .colonColon t).bind fun b u _ => ?_
  refine Plain.join (fun _ => expectName_tracks u) (fun _ => .pure rfl id) fun first w _ => ?_
  refine loop_plain
    (f := fun x : List String × List TypeRef => (x.1, x.2.map c.typeRef)) rfl fun ⟨path, args⟩ x => .check ?_
  refine Plain.join (fun _ => typeArgs_tracks hr x) (fun _ => .pure rfl id) fun args y _ => ?_
  refine .pendingGt (.check (.peekKind ?_))
  rw [c.isIdent_map]
  refine .ite (fun _ => ?_) fun _ => .pure (by simp [Respelling.typeRefKind]) id
  refine (advance_tracks y).bind fun _ z _ => ?_
  exact (expectName_tracks z).bind fun _ _ _ => .pure rfl id

theorem typeMarks_tracks (start : Nat) (x : TypeRef) (s : ParseState) :
    c.Plain (typeMarks start x) (typeMarks (c.shift start) (c.typeRef x)) s c.typeRef := by
  refine loop_plain (f := c.typeRef) rfl fun x t => .pendingGt ?_
  refine .ite (fun _ => .pure rfl id) fun _ => ?_
  refine (accept_tracks .question t).bind fun _ u _ => ?_
  refine .ite (fun _ => .spanFrom (.pure rfl id)) fun _ => ?_
  refine (accept_tracks .star u).bind fun _ w _ => ?_
  exact .ite (fun _ => .spanFrom (.pure rfl id)) fun _ => .pure rfl id

theorem nonArrayType_tracks (hr : r.Tracked c) (s : ParseState) :
    c.Plain (nonArrayType r) (nonArrayType r) s c.typeRef := by
  unfold nonArrayType
  refine .currentStart (.currentKind ?_)
  rw [c.predefined?_token]
  split
  · refine (advance_tracks s).bind fun _ t _ => ?_
    refine Plain.bind (.pure (f := c.typeRefKind) rfl id) fun kind u _ => .spanFrom ?_
    exact typeMarks_tracks _ ⟨kind, _⟩ u
  · refine .currentKind ?_
    rw [c.isIdent_token]
    refine Plain.join (fun _ => namedType_tracks hr s) (fun _ => failExpected_tracks)
      fun kind u _ => .spanFrom ?_
    exact typeMarks_tracks _ ⟨kind, _⟩ u

theorem rankSpecifiers_tracks (s : ParseState) :
    c.Plain rankSpecifiers rankSpecifiers s fun l => l := by
  refine loop_plain (f := fun l => l) rfl fun ranks t => .pendingGt (.remaining ?_)
  rw [c.isSome_scanRankSpecifier_map]
  refine .ite (fun _ => ?_) fun _ => .pure rfl id
  refine (advance_tracks t).bind fun _ u _ => ?_
  refine (countCommas_tracks u).bind fun _ w _ => ?_
  exact (expect_tracks .rBracket w).bind fun _ _ _ => .pure rfl id

theorem type_tracks (hr : r.Tracked c) (s : ParseState) :
    c.Plain (type r) (type r) s c.typeRef := by
  unfold type
  refine .currentStart ?_
  refine (nonArrayType_tracks hr s).bind fun element t _ => ?_
  refine (rankSpecifiers_tracks t).bind fun ranks u _ => ?_
  refine .ite (fun _ => .pure rfl id) fun _ => .spanFrom (.pendingGt ?_)
  refine .ite (fun _ => .pure rfl id) fun _ => ?_
  refine (accept_tracks .question u).bind fun _ w _ => ?_
  exact .ite (fun _ => .spanFrom (.pure rfl id)) fun _ => .pure rfl id

theorem argumentName_tracks (s : ParseState) :
    c.Plain argumentName argumentName s fun name => name := by
  unfold argumentName
  refine .currentKind (.by_kind (fun hk => ?_) fun hNew hk _ => ?_)
  · rw [hk]
    split
    · refine .peekKind ?_
      rw [c.isPunct_map]
      refine .ite (fun _ => ?_) fun _ => .pure rfl id
      refine (advance_tracks s).bind fun _ t _ => ?_
      exact (advance_tracks t).bind fun _ _ _ => .pure rfl id
    · exact .pure rfl id
  · rw [hNew, hk]
    exact .pure rfl id

theorem argumentModifier_tracks (s : ParseState) :
    c.Plain argumentModifier argumentModifier s fun m => m := by
  unfold argumentModifier
  refine .currentKind ?_
  rw [c.argModifier?_token]
  split
  · exact (advance_tracks s).bind fun _ _ _ => .pure rfl id
  · exact .pure rfl id

theorem outVariable_tracks (hr : r.Tracked c) (s : ParseState) :
    c.Plain (outVariable r) (outVariable r) s c.expr := by
  unfold outVariable
  refine (type_tracks hr s).bind fun _ t _ => .currentStart ?_
  exact (expectName_tracks t).bind fun _ _ _ => finishExpr_tracks rfl

theorem argument_tracks (hr : r.Tracked c) (s : ParseState) :
    c.Plain (argument r) (argument r) s c.argument := by
  unfold argument
  refine (argumentName_tracks s).bind fun name t _ => ?_
  refine (argumentModifier_tracks t).bind fun modifier u _ => .remaining ?_
  rw [c.startsOutVariable_map]
  refine .ite (fun _ => ?_) fun _ => ?_
  · exact (outVariable_tracks hr u).bind fun _ _ _ => .pure rfl id
  · exact (hr.expr u).bind fun _ _ _ => .pure rfl id

theorem argumentList_tracks (hr : r.Tracked c) (close : Punct) (s : ParseState) :
    c.Plain (argumentList r close) (argumentList r close) s (List.map c.argument) := by
  unfold argumentList
  exact .check (.ite (fun _ => .pure rfl id) fun _ => commaSeparated_plain (argument_tracks hr) s)

theorem arguments_tracks (hr : r.Tracked c) (s : ParseState) :
    c.Plain (arguments r) (arguments r) s (List.map c.argument) := by
  unfold arguments
  refine (expect_tracks .lParen s).bind fun _ t _ => ?_
  refine (argumentList_tracks hr .rParen t).bind fun _ u _ => ?_
  exact (expect_tracks .rParen u).bind fun _ _ _ => .pure rfl id

theorem initializerElements_tracks (hr : r.Tracked c) (s : ParseState) :
    c.Plain (initializerElements r) (initializerElements r) s (List.map c.expr) := by
  unfold initializerElements
  refine (expect_tracks .lBrace s).bind fun _ t _ => ?_
  refine Plain.bind (f := List.map c.expr) (loop_plain (f := List.map c.expr) rfl
    fun elements u => .check (.atEnd ?_)) fun elements u _ => ?_
  · refine .ite (fun _ => .pure rfl id) fun _ => ?_
    refine (hr.varInitializer u).bind fun x w _ => ?_
    refine (accept_tracks .comma w).bind fun _ _ _ => ?_
    exact .ite (fun _ => .pure (by simp) id) fun _ => .pure (by simp) id
  · exact (expect_tracks .rBrace u).bind fun _ _ _ => .pure rfl id

theorem optionalInitializer_tracks (hr : r.Tracked c) (s : ParseState) :
    c.Plain (optionalInitializer r) (optionalInitializer r) s (Option.map (List.map c.expr)) := by
  unfold optionalInitializer
  refine .check (.ite (fun _ => ?_) fun _ => .pure rfl id)
  exact (initializerElements_tracks hr s).bind fun _ _ _ => .pure rfl id

theorem leaf_tracks {start : Nat} {kind kind' : ExprKind Expr}
    (h : kind' = c.exprKind start kind) :
    c.Plain (leaf start kind) (leaf (c.shift start) kind') s c.expr := by
  unfold leaf
  exact (advance_tracks s).bind fun _ _ _ => finishExpr_tracks h

theorem nameExpr_tracks (hr : r.Tracked c) (start : Nat) (name : String) (s : ParseState) :
    c.Plain (nameExpr r start name) (nameExpr r (c.shift start) name) s c.expr := by
  unfold nameExpr
  refine .remaining ?_
  rw [← List.map_drop, c.startsGenericArgs_map]
  refine (advance_tracks s).bind fun _ t _ => ?_
  refine .optional (fun _ _ => finishExpr_tracks rfl) fun _ rest => ?_
  exact (typeArgs_tracks hr t).bind fun _ u htu => rest u htu

theorem unaryExpr_tracks (hr : r.Tracked c) (start : Nat) (op : UnaryOp) (s : ParseState) :
    c.Plain (unaryExpr r start op) (unaryExpr r (c.shift start) op) s c.expr := by
  unfold unaryExpr
  refine (advance_tracks s).bind fun _ t _ => ?_
  exact (hr.exprAbove _ t).bind fun _ _ _ => finishExpr_tracks rfl

/-- A cast is told from parentheses by what follows them, and the word does not follow a `)`. -/
theorem startsCast_map (fits : c.Fits) {ts : List Token} (hs : ts <:+ c.tokens) :
    Tokens.startsCast (ts.map c.token) = Tokens.startsCast ts := by
  unfold Tokens.startsCast
  rw [c.scanType_map]
  cases hScan : Tokens.scanType ts with
  | none => rfl
  | some rest =>
    dsimp only [Option.map_some]
    rw [c.isPunct_map, c.isPredefined_map, ← List.map_drop]
    cases rest with
    | nil => rfl
    | cons x l =>
      cases hx : x.kind.isPunct .rParen with
      | false => simp [Tokens.kind, hx]
      | true =>
        have hNext : Tokens.kind (l.map c.token) = Tokens.kind l := by
          refine kind_behind fits ((Tokens.scanType_suffix hScan).trans hs) fun hEq => ?_
          rw [hEq] at hx
          cases hx
        rw [List.drop_one, List.tail_cons, hNext]

theorem parenthesized_tracks (hr : r.Tracked c) (s : ParseState) :
    c.Plain (parenthesized r s.current.span.start) (parenthesized r (c.shift s.current.span.start))
      s c.expr := by
  refine .of_fits (fun fits hs => ?_) ((parenthesized_ends hr.orderly s).mono fun _ _ _ => trivial)
  unfold parenthesized
  refine .remaining ?_
  rw [← List.map_drop, startsCast_map fits ((List.drop_suffix 1 s.rest).trans hs)]
  refine .ite (fun _ => ?_) fun _ => ?_
  · refine (advance_tracks s).bind fun _ t _ => ?_
    refine (type_tracks hr t).bind fun _ u _ => ?_
    refine (expect_tracks .rParen u).bind fun _ w _ => ?_
    exact (hr.exprAbove _ w).bind fun _ _ _ => finishExpr_tracks rfl
  · refine (advance_tracks s).bind fun _ t _ => ?_
    refine (hr.expr t).bind fun _ u _ => ?_
    exact (expect_tracks .rParen u).bind fun _ _ _ => finishExpr_tracks rfl

theorem parenthesizedType_tracks (hr : r.Tracked c) (s : ParseState) :
    c.Plain (parenthesizedType r) (parenthesizedType r) s c.typeRef := by
  unfold parenthesizedType
  refine (expect_tracks .lParen s).bind fun _ t _ => ?_
  refine (type_tracks hr t).bind fun _ u _ => ?_
  exact (expect_tracks .rParen u).bind fun _ _ _ => .pure rfl id

theorem defaultExpr_tracks (hr : r.Tracked c) (start : Nat) (s : ParseState) :
    c.Plain (defaultExpr r start) (defaultExpr r (c.shift start)) s c.expr := by
  unfold defaultExpr
  refine (advance_tracks s).bind fun _ t _ => .check (.remaining ?_)
  rw [← List.map_drop, c.isSome_scanType_map]
  refine .ite (fun _ => ?_) fun _ => finishExpr_tracks rfl
  exact (parenthesizedType_tracks hr t).bind fun _ _ _ => finishExpr_tracks rfl

theorem sizedRank_tracks (hr : r.Tracked c) (s : ParseState) :
    c.Plain (sizedRank r) (sizedRank r) s c.rankSpecifier := by
  unfold sizedRank
  refine .currentStart ?_
  refine (expect_tracks .lBracket s).bind fun _ t _ => ?_
  refine Plain.bind (commaSeparated_plain (f := Option.map c.expr) (fun u => ?_) t)
    fun sizes u _ => ?_
  · refine .check (.check ?_)
    refine .ite (fun _ => .pure rfl id) fun _ => ?_
    exact (hr.expr u).bind fun _ _ _ => .pure rfl id
  · refine (expect_tracks .rBracket u).bind fun _ w _ => .spanFrom ?_
    exact .pure (by simp [Respelling.rankSpecifier, Respelling.span]) id

theorem sizedRanks_tracks (hr : r.Tracked c) (s : ParseState) :
    c.Plain (sizedRanks r) (sizedRanks r) s (List.map c.rankSpecifier) := by
  refine loop_plain (f := List.map c.rankSpecifier) rfl fun ranks t => .check ?_
  refine .ite (fun _ => ?_) fun _ => .pure rfl id
  exact (sizedRank_tracks hr t).bind fun _ _ _ => .pure (by simp) id

theorem isSized_map (ranks : List (RankSpecifier Expr)) :
    isSized (ranks.map c.rankSpecifier) = isSized ranks := by
  cases ranks with
  | nil => rfl
  | cons rank ranks => simp [isSized, Function.comp_def]

theorem arrayCreation_tracks (hr : r.Tracked c) {start : Nat} (h : start ≠ c.word)
    (element : TypeRef) (s : ParseState) :
    c.Plain (arrayCreation r start element) (arrayCreation r (c.shift start) (c.typeRef element)) s
      c.expr := by
  unfold arrayCreation
  refine (sizedRanks_tracks hr s).bind fun ranks t _ => ?_
  refine (optionalInitializer_tracks hr t).bind fun initializer u _ => ?_
  rw [Option.isNone_map, isSized_map]
  refine .ite (fun _ => .currentKind (.spanFrom failAt_tracks)) fun _ => finishExpr_tracks ?_
  rcases c.creation_cases start (c.typeRef element) (ranks.map c.rankSpecifier)
    (initializer.map (List.map c.expr)) with ⟨_, _, _, hStart, _⟩ | hKind
  · exact absurd hStart h
  · rw [Respelling.exprKind, c.rankSpecifiers_eq, c.exprs?_eq]
    exact hKind.symm

theorem objectCreation_tracks (hr : r.Tracked c) (start : Nat) (type : TypeRef) (s : ParseState) :
    c.Plain (objectCreation r start type) (objectCreation r (c.shift start) (c.typeRef type)) s
      c.expr := by
  unfold objectCreation
  refine .check ?_
  refine Plain.join (fun _ => arguments_tracks hr s) (fun _ => .pure rfl id) fun args t _ => ?_
  refine (optionalInitializer_tracks hr t).bind fun initializer u _ => ?_
  rw [Option.isNone_map]
  refine .ite (fun _ => failExpected_tracks) fun _ => finishExpr_tracks ?_
  simp [Respelling.exprKind]

theorem implicitArrayCreation_tracks (hr : r.Tracked c) (start : Nat) (s : ParseState) :
    c.Plain (implicitArrayCreation r start) (implicitArrayCreation r (c.shift start)) s c.expr := by
  unfold implicitArrayCreation
  refine (expect_tracks .lBracket s).bind fun _ t _ => ?_
  refine (countCommas_tracks t).bind fun _ u _ => ?_
  refine (expect_tracks .rBracket u).bind fun _ w _ => ?_
  refine (initializerElements_tracks hr w).bind fun _ _ _ => finishExpr_tracks ?_
  simp [Respelling.exprKind]

theorem newExpr_tracks (hr : r.Tracked c) (s : ParseState) :
    c.Plain (newExpr r s.current.span.start) (newExpr r (c.shift s.current.span.start)) s
      c.expr := by
  by_cases hs : s.current.span.start = c.word
  · exact .of_word hs ((newExpr_ends hr.orderly s).mono fun _ _ h => h.moves)
  unfold newExpr
  refine (expectWord_tracks .newKw s).bind fun _ t _ => .check ?_
  refine .ite (fun _ => implicitArrayCreation_tracks hr _ t) fun _ => .check ?_
  refine .ite (fun _ => ?_) fun _ => ?_
  · refine (arguments_tracks hr t).bind fun _ u _ => ?_
    refine (optionalInitializer_tracks hr u).bind fun _ _ _ => finishExpr_tracks ?_
    simp [Respelling.exprKind]
  · refine (nonArrayType_tracks hr t).bind fun type u _ => .check ?_
    exact .ite (fun _ => arrayCreation_tracks hr hs type u) fun _ => objectCreation_tracks hr _ type u

/-- What follows the word in a creation on the stack. -/
def stackAllocTail (r : Rules) (start : Nat) : Parse Expr := do
  let element ← if ← check .lBracket then pure none else some <$> nonArrayType r
  expect .lBracket
  let size ← if ← check .rBracket then pure none else some <$> r.expr
  expect .rBracket
  let initializer ← optionalInitializer r
  finishExpr start (.stackAlloc element size initializer)

theorem stackAllocTail_tracks (hr : r.Tracked c) (start : Nat) (s : ParseState) :
    c.Plain (stackAllocTail r start) (stackAllocTail r (c.shift start)) s c.expr := by
  unfold stackAllocTail
  refine .check ?_
  refine Plain.join (f := Option.map c.typeRef) (fun _ => .pure rfl id)
    (fun _ => (nonArrayType_tracks hr s).map (fun _ => rfl) fun _ => id) fun element t _ => ?_
  refine (expect_tracks .lBracket t).bind fun _ u _ => .check ?_
  refine Plain.join (f := Option.map c.expr) (fun _ => .pure rfl id)
    (fun _ => (hr.expr u).map (fun _ => rfl) fun _ => id) fun size w _ => ?_
  refine (expect_tracks .rBracket w).bind fun _ x _ => ?_
  refine (optionalInitializer_tracks hr x).bind fun _ _ _ => finishExpr_tracks ?_
  simp [Respelling.exprKind]

theorem stackAlloc_tracks (hr : r.Tracked c) (start : Nat) (s : ParseState) :
    c.Plain (stackAlloc r start) (stackAlloc r (c.shift start)) s c.expr :=
  (expectWord_tracks .stackallocKw s).bind fun _ t _ => stackAllocTail_tracks hr start t

theorem keywordExpr_tracks (hr : r.Tracked c) (w : Keyword) (s : ParseState) :
    c.Plain (keywordExpr r s.current.span.start w) (keywordExpr r (c.shift s.current.span.start) w) s
      c.expr := by
  have typed : ∀ {kind kind' : TypeRef → ExprKind Expr},
      (∀ x, kind' (c.typeRef x) = c.exprKind s.current.span.start (kind x)) →
      c.Plain (do
          let _ ← advance
          let t ← parenthesizedType r
          finishExpr s.current.span.start (kind t))
        (do
          let _ ← advance
          let t ← parenthesizedType r
          finishExpr (c.shift s.current.span.start) (kind' t)) s c.expr := by
    intro kind kind' h
    refine (advance_tracks s).bind fun _ t _ => ?_
    exact (parenthesizedType_tracks hr t).bind fun x _ _ => finishExpr_tracks (h x)
  unfold keywordExpr
  split
  · exact leaf_tracks rfl
  · split
    · exact leaf_tracks rfl
    · exact leaf_tracks rfl
    · exact leaf_tracks rfl
    · exact newExpr_tracks hr s
    · exact stackAlloc_tracks hr _ s
    · exact typed fun _ => rfl
    · exact typed fun _ => rfl
    · exact defaultExpr_tracks hr _ s
    · exact failExpected_tracks

theorem operand_tracks (hr : r.Tracked c) (s : ParseState) :
    c.Plain (operand r) (operand r) s c.expr := by
  have ends := operand_ends hr.orderly s
  refine .of_fits (fun fits hs => ?_) (ends.mono fun _ _ _ => trivial)
  refine .by_kind (fun hk => ?_) fun _ _ hw => .of_word hw (ends.mono fun _ _ h => h.moves)
  unfold operand
  refine .currentStart (.currentKind ?_)
  rw [hk]
  split
  next => exact leaf_tracks rfl
  next => exact leaf_tracks rfl
  next => exact leaf_tracks rfl
  next => exact leaf_tracks rfl
  next => exact leaf_tracks rfl
  next name hName =>
    refine .peekKind ?_
    have hNext : Tokens.kind ((s.rest.drop 1).map c.token) = Tokens.kind (s.rest.drop 1) := by
      rw [← kind_rest] at hName
      cases hRest : s.rest with
      | nil => rfl
      | cons x l =>
        rw [hRest] at hs hName
        refine kind_behind fits hs fun hEq => ?_
        rw [Tokens.kind, hEq] at hName
        cases hName
    rw [hNext]
    exact .ite (fun _ => unaryExpr_tracks hr _ .await s) fun _ => nameExpr_tracks hr _ name s
  next => exact keywordExpr_tracks hr _ s
  next => exact parenthesized_tracks hr s
  next =>
    split
    · exact unaryExpr_tracks hr _ _ s
    · exact failExpected_tracks
  next => exact failExpected_tracks

theorem memberAccess_tracks (hr : r.Tracked c) (start : Nat) (object : Expr) (s : ParseState) :
    c.Plain (memberAccess r start object) (memberAccess r (c.shift start) (c.expr object)) s
      c.expr := by
  unfold memberAccess
  refine .check ((advance_tracks s).bind fun _ t _ => .remaining ?_)
  rw [← List.map_drop, c.startsGenericArgs_map]
  refine (expectName_tracks t).bind fun name u _ => ?_
  refine .optional (fun _ _ => finishExpr_tracks rfl) fun _ rest => ?_
  exact (typeArgs_tracks hr u).bind fun _ w huw => rest w huw

theorem postfixExpr_tracks (hr : r.Tracked c) (start : Nat) (lhs : Expr) (s : ParseState) :
    c.Plain (postfixExpr r start lhs) (postfixExpr r (c.shift start) (c.expr lhs)) s c.expr := by
  unfold postfixExpr
  refine .currentKind (.by_kind (fun hk => ?_) fun hNew hk _ => ?_)
  · rw [hk]
    split
    · refine (arguments_tracks hr s).bind fun _ _ _ => finishExpr_tracks ?_
      simp [Respelling.exprKind]
    · refine (advance_tracks s).bind fun _ t _ => ?_
      refine (argumentList_tracks hr .rBracket t).bind fun _ u _ => ?_
      refine (expect_tracks .rBracket u).bind fun _ _ _ => finishExpr_tracks ?_
      simp [Respelling.exprKind]
    · exact leaf_tracks rfl
    · exact leaf_tracks rfl
    · exact memberAccess_tracks hr start lhs s
  · rw [hNew, hk]
    exact memberAccess_tracks hr start lhs s

theorem nullTest_tracks (start : Nat) (lhs : Expr) (negated : Bool) (s : ParseState) :
    c.Plain (nullTest start lhs negated) (nullTest (c.shift start) (c.expr lhs) negated) s
      c.expr := by
  unfold nullTest
  refine .currentStart ?_
  refine Plain.bind (leaf_tracks rfl) fun _ _ _ => finishExpr_tracks ?_
  rfl

theorem designation_tracks (s : ParseState) :
    c.Plain designation designation s fun name => name := by
  unfold designation
  refine .currentKind (.by_kind (fun hk => ?_) fun hNew hk _ => ?_)
  · rw [hk]
    split
    · exact (advance_tracks s).bind fun _ _ _ => .pure rfl id
    · exact .pure rfl id
  · rw [hNew, hk]
    exact .pure rfl id

theorem typeTest_tracks (hr : r.Tracked c) (start : Nat) (lhs : Expr) (s : ParseState) :
    c.Plain (typeTest r start lhs) (typeTest r (c.shift start) (c.expr lhs)) s c.expr := by
  unfold typeTest
  refine (acceptWord_tracks (by decide) (by decide) s).bind fun b t _ => ?_
  refine .ite (fun _ => ?_) fun _ => ?_
  · exact (type_tracks hr t).bind fun _ _ _ => finishExpr_tracks rfl
  · refine (expectWord_tracks .isKw t).bind fun _ u _ => .currentKind (.peekKind ?_)
    rw [c.isName_token, c.isKeyword_map _ (by decide) (by decide)]
    refine .optional (fun w _ => .checkWord ?_) fun _ rest => ?_
    · rw [c.isKeyword_token _ (by decide) (by decide)]
      refine .ite (fun _ => nullTest_tracks start lhs _ w) fun _ => ?_
      refine (type_tracks hr w).bind fun _ x _ => ?_
      exact (designation_tracks x).bind fun _ _ _ => finishExpr_tracks rfl
    · exact (advance_tracks u).bind fun _ w huw => rest w huw

theorem conditionalExpr_tracks (hr : r.Tracked c) (start : Nat) (cond : Expr) (s : ParseState) :
    c.Plain (conditionalExpr r start cond) (conditionalExpr r (c.shift start) (c.expr cond)) s
      c.expr := by
  unfold conditionalExpr
  refine (advance_tracks s).bind fun _ t _ => ?_
  refine (hr.expr t).bind fun _ u _ => ?_
  refine (expect_tracks .colon u).bind fun _ w _ => ?_
  exact (hr.exprAbove _ w).bind fun _ _ _ => finishExpr_tracks rfl

theorem extend_tracks (hr : r.Tracked c) (start least : Nat) (lhs : Expr) (s : ParseState) :
    c.Plain (extend r start least lhs) (extend r (c.shift start) least (c.expr lhs)) s
      (Sum.map c.expr c.expr) := by
  unfold extend
  refine .currentKind ?_
  rw [c.isPostfix_token, c.isKeyword_token _ (by decide) (by decide),
    c.isKeyword_token _ (by decide) (by decide), c.isPunct_token, c.binary?_token]
  refine .ite (fun _ => ?_) fun _ => .ite (fun _ => ?_) fun _ => .ite (fun _ => ?_) fun _ => ?_
  · refine .ite (fun _ => .pure rfl id) fun _ => ?_
    exact (postfixExpr_tracks hr start lhs s).bind fun _ _ _ => .pure rfl id
  · refine .ite (fun _ => .pure rfl id) fun _ => ?_
    exact (typeTest_tracks hr start lhs s).bind fun _ _ _ => .pure rfl id
  · refine .ite (fun _ => .pure rfl id) fun _ => ?_
    exact (conditionalExpr_tracks hr start lhs s).bind fun _ _ _ => .pure rfl id
  · split
    · refine .ite (fun _ => .pure rfl id) fun _ => ?_
      refine (advance_tracks s).bind fun _ t _ => ?_
      refine (hr.exprAbove _ t).bind fun _ u _ => ?_
      exact Plain.bind (finishExpr_tracks rfl) fun _ _ _ => .pure rfl id
    · exact .pure rfl id

theorem exprAbove_tracks (hr : r.Tracked c) (least : Nat) (s : ParseState) :
    c.Plain (exprAbove r least) (exprAbove r least) s c.expr := by
  unfold exprAbove
  refine .currentStart ((operand_tracks hr s).bind fun lhs t _ => ?_)
  exact loop_plain (f := c.expr) rfl fun x u => extend_tracks hr _ least x u

theorem expr_tracks (hr : r.Tracked c) (s : ParseState) :
    c.Plain (expr r) (expr r) s c.expr := by
  unfold expr
  refine .currentStart ((exprAbove_tracks hr 0 s).bind fun target t _ => .currentKind ?_)
  rw [c.assign?_token]
  split
  · refine (advance_tracks t).bind fun _ u _ => ?_
    exact (hr.expr u).bind fun _ _ _ => finishExpr_tracks rfl
  · exact .pure rfl id

theorem varInitializer_tracks (hr : r.Tracked c) (s : ParseState) :
    c.Plain (varInitializer r) (varInitializer r) s c.expr := by
  unfold varInitializer
  refine .check (.ite (fun _ => .currentStart ?_) fun _ => expr_tracks hr s)
  refine (initializerElements_tracks hr s).bind fun _ _ _ => finishExpr_tracks ?_
  simp [Respelling.exprKind]

end RespelledText

end Stackable
