import Stackable.Proofs.Parser.Recovery

/-!
# The moves of the grammar

Every rule of the grammar makes the moves of `Reaches` and no others. A rule without a body of its
own is found to by following its parts; the bodies go by their rounds.
-/

set_option autoImplicit false

-- A long rule has many parts.
set_option synthInstance.maxSize 4000

namespace Stackable

/-- The rules make no moves but those of `Reaches`. -/
class Rules.Steady (r : Rules) : Prop where
  type : Parse.Steady r.type
  expr : Parse.Steady r.expr
  exprAbove (least : Nat) : Parse.Steady (r.exprAbove least)
  varInitializer : Parse.Steady r.varInitializer
  stmt : Parse.Steady r.stmt
  member (typeName : String) : Parse.Steady (r.member typeName)
  decl : Parse.Steady r.decl

attribute [instance] Rules.Steady.type Rules.Steady.expr Rules.Steady.exprAbove
  Rules.Steady.varInitializer Rules.Steady.stmt Rules.Steady.member Rules.Steady.decl

namespace Parse

open ParseState

variable {r : Rules} [r.Steady] {start : Nat}

instance typeArgs_steady : Steady (typeArgs r) := by
  unfold typeArgs
  infer_instance

instance namedType_steady : Steady (namedType r) := by
  apply Steady.andThen
  intro first
  apply Steady.andThen
  intro b
  apply Steady.join
  intro first
  apply Steady.rounds
  rintro ⟨path, args⟩
  infer_instance

instance typeMarks_steady {type : TypeRef} : Steady (typeMarks start type) := by
  unfold typeMarks
  infer_instance

instance nonArrayType_steady : Steady (nonArrayType r) := by
  apply Steady.andThen
  intro start
  apply Steady.andThen
  intro k
  split <;> infer_instance

instance rankSpecifiers_steady : Steady rankSpecifiers := by
  unfold rankSpecifiers
  infer_instance

instance type_steady : Steady (type r) := by
  unfold type
  infer_instance

instance argumentName_steady : Steady argumentName := by
  apply Steady.andThen
  intro k
  split <;> infer_instance

instance argumentModifier_steady : Steady argumentModifier := by
  apply Steady.andThen
  intro k
  split <;> infer_instance

instance outVariable_steady : Steady (outVariable r) := by
  unfold outVariable
  infer_instance

instance argument_steady : Steady (argument r) := by
  unfold argument
  infer_instance

instance argumentList_steady {close : Punct} : Steady (argumentList r close) := by
  unfold argumentList
  infer_instance

instance arguments_steady : Steady (arguments r) := by
  unfold arguments
  infer_instance

instance initializerElements_steady : Steady (initializerElements r) := by
  unfold initializerElements
  infer_instance

instance optionalInitializer_steady : Steady (optionalInitializer r) := by
  unfold optionalInitializer
  infer_instance

instance leaf_steady {kind : ExprKind Expr} : Steady (leaf start kind) := by
  unfold leaf
  infer_instance

instance nameExpr_steady {name : String} : Steady (nameExpr r start name) := by
  unfold nameExpr
  infer_instance

instance unaryExpr_steady {op : UnaryOp} : Steady (unaryExpr r start op) := by
  unfold unaryExpr
  infer_instance

instance parenthesized_steady : Steady (parenthesized r start) := by
  unfold parenthesized
  infer_instance

instance parenthesizedType_steady : Steady (parenthesizedType r) := by
  unfold parenthesizedType
  infer_instance

instance defaultExpr_steady : Steady (defaultExpr r start) := by
  unfold defaultExpr
  infer_instance

instance sizedRank_steady : Steady (sizedRank r) := by
  unfold sizedRank
  infer_instance

instance sizedRanks_steady : Steady (sizedRanks r) := by
  unfold sizedRanks
  infer_instance

instance arrayCreation_steady {element : TypeRef} : Steady (arrayCreation r start element) := by
  unfold arrayCreation
  infer_instance

instance objectCreation_steady {t : TypeRef} : Steady (objectCreation r start t) := by
  unfold objectCreation
  infer_instance

instance implicitArrayCreation_steady : Steady (implicitArrayCreation r start) := by
  unfold implicitArrayCreation
  infer_instance

instance newExpr_steady : Steady (newExpr r start) := by
  unfold newExpr
  infer_instance

instance stackAlloc_steady : Steady (stackAlloc r start) := by
  unfold stackAlloc
  infer_instance

instance keywordExpr_steady {w : Keyword} : Steady (keywordExpr r start w) := by
  unfold keywordExpr
  split
  · infer_instance
  · split <;> infer_instance

instance operand_steady : Steady (operand r) := by
  apply Steady.andThen
  intro start
  apply Steady.andThen
  intro k
  split <;> try infer_instance
  split <;> infer_instance

instance memberAccess_steady {object : Expr} : Steady (memberAccess r start object) := by
  unfold memberAccess
  infer_instance

instance postfixExpr_steady {lhs : Expr} : Steady (postfixExpr r start lhs) := by
  apply Steady.andThen
  intro k
  split <;> infer_instance

instance nullTest_steady {lhs : Expr} {negated : Bool} : Steady (nullTest start lhs negated) := by
  unfold nullTest
  infer_instance

instance designation_steady : Steady designation := by
  apply Steady.andThen
  intro k
  split <;> infer_instance

instance typeTest_steady {lhs : Expr} : Steady (typeTest r start lhs) := by
  unfold typeTest
  infer_instance

instance conditionalExpr_steady {cond : Expr} : Steady (conditionalExpr r start cond) := by
  unfold conditionalExpr
  infer_instance

instance extend_steady {least : Nat} {lhs : Expr} : Steady (extend r start least lhs) := by
  have operator : ∀ k : TokenKind, Steady (match k.binary? with
      | some (op, left, right) =>
        if left < least then pure (.inr lhs)
        else do
          let _ ← advance
          let rhs ← r.exprAbove right
          return .inl (← finishExpr start (.binary op lhs rhs))
      | none => pure (.inr lhs) : Parse (Expr ⊕ Expr)) := by
    intro k
    split <;> infer_instance
  unfold extend
  infer_instance

instance exprAbove_steady {least : Nat} : Steady (exprAbove r least) := by
  unfold exprAbove
  infer_instance

instance expr_steady : Steady (expr r) := by
  apply Steady.andThen
  intro start
  apply Steady.andThen
  intro target
  apply Steady.andThen
  intro k
  split <;> infer_instance

instance varInitializer_steady : Steady (varInitializer r) := by
  unfold varInitializer
  infer_instance

instance optionalVarInitializer_steady : Steady (optionalVarInitializer r) := by
  unfold optionalVarInitializer
  infer_instance

instance declaratorTail_steady {name : String} {nameSpan : Span} :
    Steady (declaratorTail r name nameSpan) := by
  unfold declaratorTail
  infer_instance

instance declarator_steady : Steady (declarator r) := by
  unfold declarator
  infer_instance

instance localDecl_steady {isConst : Bool} : Steady (localDecl r isConst) := by
  unfold localDecl
  infer_instance

theorem blockStep_round (body : List Stmt) : Round (blockStep r body) := by
  apply Round.andThen
  intro closed
  apply Round.andThen
  intro ended
  apply Round.ite
  · exact Steady.round .pure
  · apply Round.andThen
    intro before
    apply Round.andThen
    rintro (e | s)
    · apply Round.recordError
      intro s a t hRun
      obtain ⟨_, _, _, hRun⟩ := bind_eq_ok.mp hRun
      cases hRun
    · exact Steady.round .pure

instance block_steady : Steady (block r) := by
  apply Steady.opening
  · intro s t
    exact opens_of_expect
  · apply Inside.bind
    · exact Inside.loop blockStep_round []
    · infer_instance

instance condition_steady : Steady (condition r) := by
  unfold condition
  infer_instance

instance ifStmt_steady : Steady (ifStmt r) := by
  unfold ifStmt
  infer_instance

instance declOrExpr_steady : Steady (declOrExpr r) := by
  unfold declOrExpr
  infer_instance

instance forInit_steady : Steady (forInit r) := by
  unfold forInit
  infer_instance

instance forStmt_steady : Steady (forStmt r) := by
  apply Steady.andThen
  intro _
  apply Steady.andThen
  intro _
  apply Steady.andThen
  intro init
  apply Steady.andThen
  intro _
  apply Steady.andThen
  intro b
  apply Steady.join
  intro cond
  infer_instance

instance forEachStmt_steady : Steady (forEachStmt r) := by
  unfold forEachStmt
  infer_instance

instance caught_steady : Steady (caught r) := by
  unfold caught
  infer_instance

instance catchFilter_steady : Steady (catchFilter r) := by
  unfold catchFilter
  infer_instance

instance catchClause_steady : Steady (catchClause r) := by
  unfold catchClause
  infer_instance

instance catchClauses_steady : Steady (catchClauses r) := by
  unfold catchClauses
  infer_instance

instance tryStmt_steady : Steady (tryStmt r) := by
  unfold tryStmt
  infer_instance

instance caseLabels_steady : Steady (caseLabels r) := by
  unfold caseLabels
  infer_instance

instance switchBody_steady : Steady (switchBody r) := by
  unfold switchBody
  infer_instance

instance switchSection_steady : Steady (switchSection r) := by
  unfold switchSection
  infer_instance

instance switchStmt_steady : Steady (switchStmt r) := by
  unfold switchStmt
  infer_instance

instance usingStmt_steady : Steady (usingStmt r) := by
  unfold usingStmt
  infer_instance

instance fixedStmt_steady : Steady (fixedStmt r) := by
  unfold fixedStmt
  infer_instance

instance lockStmt_steady : Steady (lockStmt r) := by
  unfold lockStmt
  infer_instance

instance localStmt_steady {isConst : Bool} : Steady (localStmt r isConst) := by
  unfold localStmt
  infer_instance

instance optionalValue_steady : Steady (optionalValue r) := by
  unfold optionalValue
  infer_instance

instance plainStmt_steady : Steady (plainStmt r) := by
  unfold plainStmt
  infer_instance

instance contextualStmt_steady {name : String} : Steady (contextualStmt r name) := by
  unfold contextualStmt
  infer_instance

instance keywordStmt_steady {w : Keyword} : Steady (keywordStmt r w) := by
  unfold keywordStmt
  split <;> infer_instance

instance stmt_steady : Steady (stmt r) := by
  apply Steady.andThen
  intro start
  apply Steady.andThen
  intro k
  split <;> infer_instance

instance modifiers_steady : Steady modifiers := by
  apply Steady.rounds
  intro list
  apply Steady.andThen
  intro k
  apply Steady.andThen
  intro next
  cases modifierAt k next with
  | none => exact .pure
  | some m => exact .bind

instance typeParams_steady : Steady typeParams := by
  unfold typeParams
  infer_instance

instance optionalTypeParams_steady : Steady optionalTypeParams := by
  unfold optionalTypeParams
  infer_instance

instance skipConstraints_steady : Steady skipConstraints := by
  unfold skipConstraints
  infer_instance

instance param_steady : Steady (param r) := by
  unfold param
  infer_instance

instance params_steady : Steady (params r) := by
  unfold params
  infer_instance

instance fnBody_steady : Steady (fnBody r) := by
  apply Steady.andThen
  intro k
  split <;> infer_instance

instance method_steady {mods : List Modifier} {returnType : TypeRef} {name : String}
    {nameSpan : Span} : Steady (method r mods returnType name nameSpan) := by
  unfold method
  infer_instance

instance constructorChain_steady : Steady (constructorChain r) := by
  unfold constructorChain
  infer_instance

instance constructor_steady {mods : List Modifier} : Steady (Parse.constructor r mods) := by
  unfold Parse.constructor
  infer_instance

instance accessor_steady : Steady (accessor r) := by
  apply Steady.andThen
  intro _
  apply Steady.andThen
  intro start
  apply Steady.andThen
  intro mods
  apply Steady.andThen
  intro k
  split <;> infer_instance

instance accessors_steady : Steady (accessors r) := by
  unfold accessors
  infer_instance

instance propertyInitializer_steady : Steady (propertyInitializer r) := by
  apply Steady.andThen
  intro init
  split <;> infer_instance

instance property_steady {mods : List Modifier} {t : TypeRef} {name : String} {nameSpan : Span} :
    Steady (property r mods t name nameSpan) := by
  unfold property
  infer_instance

instance fieldDeclarators_steady {name : String} {nameSpan : Span} :
    Steady (fieldDeclarators r name nameSpan) := by
  unfold fieldDeclarators
  infer_instance

instance memberName_steady : Steady memberName := by
  unfold memberName
  infer_instance

instance typedMember_steady {mods : List Modifier} : Steady (typedMember r mods) := by
  have rest : ∀ (t : TypeRef) (name : String) (nameSpan : Span) (k : TokenKind),
      Steady (match k with
        | .punct .lParen | .punct .lt => return .method (← method r mods t name nameSpan)
        | .punct .lBrace | .punct .fatArrow => return .property (← property r mods t name nameSpan)
        | .punct .eq | .punct .semi | .punct .comma =>
          return .field ⟨mods, t, ← fieldDeclarators r name nameSpan⟩
        | _ => failExpected .memberDeclaration : Parse (MemberKind Member)) := by
    intro t name nameSpan k
    split <;> infer_instance
  unfold typedMember
  infer_instance

instance enumMember_steady : Steady (enumMember r) := by
  unfold enumMember
  infer_instance

instance enumMembers_steady : Steady (enumMembers r) := by
  unfold enumMembers
  infer_instance

theorem membersStep_round {name : String} (list : List Member) :
    Round (membersStep r name list) := by
  apply Round.andThen
  intro closed
  apply Round.andThen
  intro ended
  apply Round.ite
  · exact Steady.round .pure
  · apply Round.andThen
    intro semi
    apply Round.ite
    · exact Steady.round .pure
    · apply Round.andThen
      intro before
      apply Round.andThen
      rintro (e | m)
      · apply Round.recordError
        intro s a t hRun
        obtain ⟨_, _, _, hRun⟩ := bind_eq_ok.mp hRun
        cases hRun
      · exact Steady.round .pure

theorem members_inside {name : String} : Inside (members r name) :=
  Inside.loop membersStep_round []

instance bases_steady : Steady (bases r) := by
  unfold bases
  infer_instance

instance skipRecordKind_steady : Steady skipRecordKind := by
  unfold skipRecordKind
  infer_instance

instance typeDecl_steady {mods : List Modifier} : Steady (typeDecl r mods) := by
  apply Steady.andThen
  intro k
  split
  · infer_instance
  · apply Steady.andThen
    intro _
    apply Steady.optional
    · apply Steady.andThen
      intro nameToken
      apply Steady.andThen
      intro name
      apply Steady.andThen
      intro typeParams
      apply Steady.andThen
      intro b
      apply Steady.optional
      · apply Steady.andThen
        intro baseTypes
        apply Steady.andThen
        intro _
        apply Steady.andThen
        intro b
        split
        · infer_instance
        · apply Steady.opening
          · intro s t
            exact opens_of_expect
          · apply Inside.ite
            · apply Inside.bind (Steady.inside inferInstance)
              infer_instance
            · apply Inside.bind members_inside
              infer_instance
      · intro rest
        infer_instance
    · intro rest
      infer_instance

instance member_steady {name : String} : Steady (member r name) := by
  unfold member
  infer_instance

theorem namespaceStep_round {d : Parse Decl} [Steady d] {topLevel : Bool} (list : List Decl) :
    Round (namespaceStep d topLevel list) := by
  apply Round.andThen
  intro ended
  apply Round.andThen
  intro closed
  apply Round.ite
  · exact Steady.round .pure
  · apply Round.andThen
    intro before
    apply Round.andThen
    rintro (e | d)
    · apply Round.recordError
      intro s a t hRun
      cases hRun
    · exact Steady.round .pure

theorem namespaceBody_inside {d : Parse Decl} [Steady d] {topLevel : Bool} :
    Inside (namespaceBody d topLevel) :=
  Inside.loop namespaceStep_round []

instance usingAlias_steady : Steady usingAlias := by
  unfold usingAlias
  infer_instance

instance usingDirective_steady : Steady (usingDirective r) := by
  unfold usingDirective
  infer_instance

instance namespaceName_steady : Steady namespaceName := by
  unfold namespaceName
  infer_instance

instance namespaceDecl_steady : Steady (namespaceDecl r) := by
  apply Steady.opening
  · intro s t
    exact opens_of_expectWord
  · apply Inside.andThen
    intro name
    apply Inside.andThen
    intro fileScoped
    apply Inside.ite
    · apply Inside.bind namespaceBody_inside
      infer_instance
    · apply Inside.andThen
      intro _
      apply Inside.bind namespaceBody_inside
      infer_instance

instance topTypeDecl_steady : Steady (topTypeDecl r) := by
  unfold topTypeDecl
  infer_instance

instance decl_steady : Steady (decl r) := by
  apply Steady.andThen
  intro _
  apply Steady.andThen
  intro start
  apply Steady.andThen
  intro k
  split <;> infer_instance

end Parse

/-! ## The grammar as a whole -/

namespace Rules

instance exhausted_steady : exhausted.Steady := by
  constructor <;> intros <;> unfold exhausted <;> infer_instance

instance step_steady (r : Rules) [r.Steady] : r.step.Steady := by
  constructor <;> intros <;> unfold step <;> infer_instance

instance depth_steady (n : Nat) : (depth n).Steady := by
  induction n with
  | zero => exact exhausted_steady
  | succ n ih => exact step_steady (depth n)

end Rules

end Stackable
