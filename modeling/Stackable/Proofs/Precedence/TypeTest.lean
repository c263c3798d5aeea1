import Stackable.Proofs.Parser.Angles
import Stackable.Proofs.Parser.Decl
import Stackable.Proofs.Precedence.Reading
import Stackable.Proofs.Types.Commitment

/-!
# The type of a type test

Behind `is T` a `?` could make the type nullable or begin a conditional. The rule for types takes
every `?` that comes next, so it is always the former: what stands behind the `?` is read as if
`is T?` had been written.
-/

set_option autoImplicit false

namespace Stackable

def TokenKind.isLiteral : TokenKind → Bool
  | .int _ _ | .real _ _ | .string _ | .char _ | .bool _ | .keyword .nullKw => true
  | _ => false

namespace Parse

open ParseState Tokens
open Phrase (Spelled)

variable {α β : Type} {r : Rules} {s t u : ParseState}

theorem iterate_mono {body : α → Parse (α ⊕ β)} {n m : Nat} {a : α} {b : β} (hnm : n ≤ m)
    (h : iterate body n a s = .ok b t) : iterate body m a s = .ok b t := by
  induction n generalizing m a s with
  | zero => cases h
  | succ n ih =>
    obtain ⟨m, rfl⟩ : ∃ k, m = k + 1 := Nat.exists_eq_add_one.mpr (by omega)
    rcases iterate_succ_eq_ok.mp h with ⟨next, v, hBody, hNext⟩ | hBody
    · exact iterate_succ_eq_ok.mpr (.inl ⟨next, v, hBody, ih (by omega) hNext⟩)
    · exact iterate_succ_eq_ok.mpr (.inr hBody)

theorem loop_of_next {body : α → Parse (α ⊕ β)} {a next : α} {b : β}
    (hBody : body a s = .ok (.inl next) t) (hShorter : t.rest.length < s.rest.length)
    (h : loop body next t = .ok b u) : loop body a s = .ok b u :=
  iterate_succ_eq_ok.mpr (.inl ⟨next, t, hBody, iterate_mono hShorter h⟩)

theorem loop_of_last {body : α → Parse (α ⊕ β)} {a : α} {b : β}
    (hBody : body a s = .ok (.inr b) t) : loop body a s = .ok b t :=
  iterate_succ_eq_ok.mpr (.inr hBody)

variable {read more : List Token} {x : TypeRef} {n : Nat} {question : Token}

/-- A keyword or a name with a `?` behind it is read as nullable, whatever follows. -/
theorem exists_nullable (hx : Spelled (.simple x) (halves read)) (clear : s.pendingGt = false)
    (hRest : s.rest = read ++ question :: more) (hQuestion : question.kind = .punct .question)
    (hn : s.rest.length ≤ n) (hMore : ∀ p ∈ .gt :: .gtGt :: typePuncts, (kind more).isPunct p = false) :
    ∃ y t, Parse.type (Rules.depth n) s = .ok y t ∧ t.rest = more ∧ t.pendingGt = false ∧
      y.bare = TypeRef.bare ⟨.nullable x, ⟨0, 0⟩⟩ := by
  have hSpelled : Spelled (.type ⟨.nullable x, ⟨0, 0⟩⟩) (halves (read ++ [question])) := by
    rw [halves_append, halves_cons, hQuestion]
    exact .plain (.element hx (.nullable _ (.unmarked _)))
  have hSplit : s.rest = (read ++ [question]) ++ more := by rw [hRest, List.append_assoc]; rfl
  have hNesting : nesting (halves (read ++ [question])) ≤ n := by
    refine Nat.le_trans (nesting_halves_le _) (Nat.le_trans ?_ hn)
    rw [hSplit]
    exact (List.prefix_append _ more).length_le
  have hStops : Stops typePuncts (halves more) := by
    refine stops_of_kind (hMore .gtGt (by decide)) fun p hp => hMore p ?_
    exact List.mem_cons_of_mem _ (List.mem_cons_of_mem _ hp)
  have hAhead : s.ahead = halves (read ++ [question]) ++ halves more := by
    rw [ahead_of_clear clear, hSplit, halves_append]
  obtain ⟨y, t, hRun, hts, ht, hBare⟩ := type_consumes hSpelled hNesting hStops s hAhead
  obtain ⟨hMoreRest, hClear⟩ := rest_of_ahead hts (hSplit ▸ List.suffix_append _ more) ht
    (hMore .gt (by decide)) (hMore .gtGt (by decide))
  exact ⟨y, t, hRun, hMoreRest, hClear, hBare⟩

/-- Behind the first part of a name there is nothing or a mark. -/
theorem tail_eq_nil_or_punct {start path : List String} {args : List TypeRef} {w : List TokenKind}
    (h : Spelled (.tail start path args) w) : w = [] ∨ ∃ p v, w = .punct p :: v ∧ p ≠ .gt := by
  cases h with
  | ends list =>
    cases list with
    | noList => exact .inl rfl
    | list args => exact .inr ⟨.lt, _, rfl, by decide⟩
  | member list rest =>
    cases list with
    | noList => exact .inr ⟨.dot, _, rfl, by decide⟩
    | list args => exact .inr ⟨.lt, _, rfl, by decide⟩

/-- What is tested for is a type, neither `null` nor `not null`. -/
theorem not_nullTest (hx : Spelled (.simple x) (halves read))
    (hRest : s.rest = read ++ question :: more) (hQuestion : question.kind = .punct .question) :
    (s.current.kind.isName "not" && (kind (s.rest.drop 1)).isKeyword .nullKw) = false ∧
      s.current.kind.isKeyword .nullKw = false := by
  generalize hw : halves read = w at hx
  have named : ∀ {name : String} {v : List TokenKind}, halves read = .ident name :: v →
      (v = [] ∨ ∃ p v', v = .punct p :: v' ∧ p ≠ .gt) →
      (s.current.kind.isName "not" && (kind (s.rest.drop 1)).isKeyword .nullKw) = false ∧
        s.current.kind.isKeyword .nullKw = false := by
    intro name v hRead hv
    obtain ⟨z, behind, rfl, hz, hBehind⟩ := exists_cons_of_halves hRead (by rintro ⟨⟩)
    have hNext : (kind (behind ++ question :: more)).isKeyword .nullKw = false := by
      rcases hv with rfl | ⟨p, v', rfl, hp⟩
      · rw [halves_eq_nil hBehind, List.nil_append, kind, hQuestion]
        rfl
      · obtain ⟨z', _, rfl, hz', _⟩ :=
          exists_cons_of_halves hBehind fun h => hp (TokenKind.punct.inj h)
        rw [List.cons_append, kind, hz']
        rfl
    rw [← kind_rest, hRest, List.cons_append, List.drop_succ_cons, List.drop_zero, hNext,
      Bool.and_false, kind, hz]
    exact ⟨rfl, rfl⟩
  cases hx with
  | predefined p =>
    obtain ⟨z, behind, rfl, hz, _⟩ := exists_cons_of_halves hw (by rintro ⟨⟩)
    rw [← kind_rest, hRest, List.cons_append, kind, hz]
    exact ⟨rfl, by cases p <;> rfl⟩
  | named _ tail => exact named hw (tail_eq_nil_or_punct tail)
  | qualified _ tail => exact named hw (.inr ⟨.colonColon, _, rfl, by decide⟩)

variable {c : Expr} {test : Token} (start : Nat)

/-- Up to the name that a test may bind. -/
theorem exists_typeTest (hx : Spelled (.simple x) (halves read)) (clear : s.pendingGt = false)
    (hRest : s.rest = test :: (read ++ question :: more)) (hTest : test.kind = .keyword .isKw)
    (hQuestion : question.kind = .punct .question) (hn : s.rest.length ≤ n)
    (hMore : ∀ p ∈ .gt :: .gtGt :: typePuncts, (kind more).isPunct p = false) :
    ∃ (y : TypeRef) (t : ParseState), typeTest (Rules.depth n) start c s =
        (designation >>= fun name => finishExpr start (.isType c y name)) t ∧
      t.rest = more ∧ t.pendingGt = false ∧ y.bare = TypeRef.bare ⟨.nullable x, ⟨0, 0⟩⟩ := by
  have hCurrent : s.current.kind = .keyword .isKw := by rw [current_of_cons hRest, hTest]
  have hAs : acceptWord .asKw s = .ok false s := by
    change (if s.current.kind.isKeyword .asKw = true then _ else _ : Parse Bool) s = _
    rw [hCurrent]
    rfl
  have hAdvance := advance_of_cons hRest (by rw [hTest]; rfl)
  have hIs := expectWord_eq_ok (w := .isKw) (by rw [hCurrent]; rfl) hAdvance
  rw [hRest, List.length_cons] at hn
  obtain ⟨hNot, hNull⟩ := not_nullTest (s := { s with
    rest := read ++ question :: more
    prevEnd := test.span.stop }) hx rfl hQuestion
  obtain ⟨y, t, hType, ht, hClear, hBare⟩ := exists_nullable (s := { s with
    rest := read ++ question :: more
    prevEnd := test.span.stop }) hx clear rfl hQuestion (Nat.le_of_succ_le hn) hMore
  refine ⟨y, t, ?_, ht, hClear, hBare⟩
  unfold typeTest
  rw [bind_of_ok hAs, if_neg Bool.false_ne_true, bind_of_ok hIs,
    bind_of_ok (p := currentKind) rfl, bind_of_ok (p := peekKind 1) rfl]
  dsimp only at hNot hNull ⊢
  rw [hNot, if_neg Bool.false_ne_true, bind_of_ok (p := checkWord .nullKw) rfl, hNull,
    if_neg Bool.false_ne_true, bind_of_ok hType]

theorem expect_of_cons {z : Token} {p : Punct} (hRest : s.rest = z :: more) (hz : z.kind = .punct p) :
    expect p s = .ok () { s with rest := more, prevEnd := z.span.stop } := by
  unfold expect
  rw [bind_of_ok (accept_of_cons hRest hz)]
  rfl

theorem extend_of_is (h : s.current.kind = .keyword .isKw) :
    extend r start 0 c s = (typeTest r start c >>= fun e => pure (.inl e)) s := by
  unfold extend
  rw [bind_of_ok (p := currentKind) rfl, h]
  rfl

/-- A name behind the `?` is what the test binds. -/
theorem exists_test_of_name {name : String} {a : Token} (hx : Spelled (.simple x) (halves read))
    (clear : s.pendingGt = false) (hRest : s.rest = test :: (read ++ question :: a :: more))
    (hTest : test.kind = .keyword .isKw) (hQuestion : question.kind = .punct .question)
    (hn : s.rest.length ≤ n) (ha : a.kind = .ident name) :
    ∃ (e : Expr) (y : TypeRef) (t : ParseState),
      extend (Rules.depth n) start 0 c s = .ok (.inl e) t ∧ e.kind = .isType c y (some name) ∧
      y.bare = TypeRef.bare ⟨.nullable x, ⟨0, 0⟩⟩ ∧ t.rest = more := by
  have hCurrent : s.current.kind = .keyword .isKw := by rw [current_of_cons hRest, hTest]
  obtain ⟨y, t, hRun, ht, _, hBare⟩ := exists_typeTest (c := c) start hx clear hRest hTest
    hQuestion hn fun p _ => isPunct_of_isIdent (by rw [kind, ha]; rfl) p
  have hName : designation t = .ok (some name) { t with rest := more, prevEnd := a.span.stop } := by
    unfold designation
    rw [bind_of_ok (p := currentKind) rfl, current_of_cons ht, ha]
    exact bind_of_ok (advance_of_cons ht (by rw [ha]; rfl))
  refine ⟨⟨t.nextId, .isType c y (some name), ⟨start, a.span.stop⟩⟩, y,
    { t with rest := more, prevEnd := a.span.stop, nextId := t.nextId + 1 }, ?_, rfl, hBare, rfl⟩
  rw [extend_of_is start hCurrent]
  exact bind_of_ok (hRun.trans (bind_of_ok hName))

/-- Anything else is left to what follows the test. -/
theorem exists_test_of_other (hx : Spelled (.simple x) (halves read))
    (clear : s.pendingGt = false) (hRest : s.rest = test :: (read ++ question :: more))
    (hTest : test.kind = .keyword .isKw) (hQuestion : question.kind = .punct .question)
    (hn : s.rest.length ≤ n) (hName : (kind more).isIdent = false)
    (hMore : ∀ p ∈ .gt :: .gtGt :: typePuncts, (kind more).isPunct p = false) :
    ∃ (e : Expr) (y : TypeRef) (t : ParseState),
      extend (Rules.depth n) start 0 c s = .ok (.inl e) t ∧ e.kind = .isType c y none ∧
      y.bare = TypeRef.bare ⟨.nullable x, ⟨0, 0⟩⟩ ∧ t.rest = more ∧
      t.pendingGt = false := by
  have hCurrent : s.current.kind = .keyword .isKw := by rw [current_of_cons hRest, hTest]
  obtain ⟨y, t, hRun, ht, hClear, hBare⟩ := exists_typeTest (c := c) start hx clear hRest
    hTest hQuestion hn hMore
  have hNone : designation t = .ok none t := by
    unfold designation
    rw [bind_of_ok (p := currentKind) rfl, ← kind_rest, ht]
    cases hKind : kind more with
    | ident =>
      rw [hKind] at hName
      cases hName
    | _ => rfl
  refine ⟨⟨t.nextId, .isType c y none, ⟨start, t.prevEnd⟩⟩, y, { t with nextId := t.nextId + 1 }, ?_,
    rfl, hBare, ht, hClear⟩
  rw [extend_of_is start hCurrent]
  exact bind_of_ok (hRun.trans (bind_of_ok hNone))

theorem expr_of_loop {e : Expr} (hOperand : operand r s = .ok c t)
    (hLoop : loop (extend r s.current.span.start 0) c t = .ok e u)
    (hAssign : (kind u.rest).assign? = none) : Parse.expr r s = .ok e u := by
  have hAbove : exprAbove r 0 s = .ok e u := by
    unfold exprAbove
    rw [bind_of_ok (p := currentStart) rfl, bind_of_ok hOperand]
    exact hLoop
  unfold Parse.expr
  rw [bind_of_ok (p := currentStart) rfl, bind_of_ok hAbove, bind_of_ok (p := currentKind) rfl,
    ← kind_rest, hAssign]
  rfl

theorem exists_loop_stop (least : Nat) (e : Expr) (h : (kind s.rest).infixLevel? = none) :
    ∃ u, loop (extend r start least) e s = .ok e u ∧ u.rest = s.rest := by
  have hStop : Reads (extend r start least e) s.rest s.rest fun v => v = .inr e :=
    extend_stop (by
      rw [h]
      rintro l ⟨⟩)
  obtain ⟨_, u, hRun, hRest, rfl⟩ := hStop s rfl
  exact ⟨u, loop_of_last hRun, hRest⟩

/-- An operand and one round behind it are the expression where nothing goes on behind that. -/
theorem expr_of_round {s v : ParseState} {e : Expr} (hOperand : operand r s = .ok c t)
    (hRun : extend r s.current.span.start 0 c t = .ok (.inl e) v)
    (hShorter : v.rest.length < t.rest.length) (hLevel : (kind v.rest).infixLevel? = none)
    (hAssign : (kind v.rest).assign? = none) :
    ∃ u, Parse.expr r s = .ok e u ∧ u.rest = v.rest := by
  obtain ⟨u, hStop, hu⟩ := exists_loop_stop (r := r) (s := v) s.current.span.start 0 e hLevel
  exact ⟨u, expr_of_loop hOperand (loop_of_next hRun hShorter hStop) (by rwa [hu]), hu⟩

theorem exists_operand_of_expr {e : Expr} (h : Parse.expr r s = .ok e u) :
    ∃ c t, operand r s = .ok c t ∧ ∃ target v,
      loop (extend r s.current.span.start 0) c t = .ok target v ∧
      ((kind v.rest).assign? = none → v = u) := by
  unfold Parse.expr at h
  rw [currentStart_bind_eq_ok] at h
  obtain ⟨target, v, hAbove, h⟩ := bind_eq_ok.mp h
  unfold exprAbove at hAbove
  rw [currentStart_bind_eq_ok] at hAbove
  obtain ⟨c, t, hOperand, hLoop⟩ := bind_eq_ok.mp hAbove
  refine ⟨c, t, hOperand, target, v, hLoop, ?_⟩
  intro hAssign
  rw [currentKind_bind_eq_ok, ← kind_rest, hAssign] at h
  cases h
  rfl

/-- An operand starts neither with `)` nor with the modifier of an argument. -/
theorem start_of_operand (h : operand r s = .ok c t) :
    (kind s.rest).isPunct .rParen = false ∧ (kind s.rest).argModifier? = none := by
  unfold operand at h
  rw [currentStart_bind_eq_ok, currentKind_bind_eq_ok, ← kind_rest] at h
  cases hKind : kind s.rest with
  | punct p =>
    refine ⟨?_, rfl⟩
    rw [TokenKind.isPunct, beq_eq_false_iff_ne]
    rintro rfl
    rw [hKind] at h
    cases h
  | keyword w =>
    refine ⟨rfl, ?_⟩
    rw [hKind] at h
    cases w <;> first | rfl | cases h
  | _ => exact ⟨rfl, rfl⟩

/-- In front of `name :` an expression ends behind the name. -/
theorem kind_of_expr_name {e : Expr} {name : String} (h : Parse.expr r s = .ok e u)
    (hName : kind s.rest = .ident name) (hColon : kind (s.rest.drop 1) = .punct .colon) :
    kind u.rest = .punct .colon := by
  obtain ⟨c, t, hOperand, target, v, hLoop, hEnd⟩ := exists_operand_of_expr h
  have ht : t.rest = s.rest.drop 1 := by
    unfold operand at hOperand
    rw [currentStart_bind_eq_ok, currentKind_bind_eq_ok, ← kind_rest, hName] at hOperand
    dsimp only at hOperand
    rw [peekKind_bind_eq_ok, hColon, startsOperand, if_neg (by simp)] at hOperand
    unfold nameExpr at hOperand
    have hGeneric : startsGenericArgs (s.rest.drop 1) = false := by
      rw [startsGenericArgs, hColon]
      rfl
    rw [remaining_bind_eq_ok, hGeneric] at hOperand
    obtain ⟨_, w, hAdvance, hFinish⟩ := bind_eq_ok.mp hOperand
    rw [if_neg Bool.false_ne_true] at hFinish
    obtain ⟨z, hDrop, _⟩ := (advance_drops (by rw [← kind_rest, hName]; rfl) hAdvance).token
    rw [(finishExpr_eq_ok.mp hFinish).2, hDrop]
    rfl
  obtain ⟨w, hStop, hw⟩ := exists_loop_stop (r := r) (s := t) s.current.span.start 0 c
    (by rw [ht, hColon]; rfl)
  rw [hStop] at hLoop
  cases hLoop
  rw [← hEnd (by rw [hw, ht, hColon]; rfl), hw, ht, hColon]

theorem argument_of_expr {e : Expr} {close : Token}
    (h : (Rules.depth n).expr s = .ok e u) (hEnd : u.rest = close :: more)
    (hClose : close.kind = .punct .rParen) :
    argument (Rules.depth n) s = .ok ⟨none, none, e⟩ u ∧ s.current.kind.isPunct .rParen = false := by
  cases n with
  | zero => cases h
  | succ n =>
  obtain ⟨c, t, hOperand, _⟩ := exists_operand_of_expr (r := Rules.depth n) h
  obtain ⟨hParen, hModifier⟩ := start_of_operand hOperand
  have hNoName : argumentName s = .ok none s := by
    unfold argumentName
    rw [bind_of_ok (p := currentKind) rfl, ← kind_rest]
    cases hKind : kind s.rest with
    | ident name =>
      have hColon : (kind (s.rest.drop 1)).isPunct .colon = false := by
        cases hNext : (kind (s.rest.drop 1)).isPunct .colon with
        | false => rfl
        | true =>
          have hEndColon := kind_of_expr_name (r := Rules.depth n) h hKind (kind_of_isPunct hNext)
          rw [hEnd, kind, hClose] at hEndColon
          cases hEndColon
      dsimp only
      rw [bind_of_ok (p := peekKind 1) rfl, hColon, if_neg Bool.false_ne_true]
      rfl
    | _ => rfl
  have hNoModifier : argumentModifier s = .ok none s := by
    unfold argumentModifier
    rw [bind_of_ok (p := currentKind) rfl, ← kind_rest, hModifier]
    rfl
  refine ⟨?_, by rwa [← kind_rest]⟩
  unfold argument
  rw [bind_of_ok hNoName, bind_of_ok hNoModifier, bind_of_ok (p := remaining) rfl]
  exact bind_of_ok h

theorem exists_arguments {opening close : Token} {inner : List Token}
    (hRest : s.rest = opening :: (inner ++ close :: more)) (hOpening : opening.kind = .punct .lParen)
    (hClose : close.kind = .punct .rParen) (clear : s.pendingGt = false)
    (hInner : ∀ v : ParseState, v.rest = inner ++ close :: more → v.pendingGt = false →
      ∃ e w, (Rules.depth n).expr v = .ok e w ∧ w.rest = close :: more) :
    ∃ e u, arguments (Rules.depth n) s = .ok [⟨none, none, e⟩] u ∧ u.rest = more := by
  have hExpect := expect_of_cons hRest hOpening
  obtain ⟨e, w, hExpr, hw⟩ := hInner { s with
    rest := inner ++ close :: more
    prevEnd := opening.span.stop } rfl clear
  obtain ⟨hArgument, hParen⟩ := argument_of_expr hExpr hw hClose
  have hComma : accept .comma w = .ok false w := by
    apply accept_of_ne
    rw [current_of_cons hw, hClose]
    rfl
  have hItems : commaSeparated (argument (Rules.depth n)) { s with
      rest := inner ++ close :: more
      prevEnd := opening.span.stop } = .ok [⟨none, none, e⟩] w := by
    refine loop_of_last ?_
    rw [bind_of_ok hArgument, bind_of_ok hComma]
    rfl
  refine ⟨e, { w with rest := more, prevEnd := close.span.stop }, ?_, rfl⟩
  unfold arguments argumentList
  rw [bind_of_ok hExpect, bind_assoc, bind_of_ok (p := check .rParen) rfl, hParen,
    if_neg Bool.false_ne_true, bind_of_ok hItems, bind_of_ok (expect_of_cons hw hClose)]
  rfl

/-- What is in parentheses behind an operand is the argument of a call. -/
theorem exists_call {opening close : Token} {inner : List Token}
    (hRest : s.rest = opening :: (inner ++ close :: more)) (hOpening : opening.kind = .punct .lParen)
    (hClose : close.kind = .punct .rParen) (clear : s.pendingGt = false)
    (hInner : ∀ v : ParseState, v.rest = inner ++ close :: more → v.pendingGt = false →
      ∃ e w, (Rules.depth n).expr v = .ok e w ∧ w.rest = close :: more) :
    ∃ (e a : Expr) (u : ParseState), extend (Rules.depth n) start 0 c s = .ok (.inl e) u ∧
      e.kind = .invocation c [⟨none, none, a⟩] ∧ u.rest = more := by
  obtain ⟨a, w, hArguments, hw⟩ := exists_arguments hRest hOpening hClose clear hInner
  have hKind : s.current.kind = .punct .lParen := by rw [current_of_cons hRest, hOpening]
  refine ⟨⟨w.nextId, .invocation c [⟨none, none, a⟩], ⟨start, w.prevEnd⟩⟩, a,
    { w with nextId := w.nextId + 1 }, ?_, rfl, hw⟩
  have hPostfix : postfixExpr (Rules.depth n) start c s =
      .ok ⟨w.nextId, .invocation c [⟨none, none, a⟩], ⟨start, w.prevEnd⟩⟩
        { w with nextId := w.nextId + 1 } := by
    unfold postfixExpr
    rw [bind_of_ok (p := currentKind) rfl, hKind]
    exact bind_of_ok hArguments
  unfold extend
  rw [bind_of_ok (p := currentKind) rfl, hKind]
  exact bind_of_ok hPostfix

/-! ## Behind the `?` -/

theorem not_isPunct_of_isLiteral {k : TokenKind} (h : k.isLiteral = true) (p : Punct) :
    k.isPunct p = false := by
  cases k with
  | punct => cases h
  | _ => rfl

theorem infixLevel?_of_isLiteral {k : TokenKind} (h : k.isLiteral = true) : k.infixLevel? = none := by
  cases k with
  | punct => cases h
  | keyword w => cases w <;> first | rfl | cases h
  | _ => rfl

theorem assign?_of_isLiteral {k : TokenKind} (h : k.isLiteral = true) : k.assign? = none := by
  cases k with
  | punct => cases h
  | _ => rfl

/-- In `c is T ? a : b` the `?` belongs to the type: the expression ends behind a name `a`, which
the test binds, or in front of a literal `a`; a parenthesized `a` is the argument of a call. -/
theorem question_read_with_tested_type (hn : s.rest.length ≤ n)
    (hOperand : operand (Rules.depth n) s = .ok c t) (clear : t.pendingGt = false)
    (hRest : t.rest = test :: (read ++ question :: more)) (hTest : test.kind = .keyword .isKw)
    (hQuestion : question.kind = .punct .question) (hx : Spelled (.simple x) (halves read)) :
    (∀ name a colon after, more = a :: colon :: after → a.kind = .ident name →
      colon.kind = .punct .colon →
      ∃ (e : Expr) (y : TypeRef) (u : ParseState), Parse.expr (Rules.depth n) s = .ok e u ∧
        e.kind = .isType c y (some name) ∧ y.bare = TypeRef.bare ⟨.nullable x, ⟨0, 0⟩⟩ ∧
        u.rest = colon :: after) ∧
    ((kind more).isLiteral = true →
      ∃ (e : Expr) (y : TypeRef) (u : ParseState), Parse.expr (Rules.depth n) s = .ok e u ∧
        e.kind = .isType c y none ∧ y.bare = TypeRef.bare ⟨.nullable x, ⟨0, 0⟩⟩ ∧ u.rest = more) ∧
    (∀ opening inner close colon after, more = opening :: (inner ++ close :: colon :: after) →
      opening.kind = .punct .lParen → close.kind = .punct .rParen → colon.kind = .punct .colon →
      (∀ v : ParseState, v.rest = inner ++ close :: colon :: after → v.pendingGt = false →
        ∃ a w, (Rules.depth n).expr v = .ok a w ∧ w.rest = close :: colon :: after) →
      ∃ (e tested a : Expr) (y : TypeRef) (u : ParseState), Parse.expr (Rules.depth n) s = .ok e u ∧
        e.kind = .invocation tested [⟨none, none, a⟩] ∧ tested.kind = .isType c y none ∧
        y.bare = TypeRef.bare ⟨.nullable x, ⟨0, 0⟩⟩ ∧ u.rest = colon :: after) := by
  have hEnds := operand_ends (Rules.orderly n) s
  rw [Ends, hOperand] at hEnds
  have hLength : t.rest.length ≤ n := Nat.le_trans hEnds.1.length_le hn
  have hShorter : more.length < t.rest.length := by
    rw [hRest, List.length_cons, List.length_append, List.length_cons]
    omega
  refine ⟨?_, ?_, ?_⟩
  · rintro name a colon after rfl ha hColon
    obtain ⟨e, y, v, hRun, hKind, hBare, hv⟩ := exists_test_of_name (c := c)
      s.current.span.start hx clear hRest hTest hQuestion hLength ha
    obtain ⟨u, hExpr, hu⟩ := expr_of_round hOperand hRun
      (by rw [hv]; exact Nat.lt_trans (Nat.lt_succ_self _) hShorter)
      (by rw [hv, kind, hColon]; rfl) (by rw [hv, kind, hColon]; rfl)
    exact ⟨e, y, u, hExpr, hKind, hBare, hu.trans hv⟩
  · intro hLiteral
    obtain ⟨e, y, v, hRun, hKind, hBare, hv, _⟩ := exists_test_of_other (c := c)
      s.current.span.start hx clear hRest hTest hQuestion hLength (by
        cases hMore : kind more with
        | ident =>
          rw [hMore] at hLiteral
          cases hLiteral
        | _ => rfl) fun p _ => not_isPunct_of_isLiteral hLiteral p
    obtain ⟨u, hExpr, hu⟩ := expr_of_round hOperand hRun (by rwa [hv])
      (by rw [hv]; exact infixLevel?_of_isLiteral hLiteral)
      (by rw [hv]; exact assign?_of_isLiteral hLiteral)
    exact ⟨e, y, u, hExpr, hKind, hBare, hu.trans hv⟩
  · rintro opening inner close colon after rfl hOpening hClose hColon hInner
    obtain ⟨tested, y, v, hRun, hKind, hBare, hv, hClear⟩ := exists_test_of_other (c := c)
      s.current.span.start hx clear hRest hTest hQuestion hLength (by rw [kind, hOpening]; rfl)
      (by rw [kind, hOpening]; decide)
    obtain ⟨e, a, w, hCall, hInvocation, hw⟩ := exists_call (c := tested)
      s.current.span.start hv hOpening hClose hClear hInner
    obtain ⟨u, hStop, hu⟩ := exists_loop_stop (r := Rules.depth n) (s := w)
      s.current.span.start 0 e (by rw [hw, kind, hColon]; rfl)
    refine ⟨e, tested, a, y, u,
      expr_of_loop hOperand (loop_of_next hRun ?_ (loop_of_next hCall ?_ hStop)) ?_, hInvocation, hKind,
      hBare, hu.trans hw⟩
    · rw [hv]
      exact hShorter
    · rw [hw, hv]
      simp only [List.length_cons, List.length_append]
      omega
    · rw [hu, hw, kind, hColon]
      rfl

theorem question_read_with_type_named :
    ∃ (e : Expr) (y : TypeRef) (u : ParseState),
      Parse.expr (Rules.depth 7) (.ofTokens (unplaced [.ident "c", .keyword .isKw, .ident "T",
        .punct .question, .ident "a", .punct .colon, .ident "b"])) = .ok e u ∧
      e.kind = .isType ⟨0, .ident "c", ⟨0, 0⟩⟩ y (some "a") ∧
      y.bare = TypeRef.bare ⟨.nullable ⟨.named ["T"] [], ⟨0, 0⟩⟩, ⟨0, 0⟩⟩ ∧
      u.rest = unplaced [.punct .colon, .ident "b"] := by
  have hRest : unplaced [.keyword .isKw, .ident "T", .punct .question, .ident "a", .punct .colon,
      .ident "b"] = ⟨.keyword .isKw, ⟨0, 0⟩⟩ :: (unplaced [.ident "T"] ++
        ⟨.punct .question, ⟨0, 0⟩⟩ :: unplaced [.ident "a", .punct .colon, .ident "b"]) := rfl
  have hName : Spelled (.simple ⟨.named ["T"] [], ⟨0, 0⟩⟩) (halves (unplaced [.ident "T"])) :=
    .named ⟨0, 0⟩ (.ends .noList)
  exact (question_read_with_tested_type (n := 7) (t := { ParseState.ofTokens (unplaced
    [.keyword .isKw, .ident "T", .punct .question, .ident "a", .punct .colon, .ident "b"]) with
      nextId := 1 }) (by decide) rfl rfl hRest rfl rfl hName).1 "a" _ _ _ rfl rfl rfl

/-- What the expression in front of a text tests for, the name that the test binds, and how many
tokens are left, if it is a type test. -/
def testedType? (text : String) : Option (String × Option String × Nat) :=
  match expression (stateOf text) with
  | .ok ⟨_, .isType _ y name, _⟩ u => some (y.text, name, u.rest.length)
  | _ => none

/-- `: b` is left unread. -/
theorem exists_conditional_not_read : testedType? "c is T ? a : b" = some ("T?", some "a", 3) := by
  decide +kernel

end Parse

end Stackable
