import Stackable.Proofs.Parser.Run
import Stackable.Proofs.Parser.Steps
import Stackable.Proofs.Precedence.Lookahead

/-!
# Reading operators

The loop that reads an expression takes one operator after the other into what it has read so far.
`Builds` says that an operand and then such steps amount to a term; the loop then stops where an
operator of a lower level follows.
-/

set_option autoImplicit false

namespace Stackable

/-- The left power of the operators at a level. -/
def Level.power (l : Nat) : Nat := if l ≤ 2 then 2 * l else 2 * l - 1

def BinOp.rightPower (op : BinOp) : Nat := if op = .coalesce then 3 else 2 * op.level

theorem BinOp.binary?_mark (op : BinOp) :
    op.mark.binary? = some (op, Level.power op.level, op.rightPower) := by
  cases op <;> rfl

theorem BinOp.left_of_binary? {k : TokenKind} {op : BinOp} {left right : Nat}
    (h : k.binary? = some (op, left, right)) : left = Level.power op.level := by
  cases k with
  | punct m => cases m <;> cases h <;> rfl
  | _ => cases h

/-- The level of an operator that continues an operand. -/
def TokenKind.infixLevel? (k : TokenKind) : Option Nat :=
  if k.isPostfix then some Level.primary
  else if k.isKeyword .isKw || k.isKeyword .asKw then some Level.relational
  else if k.isPunct .question then some Level.conditional
  else k.binary?.map (·.1.level)

namespace Parse

variable {α β : Type} {r : Rules} {s : ParseState} {x : Token} {ts rest : List Token} {t : Term}

theorem exists_advance (hs : s.rest = x :: ts) (hx : x.kind.isEof = false) :
    ∃ u, advance s = .ok x u ∧ u.rest = ts := by
  rcases advance_cases s with ⟨hEnd, _⟩ | ⟨y, l, hRest, _, hRun⟩
  · rw [current_of_cons hs, hx] at hEnd
    cases hEnd
  · rw [hs] at hRest
    cases hRest
    exact ⟨_, hRun, rfl⟩

theorem exists_accept {p : Punct} (hs : s.rest = x :: ts) (hx : x.kind = .punct p) :
    ∃ u, accept p s = .ok true u ∧ u.rest = ts := by
  obtain ⟨u, hRun, hRest⟩ := exists_advance hs (by rw [hx]; rfl)
  refine ⟨u, ?_, hRest⟩
  have hCheck : check p s = .ok true s := by
    change EStateM.Result.ok (s.current.kind.isPunct p) s = _
    rw [current_of_cons hs, hx, TokenKind.isPunct, beq_self_eq_true]
  unfold accept
  rw [bind_of_ok hCheck, if_pos rfl, bind_of_ok hRun]
  rfl

theorem exists_expect {p : Punct} (hs : s.rest = x :: ts) (hx : x.kind = .punct p) :
    ∃ u, expect p s = .ok () u ∧ u.rest = ts := by
  obtain ⟨u, hRun, hRest⟩ := exists_accept hs hx
  refine ⟨u, ?_, hRest⟩
  unfold expect
  rw [bind_of_ok hRun]
  rfl

/-- In front of `ts`, the parser succeeds with a result in `Q` and stops in front of `rest`. -/
def Reads (p : Parse α) (ts rest : List Token) (Q : α → Prop) : Prop :=
  ∀ s : ParseState, s.rest = ts → ∃ a u, p s = .ok a u ∧ u.rest = rest ∧ Q a

variable {mid : List Token} {P : α → Prop} {Q : β → Prop}

theorem Reads.pure {b : β} (h : Q b) : Reads (pure b) ts ts Q := by
  intro s hs
  exact ⟨b, s, rfl, hs, h⟩

theorem Reads.bind {p : Parse α} {f : α → Parse β} (h : Reads p ts mid P)
    (next : ∀ a, P a → Reads (f a) mid rest Q) : Reads (p >>= f) ts rest Q := by
  intro s hs
  obtain ⟨a, u, hRun, hRest, ha⟩ := h s hs
  rw [bind_of_ok hRun]
  exact next a ha u hRest

theorem Reads.advance {f : Token → Parse β} (hx : x.kind.isEof = false)
    (h : Reads (f x) ts rest Q) : Reads (Parse.advance >>= f) (x :: ts) rest Q := by
  intro s hs
  obtain ⟨u, hRun, hRest⟩ := exists_advance hs hx
  rw [bind_of_ok hRun]
  exact h u hRest

theorem Reads.expect {f : Unit → Parse β} {p : Punct} (hx : x.kind = .punct p)
    (h : Reads (f ()) ts rest Q) : Reads (Parse.expect p >>= f) (x :: ts) rest Q := by
  intro s hs
  obtain ⟨u, hRun, hRest⟩ := exists_expect hs hx
  rw [bind_of_ok hRun]
  exact h u hRest

theorem Reads.currentStart {f : Nat → Parse β} (h : ∀ start, Reads (f start) ts rest Q) :
    Reads (Parse.currentStart >>= f) ts rest Q := by
  intro s hs
  rw [bind_of_ok (p := Parse.currentStart) rfl]
  exact h _ s hs

theorem Reads.currentKind {f : TokenKind → Parse β} (h : Reads (f (Tokens.kind ts)) ts rest Q) :
    Reads (Parse.currentKind >>= f) ts rest Q := by
  intro s hs
  rw [bind_of_ok (p := Parse.currentKind) rfl, ← kind_rest, hs]
  exact h s hs

theorem Reads.peekKind {n : Nat} {f : TokenKind → Parse β}
    (h : Reads (f (Tokens.kind (ts.drop n))) ts rest Q) :
    Reads (Parse.peekKind n >>= f) ts rest Q := by
  intro s hs
  rw [bind_of_ok (p := Parse.peekKind n) rfl, hs]
  exact h s hs

theorem Reads.remaining {f : List Token → Parse β} (h : Reads (f ts) ts rest Q) :
    Reads (Parse.remaining >>= f) ts rest Q := by
  intro s hs
  rw [bind_of_ok (p := Parse.remaining) rfl, hs]
  exact h s hs

def ReadsTerm (p : Parse Expr) (t : Term) (ts rest : List Token) : Prop :=
  Reads p ts rest fun e => e.term? = some t

theorem ReadsTerm.finish {start : Nat} {kind : ExprKind Expr}
    (h : ∀ id span, (⟨id, kind, span⟩ : Expr).term? = some t) :
    ReadsTerm (finishExpr start kind) t rest rest := by
  intro s hs
  exact ⟨_, _, rfl, hs, h _ _⟩

theorem operand_name {n : String} {hn : n ≠ "await"} (hx : x.kind = .ident n)
    (hGeneric : Tokens.startsGenericArgs rest = false) :
    ReadsTerm (operand r) (.name n hn) (x :: rest) rest := by
  apply Reads.currentStart
  intro start
  apply Reads.currentKind
  rw [Tokens.kind, hx]
  apply Reads.peekKind
  rw [if_neg (by simp [hn])]
  apply Reads.remaining
  rw [List.drop_succ_cons, List.drop_zero, hGeneric]
  apply Reads.advance (by rw [hx]; rfl)
  apply ReadsTerm.finish
  intro id span
  exact dif_neg hn

theorem operand_int {value : Nat} {suffix : Option IntSuffix} (hx : x.kind = .int value suffix) :
    ReadsTerm (operand r) (.int value suffix) (x :: rest) rest := by
  apply Reads.currentStart
  intro start
  apply Reads.currentKind
  rw [Tokens.kind, hx]
  apply Reads.advance (by rw [hx]; rfl)
  apply ReadsTerm.finish
  intro id span
  rfl

theorem operand_unary {op : PrefixOp} (hx : x.kind = .punct op.mark)
    (h : ReadsTerm (r.exprAbove Power.unary) t ts rest) :
    ReadsTerm (operand r) (.unary op t) (x :: ts) rest := by
  apply Reads.currentStart
  intro start
  apply Reads.currentKind
  rw [Tokens.kind, hx]
  have hUnary : ReadsTerm (unaryExpr r start op.toUnary) (.unary op t) (x :: ts) rest := by
    apply Reads.advance (by rw [hx]; rfl)
    apply Reads.bind h
    intro e he
    apply ReadsTerm.finish
    intro id span
    simp [Expr.term?, he]
  cases op <;> exact hUnary

theorem operand_paren (hx : x.kind = .punct .lParen) {y : Token} (hy : y.kind = .punct .rParen)
    (hCast : Tokens.startsCast ts = false) (h : ReadsTerm r.expr t ts (y :: rest)) :
    ReadsTerm (operand r) t (x :: ts) rest := by
  apply Reads.currentStart
  intro start
  apply Reads.currentKind
  rw [Tokens.kind, hx]
  apply Reads.remaining
  rw [List.drop_succ_cons, List.drop_zero, hCast, if_neg Bool.false_ne_true]
  apply Reads.advance (by rw [hx]; rfl)
  apply Reads.bind h
  intro e he
  apply Reads.expect hy
  apply ReadsTerm.finish
  intro id span
  exact he

variable {start least : Nat} {e : Expr} {a : Term}

/-- A step of the loop that makes `t` of what was read before. -/
def Extends (q : Parse (Expr ⊕ Expr)) (t : Term) (ts rest : List Token) : Prop :=
  Reads q ts rest fun v => ∃ e, v = .inl e ∧ e.term? = some t

theorem Extends.of_reads {p : Parse Expr} (h : ReadsTerm p t ts rest) :
    Extends (p >>= fun e => pure (.inl e)) t ts rest := by
  apply Reads.bind h
  intro e he
  exact Reads.pure ⟨e, rfl, he⟩

theorem extend_suffixed {op : PostfixOp} (he : e.term? = some a) (hx : x.kind = .punct op.mark)
    (hLeast : least ≤ Power.postfixed) :
    Extends (extend r start least e) (.suffixed op a) (x :: rest) rest := by
  have hPostfix : (TokenKind.punct op.mark).isPostfix = true := by cases op <;> rfl
  have hStep : ReadsTerm (leaf start (.suffixed op e)) (.suffixed op a) (x :: rest) rest := by
    apply Reads.advance (by rw [hx]; rfl)
    apply ReadsTerm.finish
    intro id span
    simp [Expr.term?, he]
  apply Reads.currentKind
  rw [Tokens.kind, hx, if_pos hPostfix, if_neg (Nat.not_lt.mpr hLeast)]
  apply Extends.of_reads
  apply Reads.currentKind
  rw [Tokens.kind, hx]
  cases op <;> exact hStep

theorem extend_binary {op : BinOp} (he : e.term? = some a) (hx : x.kind = .punct op.mark)
    (hLeast : least ≤ Level.power op.level)
    (h : ReadsTerm (r.exprAbove op.rightPower) t ts rest) :
    Extends (extend r start least e) (.binary op a t) (x :: ts) rest := by
  have hOther : (TokenKind.punct op.mark).isPostfix = false ∧
      (TokenKind.punct op.mark).isPunct .question = false := by
    cases op <;> exact ⟨rfl, rfl⟩
  have hBinary : (TokenKind.punct op.mark).binary? =
      some (op, Level.power op.level, op.rightPower) := op.binary?_mark
  apply Reads.currentKind
  rw [Tokens.kind, hx, hOther.1, hOther.2, hBinary]
  change Reads (if Level.power op.level < least then _ else _) _ _ _
  rw [if_neg (Nat.not_lt.mpr hLeast)]
  apply Reads.advance (by rw [hx]; rfl)
  apply Reads.bind h
  intro b hb
  apply Extends.of_reads
  apply ReadsTerm.finish
  intro id span
  simp [Expr.term?, he, hb]

theorem extend_conditional {b c : Term} {y : Token} {mid : List Token} (he : e.term? = some a)
    (hx : x.kind = .punct .question) (hy : y.kind = .punct .colon)
    (hLeast : least ≤ Power.conditional) (hTrue : ReadsTerm r.expr b ts (y :: mid))
    (hFalse : ReadsTerm (r.exprAbove Power.conditional) c mid rest) :
    Extends (extend r start least e) (.conditional a b c) (x :: ts) rest := by
  apply Reads.currentKind
  rw [Tokens.kind, hx]
  change Reads (if Power.conditional < least then _ else _) _ _ _
  rw [if_neg (Nat.not_lt.mpr hLeast)]
  apply Extends.of_reads
  apply Reads.advance (by rw [hx]; rfl)
  apply Reads.bind hTrue
  intro t ht
  apply Reads.expect hy
  apply Reads.bind hFalse
  intro f hf
  apply ReadsTerm.finish
  intro id span
  simp [Expr.term?, he, ht, hf]

theorem extend_stop
    (h : ∀ l, (Tokens.kind rest).infixLevel? = some l → Level.power l < least) :
    Reads (extend r start least e) rest rest fun v => v = .inr e := by
  unfold TokenKind.infixLevel? at h
  apply Reads.currentKind
  split
  next hPostfix =>
    rw [if_pos hPostfix] at h
    have hLess : Power.postfixed < least := h _ rfl
    rw [if_pos hLess]
    exact Reads.pure rfl
  next hPostfix =>
    rw [if_neg hPostfix] at h
    split
    next hTest =>
      rw [if_pos hTest] at h
      have hLess : Power.relational < least := h _ rfl
      rw [if_pos hLess]
      exact Reads.pure rfl
    next hTest =>
      rw [if_neg hTest] at h
      split
      next hQuestion =>
        rw [if_pos hQuestion] at h
        have hLess : Power.conditional < least := h _ rfl
        rw [if_pos hLess]
        exact Reads.pure rfl
      next hQuestion =>
        rw [if_neg hQuestion] at h
        split
        next op left right hBinary =>
          rw [hBinary] at h
          have hLess : left < least := by
            rw [BinOp.left_of_binary? hBinary]
            exact h _ rfl
          rw [if_pos hLess]
          exact Reads.pure rfl
        next => exact Reads.pure rfl

/-- Having read `a`, the loop goes on in front of `ts` until it has read `t`. -/
def Loops (r : Rules) (least : Nat) (a t : Term) (ts rest : List Token) : Prop :=
  ∀ start n e, ts.length < n → e.term? = some a →
    ReadsTerm (iterate (extend r start least) n e) t ts rest

theorem Loops.stop (h : ∀ l, (Tokens.kind rest).infixLevel? = some l → Level.power l < least) :
    Loops r least t t rest rest := by
  intro start n e hn he s hs
  obtain ⟨n, rfl⟩ := Nat.exists_eq_add_of_lt hn
  have hStop : Reads (extend r start least e) rest rest fun v => v = .inr e := extend_stop h
  obtain ⟨v, u, hRun, hRest, rfl⟩ := hStop s hs
  exact ⟨e, u, iterate_succ_eq_ok.mpr (.inr hRun), hRest, he⟩

theorem Loops.step {b : Term} {mid : List Token} (hShorter : mid.length < ts.length)
    (first : ∀ start e, e.term? = some a → Extends (extend r start least e) b ts mid)
    (next : Loops r least b t mid rest) : Loops r least a t ts rest := by
  intro start n e hn he s hs
  obtain ⟨n, rfl⟩ := Nat.exists_eq_add_of_lt hn
  obtain ⟨_, u, hRun, hRest, e', rfl, he'⟩ := first start e he s hs
  obtain ⟨e'', v, hLoop, hEnd, hTerm⟩ := next start (ts.length + n) e' (by omega) he' u hRest
  exact ⟨e'', v, iterate_succ_eq_ok.mpr (.inl ⟨e', u, hRun, hLoop⟩), hEnd, hTerm⟩

/-- Reading in front of `ts` comes by `t` with `rest` to go, and whatever the loop makes of `t`
from there is what is read. -/
def Builds (r : Rules) (least : Nat) (t : Term) (ts rest : List Token) : Prop :=
  ∀ t' rest', Loops r least t t' rest rest' → ReadsTerm (exprAbove r least) t' ts rest'

theorem Builds.of_operand (h : ReadsTerm (operand r) t ts rest) : Builds r least t ts rest := by
  intro t' rest' hLoop
  apply Reads.currentStart
  intro start
  apply Reads.bind h
  intro e he
  apply Reads.remaining
  exact hLoop start _ e (Nat.lt_succ_self _) he

theorem Builds.suffixed {op : PostfixOp} (h : Builds r least a ts (x :: rest))
    (hx : x.kind = .punct op.mark) (hLeast : least ≤ Power.postfixed) :
    Builds r least (.suffixed op a) ts rest := by
  intro t' rest' hLoop
  apply h
  apply Loops.step _ _ hLoop
  · exact Nat.lt_succ_self _
  · intro start e he
    exact extend_suffixed he hx hLeast

theorem Builds.binary {op : BinOp} {mid : List Token} (h : Builds r least a ts (x :: mid))
    (hx : x.kind = .punct op.mark) (hLeast : least ≤ Level.power op.level)
    (hShorter : rest.length ≤ mid.length)
    (hRight : ReadsTerm (r.exprAbove op.rightPower) t mid rest) :
    Builds r least (.binary op a t) ts rest := by
  intro t' rest' hLoop
  apply h
  apply Loops.step _ _ hLoop
  · exact Nat.lt_succ_of_le hShorter
  · intro start e he
    exact extend_binary he hx hLeast hRight

theorem Builds.conditional {b c : Term} {y : Token} {mid after : List Token}
    (h : Builds r least a ts (x :: mid)) (hx : x.kind = .punct .question)
    (hy : y.kind = .punct .colon) (hLeast : least ≤ Power.conditional)
    (hShorter : rest.length ≤ mid.length) (hTrue : ReadsTerm r.expr b mid (y :: after))
    (hFalse : ReadsTerm (r.exprAbove Power.conditional) c after rest) :
    Builds r least (.conditional a b c) ts rest := by
  intro t' rest' hLoop
  apply h
  apply Loops.step _ _ hLoop
  · exact Nat.lt_succ_of_le hShorter
  · intro start e he
    exact extend_conditional he hx hy hLeast hTrue hFalse

theorem Builds.exprAbove (h : Builds r least t ts rest)
    (hStop : ∀ l, (Tokens.kind rest).infixLevel? = some l → Level.power l < least) :
    ReadsTerm (exprAbove r least) t ts rest := h t rest (.stop hStop)

theorem expr_of_exprAbove (h : ReadsTerm (Parse.exprAbove r 0) t ts rest)
    (hAssign : (Tokens.kind rest).assign? = none) : ReadsTerm (expr r) t ts rest := by
  apply Reads.currentStart
  intro start
  apply Reads.bind h
  intro e he
  apply Reads.currentKind
  rw [hAssign]
  exact Reads.pure he

theorem expr_assign {op : AssignOp} {mid : List Token}
    (h : ReadsTerm (Parse.exprAbove r 0) a ts (x :: mid)) (hx : x.kind = .punct op.mark)
    (hValue : ReadsTerm r.expr t mid rest) : ReadsTerm (expr r) (.assign op a t) ts rest := by
  have hAssign : (TokenKind.punct op.mark).assign? = some op := by cases op <;> rfl
  apply Reads.currentStart
  intro start
  apply Reads.bind h
  intro target hTarget
  apply Reads.currentKind
  rw [Tokens.kind, hx, hAssign]
  apply Reads.advance (by rw [hx]; rfl)
  apply Reads.bind hValue
  intro value hTerm
  apply ReadsTerm.finish
  intro id span
  simp [Expr.term?, hTarget, hTerm]

end Parse

end Stackable
