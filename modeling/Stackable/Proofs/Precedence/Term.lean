import Stackable.Syntax.Expr
import Stackable.Token.Basic

/-!
# Operator terms and how they are written

A term is an expression of names, integer literals and operators without places and parentheses.
It is written with parentheses around an operand that binds weaker than its place asks for, and
around every `<` comparison, which could otherwise be taken for type arguments. `Expr.term?` is the
term of an expression.
-/

set_option autoImplicit false

namespace Stackable

inductive PrefixOp where
  | neg | plus | not | bitNot | preInc | preDec | addressOf | deref
deriving Repr, DecidableEq

namespace PrefixOp

def toUnary : PrefixOp → UnaryOp
  | .neg => .neg
  | .plus => .plus
  | .not => .not
  | .bitNot => .bitNot
  | .preInc => .preInc
  | .preDec => .preDec
  | .addressOf => .addressOf
  | .deref => .deref

def ofUnary? : UnaryOp → Option PrefixOp
  | .neg => some .neg
  | .plus => some .plus
  | .not => some .not
  | .bitNot => some .bitNot
  | .preInc => some .preInc
  | .preDec => some .preDec
  | .addressOf => some .addressOf
  | .deref => some .deref
  | .await => none

def mark : PrefixOp → Punct
  | .neg => .minus
  | .plus => .plus
  | .not => .bang
  | .bitNot => .tilde
  | .preInc => .plusPlus
  | .preDec => .minusMinus
  | .addressOf => .amp
  | .deref => .star

@[simp] theorem ofUnary?_toUnary (op : PrefixOp) : ofUnary? op.toUnary = some op := by
  cases op <;> rfl

end PrefixOp

def PostfixOp.mark : PostfixOp → Punct
  | .inc => .plusPlus
  | .dec => .minusMinus

def BinOp.mark : BinOp → Punct
  | .add => .plus
  | .sub => .minus
  | .mul => .star
  | .div => .slash
  | .mod => .percent
  | .eq => .eqEq
  | .ne => .bangEq
  | .lt => .lt
  | .gt => .gt
  | .le => .ltEq
  | .ge => .gtEq
  | .and => .ampAmp
  | .or => .pipePipe
  | .bitAnd => .amp
  | .bitOr => .pipe
  | .bitXor => .caret
  | .shl => .ltLt
  | .shr => .gtGt
  | .coalesce => .questionQuestion

def AssignOp.mark : AssignOp → Punct
  | .assign => .eq
  | .add => .plusEq
  | .sub => .minusEq
  | .mul => .starEq
  | .div => .slashEq
  | .mod => .percentEq
  | .bitAnd => .ampEq
  | .bitOr => .pipeEq
  | .bitXor => .caretEq
  | .shl => .ltLtEq
  | .shr => .gtGtEq
  | .coalesce => .questionQuestionEq

/-! ## Levels

Assignment is at level 0, and what binds tighter has a greater level. -/

namespace Level

def conditional : Nat := 1
def coalesce : Nat := 2
def relational : Nat := 9
def prefixed : Nat := 13
def primary : Nat := 14

end Level

def BinOp.level : BinOp → Nat
  | .coalesce => Level.coalesce
  | .or => 3
  | .and => 4
  | .bitOr => 5
  | .bitXor => 6
  | .bitAnd => 7
  | .eq | .ne => 8
  | .lt | .gt | .le | .ge => Level.relational
  | .shl | .shr => 10
  | .add | .sub => 11
  | .mul | .div | .mod => 12

/-- The least level of a left operand that needs no parentheses. -/
def BinOp.leftLevel (op : BinOp) : Nat := if op = .coalesce then op.level + 1 else op.level

/-- The least level of a right operand that needs no parentheses; `??` associates to the right. -/
def BinOp.rightLevel (op : BinOp) : Nat := if op = .coalesce then op.level else op.level + 1

inductive Term where
  | name (name : String) (h : name ≠ "await")
  | int (value : Nat) (suffix : Option IntSuffix)
  | unary (op : PrefixOp) (operand : Term)
  | suffixed (op : PostfixOp) (operand : Term)
  | binary (op : BinOp) (left right : Term)
  | conditional (cond whenTrue whenFalse : Term)
  | assign (op : AssignOp) (target value : Term)

/-- The term of an expression of names, integers and operators; parentheses leave no trace. -/
def Expr.term? : Expr → Option Term
  | ⟨_, .ident name, _⟩ => if h : name = "await" then none else some (.name name h)
  | ⟨_, .int value suffix, _⟩ => some (.int value suffix)
  | ⟨_, .unary op operand, _⟩ =>
    (PrefixOp.ofUnary? op).bind fun op => operand.term?.map (.unary op)
  | ⟨_, .suffixed op operand, _⟩ => operand.term?.map (.suffixed op)
  | ⟨_, .binary op left right, _⟩ =>
    left.term?.bind fun l => right.term?.map (.binary op l)
  | ⟨_, .conditional cond whenTrue whenFalse, _⟩ =>
    cond.term?.bind fun c => whenTrue.term?.bind fun t => whenFalse.term?.map (.conditional c t)
  | ⟨_, .assign op target value, _⟩ =>
    target.term?.bind fun t => value.term?.map (.assign op t)
  | ⟨_, .paren inner, _⟩ => inner.term?
  | _ => none

namespace Term

def level : Term → Nat
  | .name .. | .int .. | .suffixed .. => Level.primary
  | .unary .. => Level.prefixed
  | .binary op _ _ => op.level
  | .conditional .. => Level.conditional
  | .assign .. => 0

def isLess : Term → Bool
  | .binary .lt _ _ => true
  | _ => false

/-- A place asks for operands of a level of at least `least`. -/
def needsParens (least : Nat) (t : Term) : Bool := decide (t.level < least) || t.isLess

def parenthesize (b : Bool) (kinds : List TokenKind) : List TokenKind :=
  if b then .punct .lParen :: (kinds ++ [.punct .rParen]) else kinds

/-- The tokens of a term without parentheses around the whole. -/
def body : Term → List TokenKind
  | .name n _ => [.ident n]
  | .int value suffix => [.int value suffix]
  | .unary op operand =>
    .punct op.mark :: parenthesize (operand.needsParens Level.prefixed) operand.body
  | .suffixed op operand =>
    parenthesize (operand.needsParens Level.primary) operand.body ++ [.punct op.mark]
  | .binary op left right =>
    parenthesize (left.needsParens op.leftLevel) left.body ++
      .punct op.mark :: parenthesize (right.needsParens op.rightLevel) right.body
  | .conditional cond whenTrue whenFalse =>
    parenthesize (cond.needsParens Level.coalesce) cond.body ++
      .punct .question :: (parenthesize (whenTrue.needsParens 0) whenTrue.body ++
        .punct .colon :: parenthesize (whenFalse.needsParens Level.conditional) whenFalse.body)
  | .assign op target value =>
    parenthesize (target.needsParens Level.coalesce) target.body ++
      .punct op.mark :: parenthesize (value.needsParens 0) value.body

/-- The tokens of a term where operands of a level of at least `least` are asked for. -/
def renderAt (least : Nat) (t : Term) : List TokenKind := parenthesize (t.needsParens least) t.body

/-- The tokens of a term that stands alone. -/
def render (t : Term) : List TokenKind := t.renderAt 0

example : (Term.binary .sub (.name "a" (by decide)) (.binary .sub (.int 1 none)
    (.unary .neg (.name "b" (by decide))))).render =
      [.ident "a", .punct .minus, .punct .lParen, .int 1 none, .punct .minus, .punct .minus,
        .ident "b", .punct .rParen] := rfl

end Term

end Stackable
