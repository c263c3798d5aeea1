import Stackable.Allocation.Site

/-!
# Where an array could live on the stack

The frame has to belong to a synchronous method or constructor, and the allocation must not be
repeated in it.
-/

set_option autoImplicit false

namespace Stackable

inductive IneligibleReason where
  | noEnclosingFunction
  | asyncFunction
  | insideLoop
deriving Repr, DecidableEq

def IneligibleReason.message : IneligibleReason → String
  | .noEnclosingFunction => "not inside a method or constructor"
  | .asyncFunction => "inside an async method"
  | .insideLoop => "inside a loop"

inductive ContextVerdict where
  | eligible
  | ineligible (reason : IneligibleReason)
deriving Repr, DecidableEq

def Node.isLoop : Node → Bool
  | .stmt s =>
    match s.kind with
    | .forLoop _ _ _ _ | .forEach _ _ _ _ | .whileLoop _ _ | .doWhile _ _ => true
    | _ => false
  | _ => false

namespace Site

def isInLoop (s : Site) (t : SyntaxTree) (f : Function) : Bool :=
  ((t.ancestors s.expr.id).takeWhile (·.id != f.member.id)).any Node.isLoop

def context (s : Site) (t : SyntaxTree) : ContextVerdict :=
  match s.function with
  | none => .ineligible .noEnclosingFunction
  | some f =>
    if f.modifiers.contains .asyncMod then .ineligible .asyncFunction
    else if s.isInLoop t f then .ineligible .insideLoop
    else .eligible

end Site

end Stackable
