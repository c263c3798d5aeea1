import Stackable.Allocation.Site

/-!
# Whether an array can leave its frame

An array escapes where the local it is bound to is itself returned, passed to a call or to a
constructor, or assigned. The test is by name: every use in the whole function counts, and a
larger expression around the name hides it.
-/

set_option autoImplicit false

namespace Stackable

structure EscapeEvidence where
  isReturned : Bool
  isCallArgument : Bool
  isConstructionArgument : Bool
  isAssigned : Bool
deriving Repr, DecidableEq

def EscapeEvidence.none : EscapeEvidence := ⟨false, false, false, false⟩

def EscapeEvidence.escapes (e : EscapeEvidence) : Bool :=
  e.isReturned || e.isCallArgument || e.isConstructionArgument || e.isAssigned

inductive EscapeVerdict where
  | confined
  /-- Without evidence if the array is bound to no local. -/
  | escaping (evidence : EscapeEvidence)
deriving Repr, DecidableEq

/-- The expression is the name, parentheses apart. -/
def Expr.isName (name : String) (e : Expr) : Bool := e.unparenthesized.ident? == some name

def Argument.passesName (name : String) (args : List (Argument Expr)) : Bool :=
  args.any (·.expr.isName name)

namespace Node

def returnsName (name : String) : Node → Bool
  | .stmt ⟨_, .ret (some value), _⟩ => value.isName name
  | _ => false

def callsWithName (name : String) : Node → Bool
  | .expr ⟨_, .invocation _ args, _⟩ => Argument.passesName name args
  | _ => false

def constructsWithName (name : String) : Node → Bool
  | .expr ⟨_, .objectCreation _ args _, _⟩ => Argument.passesName name args
  | _ => false

def assignsName (name : String) : Node → Bool
  | .expr ⟨_, .assign _ _ value, _⟩ => value.isName name
  | _ => false

end Node

def EscapeEvidence.ofNodes (name : String) (nodes : List Node) : EscapeEvidence :=
  ⟨nodes.any (Node.returnsName name), nodes.any (Node.callsWithName name),
    nodes.any (Node.constructsWithName name), nodes.any (Node.assignsName name)⟩

abbrev EscapeProver := Site → EscapeVerdict

/-- Looks at every use of the local in the whole function, whatever the control flow. -/
def Site.escape : EscapeProver := fun s =>
  match s.localVar, s.function with
  | some d, some f =>
    let evidence := EscapeEvidence.ofNodes d.name (Node.member f.member).descendants
    if evidence.escapes then .escaping evidence else .confined
  | _, _ => .escaping .none

end Stackable
