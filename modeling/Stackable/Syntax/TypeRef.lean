import Stackable.Token.Basic

/-!
# Types as they are written

A written type is a keyword, or a dotted name with type arguments, followed by marks for
nullability, pointers and array ranks.
-/

set_option autoImplicit false

namespace Stackable

/-- One layer of a written type over its parts `τ`. -/
inductive TypeRefKind (τ : Type) where
  | predefined (keyword : PredefinedType)
  | named (path : List String) (args : List τ)
  /-- Each rank is the dimension count of one bracket pair: `int[][,]` has the ranks 1 and 2. -/
  | array (element : τ) (ranks : List Nat)
  | pointer (inner : τ)
  | nullable (inner : τ)
deriving Repr

structure TypeRef where
  kind : TypeRefKind TypeRef
  span : Span
deriving Repr

instance : Inhabited TypeRef := ⟨⟨.named [] [], ⟨0, 0⟩⟩⟩

namespace TypeRef

def isVar (t : TypeRef) : Bool :=
  match t.kind with
  | .named ["var"] [] => true
  | _ => false

def rankText (dimensions : Nat) : String := "[" ++ "".pushn ',' (dimensions - 1) ++ "]"

mutual

def text : TypeRef → String
  | ⟨.predefined p, _⟩ => p.keyword.text
  | ⟨.named path args, _⟩ =>
    String.intercalate "." path ++ (if args.isEmpty then "" else "<" ++ argsText args ++ ">")
  | ⟨.array element ranks, _⟩ => element.text ++ String.join (ranks.map rankText)
  | ⟨.pointer inner, _⟩ => inner.text ++ "*"
  | ⟨.nullable inner, _⟩ => inner.text ++ "?"

def argsText : List TypeRef → String
  | [] => ""
  | [t] => t.text
  | t :: ts => t.text ++ ", " ++ argsText ts

end

end TypeRef

end Stackable
