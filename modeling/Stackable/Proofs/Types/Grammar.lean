import Stackable.Parser.State

/-!
# The grammar of written types

Which tokens spell a type, said apart from any reader. A `>>` counts as two `>`, so that each list of
type arguments is closed by a mark of its own. A written type has a place, which the tokens leave
open: `TypeRef.bare` forgets it.
-/

set_option autoImplicit false

namespace Stackable

/-- What a token counts for; a `>>` is two `>`. -/
def TokenKind.halves : TokenKind → List TokenKind
  | .punct .gtGt => [.punct .gt, .punct .gt]
  | k => [k]

theorem TokenKind.halves_of_ne {k : TokenKind} (h : k ≠ .punct .gtGt) : k.halves = [k] := by
  cases k with
  | punct p => cases p <;> first | rfl | exact absurd rfl h
  | _ => rfl

def Tokens.halves (ts : List Token) : List TokenKind := ts.flatMap (·.kind.halves)

theorem Tokens.halves_cons (x : Token) (ts : List Token) :
    halves (x :: ts) = x.kind.halves ++ halves ts := List.flatMap_cons

theorem Tokens.halves_append (front back : List Token) :
    halves (front ++ back) = halves front ++ halves back := List.flatMap_append

/-- The marks that are still to be read, half of a `>>` included. -/
def ParseState.ahead (s : ParseState) : List TokenKind :=
  if s.pendingGt then .punct .gt :: Tokens.halves s.rest else Tokens.halves s.rest

namespace TypeRef

mutual

def bare : TypeRef → TypeRef
  | ⟨.predefined p, _⟩ => ⟨.predefined p, ⟨0, 0⟩⟩
  | ⟨.named path args, _⟩ => ⟨.named path (bareArgs args), ⟨0, 0⟩⟩
  | ⟨.array element ranks, _⟩ => ⟨.array element.bare ranks, ⟨0, 0⟩⟩
  | ⟨.pointer inner, _⟩ => ⟨.pointer inner.bare, ⟨0, 0⟩⟩
  | ⟨.nullable inner, _⟩ => ⟨.nullable inner.bare, ⟨0, 0⟩⟩

def bareArgs : List TypeRef → List TypeRef
  | [] => []
  | x :: xs => x.bare :: bareArgs xs

end

theorem bareArgs_append (xs ys : List TypeRef) :
    bareArgs (xs ++ ys) = bareArgs xs ++ bareArgs ys := by
  induction xs with
  | nil => simp [bareArgs]
  | cons x xs ih => simp [bareArgs, ih]

end TypeRef

/-- The marks of a rank specifier. -/
def rankMarks (dimensions : Nat) : List TokenKind :=
  .punct .lBracket :: (List.replicate (dimensions - 1) (.punct .comma) ++ [.punct .rBracket])

/-- The parts of which a written type is made. -/
inductive Phrase where
  /-- One type argument or more. -/
  | args (args : List TypeRef)
  /-- A list of type arguments, or nothing. -/
  | argList (args : List TypeRef)
  /-- What follows the name that ends the path `start`, up to the end of the whole name. -/
  | tail (start path : List String) (args : List TypeRef)
  /-- A keyword or a name. -/
  | simple (x : TypeRef)
  /-- The `?` and `*` that make `y` of `x`. -/
  | marks (x y : TypeRef)
  /-- A type without rank specifiers. -/
  | element (x : TypeRef)
  | type (x : TypeRef)

inductive Phrase.Spelled : Phrase → List TokenKind → Prop where
  | lastArg {x : TypeRef} {w : List TokenKind} (type : Spelled (.type x) w) : Spelled (.args [x]) w
  | moreArgs {x : TypeRef} {xs : List TypeRef} {w v : List TokenKind} (type : Spelled (.type x) w)
      (rest : Spelled (.args xs) v) : Spelled (.args (x :: xs)) (w ++ .punct .comma :: v)
  | noList : Spelled (.argList []) []
  | list {xs : List TypeRef} {w : List TokenKind} (args : Spelled (.args xs) w) :
      Spelled (.argList xs) (.punct .lt :: (w ++ [.punct .gt]))
  | ends {path : List String} {args : List TypeRef} {w : List TokenKind}
      (list : Spelled (.argList args) w) : Spelled (.tail path path args) w
  /-- Type arguments count for the last part of a name only. -/
  | member {start path : List String} {name : String} {passed args : List TypeRef}
      {w v : List TokenKind} (list : Spelled (.argList passed) w)
      (rest : Spelled (.tail (start ++ [name]) path args) v) :
      Spelled (.tail start path args) (w ++ .punct .dot :: .ident name :: v)
  | predefined (p : PredefinedType) (span : Span) :
      Spelled (.simple ⟨.predefined p, span⟩) [.keyword p.keyword]
  | named {name : String} {path : List String} {args : List TypeRef} {w : List TokenKind} (span : Span)
      (tail : Spelled (.tail [name] path args) w) :
      Spelled (.simple ⟨.named path args, span⟩) (.ident name :: w)
  /-- What a name is looked up in counts for nothing. -/
  | qualified {root name : String} {path : List String} {args : List TypeRef} {w : List TokenKind}
      (span : Span) (tail : Spelled (.tail [name] path args) w) :
      Spelled (.simple ⟨.named path args, span⟩) (.ident root :: .punct .colonColon :: .ident name :: w)
  | unmarked (x : TypeRef) : Spelled (.marks x x) []
  | nullable {x y : TypeRef} {w : List TokenKind} (span : Span)
      (rest : Spelled (.marks ⟨.nullable x, span⟩ y) w) : Spelled (.marks x y) (.punct .question :: w)
  | pointer {x y : TypeRef} {w : List TokenKind} (span : Span)
      (rest : Spelled (.marks ⟨.pointer x, span⟩ y) w) : Spelled (.marks x y) (.punct .star :: w)
  | element {x y : TypeRef} {w v : List TokenKind} (simple : Spelled (.simple x) w)
      (marks : Spelled (.marks x y) v) : Spelled (.element y) (w ++ v)
  | plain {x : TypeRef} {w : List TokenKind} (element : Spelled (.element x) w) : Spelled (.type x) w
  | array {x : TypeRef} {ranks : List Nat} {w : List TokenKind} (span : Span)
      (element : Spelled (.element x) w) (some : ranks ≠ []) (positive : ∀ n ∈ ranks, 0 < n) :
      Spelled (.type ⟨.array x ranks, span⟩) (w ++ ranks.flatMap rankMarks)
  | nullableArray {x : TypeRef} {ranks : List Nat} {w : List TokenKind} (inner span : Span)
      (element : Spelled (.element x) w) (some : ranks ≠ []) (positive : ∀ n ∈ ranks, 0 < n) :
      Spelled (.type ⟨.nullable ⟨.array x ranks, inner⟩, span⟩)
        (w ++ ranks.flatMap rankMarks ++ [.punct .question])

end Stackable
