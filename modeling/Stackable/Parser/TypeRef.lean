import Stackable.Parser.State

/-!
# Reading types
-/

set_option autoImplicit false

namespace Stackable.Parse

def typeArgs (r : Rules) : Parse (List TypeRef) := do
  expect .lt
  let args ← loop (fun args => do
    let args := args ++ [← r.type]
    if ← pendingGt then return .inr args
    else if ← accept .comma then return .inl args
    else return .inr args) []
  expectClosingAngle
  return args

/-- A dotted name; type arguments count for its last part only. -/
def namedType (r : Rules) : Parse (TypeRefKind TypeRef) := do
  let first ← expectName
  let first ← if ← accept .colonColon then expectName else pure first
  loop (fun (path, args) => do
    let args ← if ← check .lt then typeArgs r else pure args
    if !(← pendingGt) && (← check .dot) && (← peekKind 1).isIdent then
      let _ ← advance
      return .inl (path ++ [← expectName], [])
    else return .inr (.named path args)) ([first], [])

def typeMarks (start : Nat) (type : TypeRef) : Parse TypeRef :=
  loop (fun type => do
    if ← pendingGt then return .inr type
    else if ← accept .question then return .inl ⟨.nullable type, ← spanFrom start⟩
    else if ← accept .star then return .inl ⟨.pointer type, ← spanFrom start⟩
    else return .inr type) type

def nonArrayType (r : Rules) : Parse TypeRef := do
  let start ← currentStart
  let kind ← match (← currentKind).predefined? with
    | some p => do
      let _ ← advance
      pure (.predefined p)
    | none =>
      if (← currentKind).isIdent then namedType r else failExpected .type
  typeMarks start ⟨kind, ← spanFrom start⟩

def rankSpecifiers : Parse (List Nat) :=
  loop (fun ranks => do
    if !(← pendingGt) && (Tokens.scanRankSpecifier (← remaining)).isSome then
      let _ ← advance
      let commas ← countCommas
      expect .rBracket
      return .inl (ranks ++ [commas + 1])
    else return .inr ranks) []

def type (r : Rules) : Parse TypeRef := do
  let start ← currentStart
  let element ← nonArrayType r
  let ranks ← rankSpecifiers
  if ranks.isEmpty then return element
  else
    let array : TypeRef := ⟨.array element ranks, ← spanFrom start⟩
    if ← pendingGt then return array
    else if ← accept .question then return ⟨.nullable array, ← spanFrom start⟩
    else return array

end Stackable.Parse
