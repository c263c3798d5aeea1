import Stackable.Token.Basic

/-!
# Looking ahead

Questions about the tokens that come next, answered without reading them. A scan gives the tokens
behind the construct it recognises.
-/

set_option autoImplicit false

namespace Stackable

namespace Tokens

def kind : List Token → TokenKind
  | [] => .eof
  | t :: _ => t.kind

def inTypeArgs (k : TokenKind) : Bool :=
  k.isIdent || k.isPredefined || k.isPunct .comma || k.isPunct .dot || k.isPunct .question ||
    k.isPunct .star || k.isPunct .lBracket || k.isPunct .rBracket || k.isPunct .colonColon

/-- What follows the `>` that closes the `depth` open type argument lists; `>>` closes two. -/
def scanTypeArgs (depth : Nat) : List Token → Option (List Token)
  | [] => none
  | t :: ts =>
    match t.kind with
    | .punct .lt => scanTypeArgs (depth + 1) ts
    | .punct .gt => if depth ≤ 1 then some ts else scanTypeArgs (depth - 1) ts
    | .punct .gtGt =>
      if depth ≤ 1 then none else if depth = 2 then some ts else scanTypeArgs (depth - 2) ts
    | k => if inTypeArgs k then scanTypeArgs depth ts else none

theorem length_scanTypeArgs_lt {depth : Nat} {ts rest : List Token}
    (h : scanTypeArgs depth ts = some rest) : rest.length < ts.length := by
  induction ts generalizing depth with
  | nil => simp [scanTypeArgs] at h
  | cons t ts ih =>
    rw [scanTypeArgs] at h
    split at h
    · have := ih h
      simp; omega
    · split at h
      · simp_all
      · have := ih h
        simp; omega
    · split at h
      · simp at h
      · split at h
        · simp_all
        · have := ih h
          simp; omega
    · split at h
      · have := ih h
        simp; omega
      · simp at h

def scanRank : List Token → Option (List Token)
  | [] => none
  | t :: ts =>
    match t.kind with
    | .punct .comma => scanRank ts
    | .punct .rBracket => some ts
    | _ => none

def scanRankSpecifier : List Token → Option (List Token)
  | [] => none
  | t :: ts => if t.kind.isPunct .lBracket then scanRank ts else none

theorem length_scanRank_lt {ts rest : List Token} (h : scanRank ts = some rest) :
    rest.length < ts.length := by
  induction ts with
  | nil => simp [scanRank] at h
  | cons t ts ih =>
    rw [scanRank] at h
    split at h
    · have := ih h
      simp; omega
    · simp_all
    · simp at h

def scanOptionalArgs (ts : List Token) : Option (List Token) :=
  if (kind ts).isPunct .lt then scanTypeArgs 1 (ts.drop 1) else some ts

theorem length_scanOptionalArgs_le {ts rest : List Token} (h : scanOptionalArgs ts = some rest) :
    rest.length ≤ ts.length := by
  unfold scanOptionalArgs at h
  split at h
  · have := length_scanTypeArgs_lt h
    simp at this
    omega
  · cases h
    exact Nat.le_refl _

def startsMemberName (ts : List Token) : Bool :=
  (kind ts).isPunct .dot && (kind (ts.drop 1)).isIdent

theorem length_pos_of_startsMemberName {ts : List Token} (h : startsMemberName ts = true) :
    0 < ts.length := by
  cases ts with
  | nil => simp [startsMemberName, kind, TokenKind.isPunct] at h
  | cons => simp

/-- What follows the type arguments and further `.`-names of a type's name. -/
def scanNameTail (ts : List Token) : Option (List Token) :=
  match h : scanOptionalArgs ts with
  | none => none
  | some rest =>
    if dot : startsMemberName rest then
      have := length_scanOptionalArgs_le h
      have := length_pos_of_startsMemberName dot
      scanNameTail (rest.drop 2)
    else some rest
termination_by ts.length
decreasing_by simp; omega

def scanTypeMarks : List Token → List Token
  | [] => []
  | t :: ts =>
    match t.kind with
    | .punct .question | .punct .star => scanTypeMarks ts
    | .punct .lBracket =>
      match h : scanRank ts with
      | some rest =>
        have := length_scanRank_lt h
        scanTypeMarks rest
      | none => t :: ts
    | _ => t :: ts
termination_by ts => ts.length

def scanType : List Token → Option (List Token)
  | [] => none
  | t :: ts =>
    if t.kind.isPredefined then some (scanTypeMarks ts)
    else if t.kind.isIdent then
      let qualified := (kind ts).isPunct .colonColon && (kind (ts.drop 1)).isIdent
      (scanNameTail (if qualified then ts.drop 2 else ts)).map scanTypeMarks
    else none

def startsLocalDecl (ts : List Token) : Bool :=
  match scanType ts with
  | some rest =>
    let next := kind (rest.drop 1)
    (kind rest).isIdent && (next.isPunct .eq || next.isPunct .semi || next.isPunct .comma)
  | none => false

def startsOperand (k : TokenKind) : Bool :=
  match k with
  | .ident _ | .int _ _ | .real _ _ | .string _ | .char _ | .bool _ => true
  | .keyword w =>
    w.predefined?.isSome || w == .nullKw || w == .thisKw || w == .baseKw || w == .newKw ||
      w == .typeofKw || w == .sizeofKw || w == .defaultKw
  | .punct p => p == .lParen
  | .eof => false

/-- The tokens behind `(`: a type and `)`, and then something that a cast applies to. A keyword
type needs nothing behind it. -/
def startsCast (ts : List Token) : Bool :=
  match scanType ts with
  | some rest =>
    let next := kind (rest.drop 1)
    (kind rest).isPunct .rParen &&
      ((kind ts).isPredefined || startsOperand next || next.isPunct .bang || next.isPunct .tilde)
  | none => false

/-- The tokens behind a name: type arguments, and then `(` or `.` -/
def startsGenericArgs (ts : List Token) : Bool :=
  (kind ts).isPunct .lt &&
    match scanTypeArgs 1 (ts.drop 1) with
    | some rest => (kind rest).isPunct .lParen || (kind rest).isPunct .dot
    | none => false

/-- What makes `async` or `partial` a modifier: a type, a name or another modifier behind it. -/
def continuesModifiers (k : TokenKind) : Bool :=
  k.isPredefined || k.isModifier || k.isIdent || k.isKeyword .classKw || k.isKeyword .structKw ||
    k.isKeyword .interfaceKw || k.isKeyword .recordKw

def startsOutVariable (ts : List Token) : Bool :=
  match scanType ts with
  | some rest =>
    let next := kind (rest.drop 1)
    (kind rest).isIdent && (next.isPunct .comma || next.isPunct .rParen)
  | none => false

/-! ## Where reading goes on after an error -/

def toDecl (depth : Nat) : List Token → Nat
  | [] => 0
  | t :: ts =>
    match t.kind with
    | .eof => 0
    | .punct .lBrace => 1 + toDecl (depth + 1) ts
    | .punct .rBrace => if depth = 1 then 1 else 1 + toDecl (depth - 1) ts
    | .keyword w =>
      if depth = 0 && startsDecl w then 0 else 1 + toDecl depth ts
    | _ => 1 + toDecl depth ts
where
  startsDecl (w : Keyword) : Bool :=
    w == .classKw || w == .structKw || w == .interfaceKw || w == .enumKw || w == .recordKw ||
      w == .namespaceKw || w == .usingKw || w == .publicKw || w == .internalKw

/-- Tokens up to the end of a member: through its `;` or its braces, or up to the brace that
closes the type. -/
def toMember (depth : Nat) : List Token → Nat
  | [] => 0
  | t :: ts =>
    match t.kind with
    | .eof => 0
    | .punct .lBrace => 1 + toMember (depth + 1) ts
    | .punct .rBrace =>
      if depth = 0 then 0 else if depth = 1 then 1 else 1 + toMember (depth - 1) ts
    | .punct .semi => if depth = 0 then 1 else 1 + toMember depth ts
    | _ => 1 + toMember depth ts

def toStmt : List Token → Nat
  | [] => 0
  | t :: ts =>
    match t.kind with
    | .eof | .punct .rBrace => 0
    | .punct .semi => 1
    | .keyword w => if startsStmt w then 0 else 1 + toStmt ts
    | _ => 1 + toStmt ts
where
  startsStmt (w : Keyword) : Bool :=
    w == .returnKw || w == .ifKw || w == .whileKw || w == .forKw || w == .foreachKw ||
      w == .doKw || w == .tryKw || w == .throwKw || w == .constKw

def toClosingBrace (depth : Nat) : List Token → Nat
  | [] => 0
  | t :: ts =>
    match t.kind with
    | .eof => 0
    | .punct .lBrace => 1 + toClosingBrace (depth + 1) ts
    | .punct .rBrace => if depth ≤ 1 then 0 else 1 + toClosingBrace (depth - 1) ts
    | _ => 1 + toClosingBrace depth ts

/-- Tokens through the bracket that closes the `depth` open ones, and whether there is one. -/
def toClosingBracket (depth : Nat) : List Token → Nat × Bool
  | [] => (0, false)
  | t :: ts =>
    match t.kind with
    | .eof => (0, false)
    | .punct .lBracket => (toClosingBracket (depth + 1) ts).map (1 + ·) id
    | .punct .rBracket =>
      if depth ≤ 1 then (1, true) else (toClosingBracket (depth - 1) ts).map (1 + ·) id
    | _ => (toClosingBracket depth ts).map (1 + ·) id

def toBody : List Token → Nat
  | [] => 0
  | t :: ts =>
    match t.kind with
    | .eof | .punct .lBrace | .punct .fatArrow | .punct .semi => 0
    | _ => 1 + toBody ts

end Tokens

end Stackable
