import Stackable.Parser.Lookahead
import Stackable.Proofs.Precedence.Term

/-!
# Looking ahead into a written term

Behind a name no list of type arguments starts, since what follows a `<` is closed by `)` first.
Behind an opening parenthesis no cast starts: a type read there ends in front of an operator, not
of the closing parenthesis.
-/

set_option autoImplicit false

namespace Stackable

namespace Tokens

/-- The tokens in front of `rest` have the given kinds. -/
def Spells (kinds : List TokenKind) (ts rest : List Token) : Prop :=
  ∃ read, ts = read ++ rest ∧ read.map (·.kind) = kinds

variable {kinds : List TokenKind} {k : TokenKind} {ts rest : List Token}

theorem spells_cons :
    Spells (k :: kinds) ts rest ↔ ∃ x tail, ts = x :: tail ∧ x.kind = k ∧ Spells kinds tail rest := by
  constructor
  · rintro ⟨read, rfl, hKinds⟩
    obtain ⟨x, tail, rfl, hx, hTail⟩ := List.map_eq_cons_iff.mp hKinds
    exact ⟨x, tail ++ rest, rfl, hx, tail, rfl, hTail⟩
  · rintro ⟨x, tail, rfl, rfl, read, rfl, rfl⟩
    exact ⟨x :: read, rfl, rfl⟩

theorem spells_append {more : List TokenKind} :
    Spells (kinds ++ more) ts rest ↔ ∃ mid, Spells kinds ts mid ∧ Spells more mid rest := by
  constructor
  · rintro ⟨read, rfl, hKinds⟩
    obtain ⟨front, back, rfl, hFront, hBack⟩ := List.map_eq_append_iff.mp hKinds
    exact ⟨back ++ rest, ⟨front, List.append_assoc .., hFront⟩, back, rfl, hBack⟩
  · rintro ⟨mid, ⟨front, rfl, hFront⟩, back, rfl, hBack⟩
    exact ⟨front ++ back, (List.append_assoc ..).symm, by rw [List.map_append, hFront, hBack]⟩

theorem spells_singleton : Spells [k] ts rest ↔ ∃ x, ts = x :: rest ∧ x.kind = k := by
  rw [spells_cons]
  constructor
  · rintro ⟨x, tail, rfl, hx, read, rfl, hRead⟩
    rw [List.map_eq_nil_iff.mp hRead]
    exact ⟨x, rfl, hx⟩
  · rintro ⟨x, rfl, hx⟩
    exact ⟨x, rest, rfl, hx, [], rfl, rfl⟩

theorem Spells.length_eq (h : Spells kinds ts rest) : ts.length = kinds.length + rest.length := by
  obtain ⟨read, rfl, rfl⟩ := h
  rw [List.length_append, List.length_map]

end Tokens

theorem BinOp.level_le_leftLevel (op : BinOp) : op.level ≤ op.leftLevel := by
  unfold leftLevel
  split <;> omega

namespace Tokens

/-- Tokens of these kinds end no list of type arguments that is open in front of them. -/
def Transparent (kinds : List TokenKind) : Prop :=
  ∀ ts rest, Spells kinds ts rest →
    scanTypeArgs 1 ts = none ∨ scanTypeArgs 1 ts = scanTypeArgs 1 rest

variable {kinds more : List TokenKind} {k : TokenKind}

theorem Transparent.nil : Transparent [] := by
  rintro ts rest ⟨read, rfl, hRead⟩
  rw [List.map_eq_nil_iff.mp hRead]
  exact .inr rfl

theorem Transparent.pass
    (hk : ∀ span ts, scanTypeArgs 1 (⟨k, span⟩ :: ts) = scanTypeArgs 1 ts)
    (h : Transparent kinds) : Transparent (k :: kinds) := by
  intro ts rest hs
  obtain ⟨x, tail, rfl, rfl, hTail⟩ := spells_cons.mp hs
  rw [hk x.span tail]
  exact h tail rest hTail

theorem Transparent.stop (hk : ∀ span ts, scanTypeArgs 1 (⟨k, span⟩ :: ts) = none) :
    Transparent (k :: kinds) := by
  intro ts rest hs
  obtain ⟨x, tail, rfl, rfl, _⟩ := spells_cons.mp hs
  exact .inl (hk x.span tail)

theorem Transparent.append (h : Transparent kinds) (next : Transparent more) :
    Transparent (kinds ++ more) := by
  intro ts rest hs
  obtain ⟨mid, hs, hNext⟩ := spells_append.mp hs
  rcases h ts mid hs with h | h
  · exact .inl h
  · rw [h]
    exact next mid rest hNext

end Tokens

namespace Term

open Tokens

theorem le_level_of_needsParens {q : Nat} {t : Term} (h : t.needsParens q = false) :
    q ≤ t.level ∧ t.isLess = false := by
  simpa [needsParens] using h

theorem transparent_renderAt {q : Nat} {t : Term} (h : q ≤ t.level → Transparent t.body) :
    Transparent (t.renderAt q) := by
  unfold renderAt parenthesize
  split
  next => exact .stop fun _ _ => rfl
  next hParens => exact h (le_level_of_needsParens (Bool.eq_false_iff.mpr hParens)).1

/-- An operand of `<` holds no `>` that would close type arguments. -/
theorem transparent_body (t : Term) (h : BinOp.lt.rightLevel ≤ t.level) : Transparent t.body := by
  induction t with
  | name n _ => exact .pass (fun _ _ => rfl) .nil
  | int value suffix => exact .stop fun _ _ => rfl
  | unary op operand ih =>
    have inner : Transparent (operand.renderAt Level.prefixed) :=
      transparent_renderAt fun hLevel => ih (Nat.le_trans (by decide) hLevel)
    cases op with
    | deref => exact .pass (fun _ _ => rfl) inner
    | _ => exact .stop fun _ _ => rfl
  | suffixed op operand ih =>
    apply Transparent.append
    · exact transparent_renderAt fun hLevel => ih (Nat.le_trans (by decide) hLevel)
    · cases op <;> exact .stop fun _ _ => rfl
  | binary op left right ihl ihr =>
    -- Only shifts and what binds tighter stand bare beside a `<`. Of these the scan goes on behind
    -- `*` alone, which may be the mark of a pointer.
    have hShift : 10 ≤ op.level := h
    apply Transparent.append
    · apply transparent_renderAt
      intro hLevel
      exact ihl (Nat.le_trans h (Nat.le_trans op.level_le_leftLevel hLevel))
    · cases op with
      | mul =>
        apply Transparent.pass fun _ _ => rfl
        apply transparent_renderAt
        intro hLevel
        exact ihr (Nat.le_trans (by decide) hLevel)
      | shl | shr | add | sub | div | mod => exact .stop fun _ _ => rfl
      | _ => exact absurd hShift (by decide)
  | conditional cond whenTrue whenFalse =>
    have hShift : 10 ≤ Level.conditional := h
    exact absurd hShift (by decide)
  | assign op target value =>
    have hShift : 10 ≤ 0 := h
    exact absurd hShift (by decide)

theorem scanTypeArgs_less {t : Term} {ts rest : List Token}
    (h : Spells (t.renderAt BinOp.lt.rightLevel) ts rest) (hRest : kind rest = .punct .rParen) :
    scanTypeArgs 1 ts = none := by
  have hClosed : scanTypeArgs 1 rest = none := by
    cases rest with
    | nil => cases hRest
    | cons x rest =>
      change x.kind = _ at hRest
      rw [scanTypeArgs, hRest]
      rfl
  rcases transparent_renderAt (t.transparent_body ·) ts rest h with hNone | hSame
  · exact hNone
  · rw [hSame, hClosed]

end Term

theorem Tokens.startsGenericArgs_of_ne {ts : List Token} (h : (kind ts).isPunct .lt = false) :
    startsGenericArgs ts = false := by
  rw [startsGenericArgs, h, Bool.false_and]

theorem Tokens.startsGenericArgs_of_none {x : Token} {ts : List Token}
    (h : scanTypeArgs 1 ts = none) : startsGenericArgs (x :: ts) = false := by
  rw [startsGenericArgs, List.drop_succ_cons, List.drop_zero, h, Bool.and_false]

namespace Tokens

/-- Behind what stands in front of the tokens as marks of a type, there is no `)`. -/
def Unclosed (ts : List Token) : Prop := (kind (scanTypeMarks ts)).isPunct .rParen = false

/-- A type that starts here, if one does, is not followed by `)`. -/
def NoCast (ts : List Token) : Prop :=
  ∀ rest, scanType ts = some rest → (kind rest).isPunct .rParen = false

theorem NoCast.startsCast_eq_false {ts : List Token} (h : NoCast ts) : startsCast ts = false := by
  unfold startsCast
  split
  next rest hScan => rw [h rest hScan, Bool.false_and]
  next => rfl

/-- Behind a name, no type goes on up to a `)`. -/
def NoCastTail (ts : List Token) : Prop :=
  (kind ts).isPunct .colonColon = false ∧ ∀ rest, scanNameTail ts = some rest → Unclosed rest

variable {x : Token} {m : Punct} {ts : List Token}

theorem scanNameTail_of_ne (hlt : (kind ts).isPunct .lt = false)
    (hdot : (kind ts).isPunct .dot = false) : scanNameTail ts = some ts := by
  have hArgs : scanOptionalArgs ts = some ts := by
    rw [scanOptionalArgs, if_neg (Bool.eq_false_iff.mp hlt)]
  have hMember : startsMemberName ts = false := by
    rw [startsMemberName, hdot, Bool.false_and]
  fun_cases scanNameTail ts with
  | case1 h =>
    rw [hArgs] at h
    cases h
  | case2 rest h dot =>
    rw [hArgs] at h
    cases h
    rw [hMember] at dot
    cases dot
  | case3 rest h dot =>
    rw [hArgs] at h
    exact h.symm

theorem scanNameTail_of_lt (hlt : x.kind = .punct .lt) (h : scanTypeArgs 1 ts = none) :
    scanNameTail (x :: ts) = none := by
  have hArgs : scanOptionalArgs (x :: ts) = none := by
    rw [scanOptionalArgs, kind, hlt]
    exact h
  fun_cases scanNameTail (x :: ts) with
  | case1 h => rfl
  | case2 rest h dot | case3 rest h dot =>
    rw [hArgs] at h
    cases h

theorem noCast_ident {n : String} (hx : x.kind = .ident n) (h : NoCastTail ts) :
    NoCast (x :: ts) := by
  have hType : scanType (x :: ts) = (scanNameTail ts).map scanTypeMarks := by
    simp [scanType, hx, TokenKind.isPredefined, TokenKind.predefined?, TokenKind.isIdent, h.1]
  intro rest hScan
  rw [hType] at hScan
  obtain ⟨tail, hTail, rfl⟩ := Option.map_eq_some_iff.mp hScan
  exact h.2 tail hTail

/-- Neither a name nor a keyword comes first. -/
theorem noCast_of_not_name (hPredefined : x.kind.isPredefined = false) (hName : x.kind.isIdent = false) :
    NoCast (x :: ts) := by
  intro rest hScan
  rw [scanType, hPredefined, if_neg Bool.false_ne_true, hName, if_neg Bool.false_ne_true] at hScan
  cases hScan

theorem unclosed_of_pass (hm : x.kind = .punct m) (hPass : m = .question ∨ m = .star)
    (h : Unclosed ts) : Unclosed (x :: ts) := by
  unfold Unclosed at h ⊢
  rw [scanTypeMarks, hm]
  rcases hPass with rfl | rfl <;> exact h

theorem unclosed_of_stop {k : TokenKind} (hx : x.kind = k)
    (hPass : ∀ m, k = .punct m → m ≠ .question ∧ m ≠ .star ∧ m ≠ .lBracket)
    (hClose : k.isPunct .rParen = false) : Unclosed (x :: ts) := by
  subst hx
  have hMarks : scanTypeMarks (x :: ts) = x :: ts := by
    rw [scanTypeMarks]
    split
    next hm => exact absurd rfl (hPass _ hm).1
    next hm => exact absurd rfl (hPass _ hm).2.1
    next hm => exact absurd rfl (hPass _ hm).2.2
    next => rfl
  rw [Unclosed, hMarks]
  exact hClose

/-- An operator behind a name is no part of a type, or a mark in front of an operand. -/
theorem noCastTail_of_operator (hm : x.kind = .punct m)
    (hOther : m ≠ .lt ∧ m ≠ .dot ∧ m ≠ .colonColon ∧ m ≠ .rParen ∧ m ≠ .lBracket)
    (h : m = .question ∨ m = .star → Unclosed ts) : NoCastTail (x :: ts) := by
  obtain ⟨hlt, hdot, hcolon, hclose, hbracket⟩ := hOther
  have hKind : ∀ p, m ≠ p → (kind (x :: ts)).isPunct p = false := by
    intro p hp
    rw [kind, hm, TokenKind.isPunct, beq_eq_false_iff_ne]
    exact hp
  constructor
  · exact hKind _ hcolon
  · intro rest hRest
    rw [scanNameTail_of_ne (hKind _ hlt) (hKind _ hdot)] at hRest
    cases hRest
    by_cases hPass : m = .question ∨ m = .star
    · exact unclosed_of_pass hm hPass (h hPass)
    · apply unclosed_of_stop rfl _ (hKind _ hclose)
      intro m' hm'
      rw [hm] at hm'
      cases hm'
      exact ⟨fun h => hPass (.inl h), fun h => hPass (.inr h), hbracket⟩

theorem noCastTail_of_less (hm : x.kind = .punct .lt) (h : scanTypeArgs 1 ts = none) :
    NoCastTail (x :: ts) := by
  constructor
  · rw [kind, hm]
    rfl
  · intro rest hRest
    rw [scanNameTail_of_lt hm h] at hRest
    cases hRest

end Tokens

namespace Term

open Tokens

variable {t : Term} {q : Nat} {ts rest : List Token}

theorem unclosed_renderAt_of_body (body : ∀ rest, Spells t.body ts rest → Unclosed ts)
    (h : Spells (t.renderAt q) ts rest) : Unclosed ts := by
  unfold renderAt parenthesize at h
  split at h
  next =>
    obtain ⟨x, tail, rfl, hx, _⟩ := spells_cons.mp h
    apply unclosed_of_stop hx _ rfl
    rintro m ⟨⟩
    decide
  next => exact body rest h

/-- A term starts with an operand, after operators that may be marks of a type. -/
theorem unclosed_body (h : Spells t.body ts rest) : Unclosed ts := by
  induction t generalizing ts rest with
  | name n _ | int value suffix =>
    obtain ⟨x, rfl, hx⟩ := spells_singleton.mp h
    apply unclosed_of_stop hx _ rfl
    rintro m ⟨⟩
  | unary op operand ih =>
    obtain ⟨x, tail, rfl, hx, hOperand⟩ := spells_cons.mp h
    have inner : Unclosed tail := unclosed_renderAt_of_body (fun _ => ih) hOperand
    cases op with
    | deref => exact unclosed_of_pass hx (.inr rfl) inner
    | _ =>
      apply unclosed_of_stop hx _ rfl
      rintro m ⟨⟩
      decide
  | suffixed op operand ih =>
    obtain ⟨mid, hOperand, _⟩ := spells_append.mp h
    exact unclosed_renderAt_of_body (fun _ => ih) hOperand
  | binary op left right ih =>
    obtain ⟨mid, hLeft, _⟩ := spells_append.mp h
    exact unclosed_renderAt_of_body (fun _ => ih) hLeft
  | conditional cond whenTrue whenFalse ih =>
    obtain ⟨mid, hCond, _⟩ := spells_append.mp h
    exact unclosed_renderAt_of_body (fun _ => ih) hCond
  | assign op target value ih =>
    obtain ⟨mid, hTarget, _⟩ := spells_append.mp h
    exact unclosed_renderAt_of_body (fun _ => ih) hTarget

theorem unclosed_renderAt (h : Spells (t.renderAt q) ts rest) : Unclosed ts :=
  unclosed_renderAt_of_body (fun _ => unclosed_body) h

theorem noCastTail_binary {op : BinOp} {x : Token} (hx : x.kind = .punct op.mark)
    (h : Spells (t.renderAt op.rightLevel) ts rest)
    (hLess : op = .lt → kind rest = .punct .rParen) : NoCastTail (x :: ts) := by
  by_cases hop : op = .lt
  · subst hop
    exact noCastTail_of_less hx (scanTypeArgs_less h (hLess rfl))
  · apply noCastTail_of_operator hx
    · revert hop
      cases op <;> decide
    · intro _
      exact unclosed_renderAt h

theorem noCast_renderAt_of_body
    (body : (t.isLess = true → kind rest = .punct .rParen) →
      (∀ n hn, t = .name n hn → NoCastTail rest) → Spells t.body ts rest → NoCast ts)
    (h : Spells (t.renderAt q) ts rest) (hTail : NoCastTail rest) : NoCast ts := by
  unfold renderAt parenthesize at h
  split at h
  next =>
    obtain ⟨x, tail, rfl, hx, _⟩ := spells_cons.mp h
    apply noCast_of_not_name <;> rw [hx] <;> rfl
  next hParens =>
    have hLess := (le_level_of_needsParens (Bool.eq_false_iff.mpr hParens)).2
    apply body _ (fun _ _ _ => hTail) h
    intro hTrue
    rw [hLess] at hTrue
    cases hTrue

/-- A term is not the type of a cast, unless it is a name. -/
theorem noCast_body (hLess : t.isLess = true → kind rest = .punct .rParen)
    (hName : ∀ n hn, t = .name n hn → NoCastTail rest) (h : Spells t.body ts rest) : NoCast ts := by
  -- Down the first operands: only a name at the front can start a type, and then what stands
  -- behind that name decides.
  induction t generalizing ts rest with
  | name n hn =>
    obtain ⟨x, rfl, hx⟩ := spells_singleton.mp h
    exact noCast_ident hx (hName n hn rfl)
  | int value suffix =>
    obtain ⟨x, rfl, hx⟩ := spells_singleton.mp h
    apply noCast_of_not_name <;> rw [hx] <;> rfl
  | unary op operand ih =>
    obtain ⟨x, tail, rfl, hx, _⟩ := spells_cons.mp h
    apply noCast_of_not_name <;> rw [hx] <;> rfl
  | suffixed op operand ih =>
    obtain ⟨mid, hOperand, hMark⟩ := spells_append.mp h
    obtain ⟨x, rfl, hx⟩ := spells_singleton.mp hMark
    apply noCast_renderAt_of_body ih hOperand
    apply noCastTail_of_operator hx
    · cases op <;> decide
    · cases op <;> rintro (h | h) <;> cases h
  | binary op left right ih =>
    obtain ⟨mid, hLeft, hMark⟩ := spells_append.mp h
    obtain ⟨x, tail, rfl, hx, hRight⟩ := spells_cons.mp hMark
    apply noCast_renderAt_of_body ih hLeft
    apply noCastTail_binary hx hRight
    rintro rfl
    exact hLess rfl
  | conditional cond whenTrue whenFalse ih =>
    obtain ⟨mid, hCond, hMark⟩ := spells_append.mp h
    obtain ⟨x, tail, rfl, hx, hBranches⟩ := spells_cons.mp hMark
    obtain ⟨_, hWhenTrue, _⟩ := spells_append.mp hBranches
    apply noCast_renderAt_of_body ih hCond
    apply noCastTail_of_operator hx (by decide)
    intro _
    exact unclosed_renderAt (t := whenTrue) (q := 0) hWhenTrue
  | assign op target value ih =>
    obtain ⟨mid, hTarget, hMark⟩ := spells_append.mp h
    obtain ⟨x, tail, rfl, hx, _⟩ := spells_cons.mp hMark
    apply noCast_renderAt_of_body ih hTarget
    apply noCastTail_of_operator hx
    · cases op <;> decide
    · cases op <;> rintro (h | h) <;> cases h

end Term

end Stackable
