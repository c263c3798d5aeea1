import Stackable.Proofs.Precedence.Reading

/-!
# A written term is read back

The tokens of a term are read to the end, and the expression they give has this term. By induction
on the term: each operand is read from its own place, up to an operator that its place does not
take in.
-/

set_option autoImplicit false

namespace Stackable

/-- Operators of a lower level may follow an operand in a place that asks for the level `q`. In the
left operand of an operator that associates to the left, that includes the level itself. -/
def Level.below (q : Nat) : Nat := if q ≤ Level.coalesce ∨ q = Level.prefixed then q else q + 1

theorem Level.below_mono {p q : Nat} (h : p ≤ q) : Level.below p ≤ Level.below q := by
  unfold below coalesce prefixed
  split <;> split <;> omega

theorem Level.power_mono {p q : Nat} (h : p ≤ q) : Level.power p ≤ Level.power q := by
  unfold power
  split <;> split <;> omega

namespace BinOp

theorem leftLevel_bounds (op : BinOp) : 0 < op.leftLevel ∧ op.leftLevel ≤ Level.primary := by
  cases op <;> decide

theorem rightLevel_bounds (op : BinOp) : 0 < op.rightLevel ∧ op.rightLevel ≤ Level.primary := by
  cases op <;> decide

/-- The right operand takes in the operators of its place. -/
theorem rightPower_le (op : BinOp) : op.rightPower ≤ Level.power op.rightLevel := by
  cases op <;> decide

/-- The right operand leaves the operators of lower levels. -/
theorem power_lt_rightPower (op : BinOp) : ∀ l < op.rightLevel, Level.power l < op.rightPower := by
  cases op <;> decide

theorem level_lt_below (op : BinOp) : op.level < Level.below op.leftLevel := by
  cases op <;> decide

theorem below_level_le (op : BinOp) : Level.below op.level ≤ op.rightLevel := by
  cases op <;> decide

theorem infixLevel?_mark (op : BinOp) : (TokenKind.punct op.mark).infixLevel? = some op.level := by
  cases op <;> rfl

end BinOp

namespace Tokens

structure Follows (q : Nat) (rest : List Token) : Prop where
  lower : ∀ l, (kind rest).infixLevel? = some l → l < q
  noArgs : startsGenericArgs rest = false

/-- No operator follows that takes the expression in front of it as its left operand. -/
structure Closes (rest : List Token) : Prop where
  noInfix : (kind rest).infixLevel? = none
  noAssign : (kind rest).assign? = none
  noArgs : startsGenericArgs rest = false

variable {rest : List Token} {x : Token}

theorem Follows.mono {p q : Nat} (h : Follows p rest) (hpq : p ≤ q) : Follows q rest :=
  ⟨fun l hl => Nat.lt_of_lt_of_le (h.lower l hl) hpq, h.noArgs⟩

theorem Closes.follows (h : Closes rest) (q : Nat) : Follows q rest := by
  refine ⟨?_, h.noArgs⟩
  intro l hl
  rw [h.noInfix] at hl
  cases hl

theorem closes_of_kind {k : TokenKind} (h : kind rest = k)
    (hk : k = .eof ∨ k = .punct .rParen ∨ k = .punct .colon) : Closes rest := by
  have noArgs : startsGenericArgs rest = false := by
    apply startsGenericArgs_of_ne
    rw [h]
    rcases hk with rfl | rfl | rfl <;> rfl
  rcases hk with rfl | rfl | rfl <;> exact ⟨by rw [h]; rfl, by rw [h]; rfl, noArgs⟩

theorem follows_of_kind {m : Punct} {l q : Nat} (hx : x.kind = .punct m)
    (hl : (TokenKind.punct m).infixLevel? = some l) (hq : l < q) (hlt : m ≠ .lt) :
    Follows q (x :: rest) := by
  constructor
  · intro l' hl'
    rw [kind, hx, hl] at hl'
    cases hl'
    exact hq
  · apply startsGenericArgs_of_ne
    rw [kind, hx, TokenKind.isPunct, beq_eq_false_iff_ne]
    exact hlt

end Tokens

namespace Term

open Tokens Parse

/-- Where the tokens of the term stand as an operand or alone, they are read as the term. -/
structure Readable (t : Term) : Prop where
  operand {q least d : Nat} {ts rest : List Token} (positive : 0 < q) (most : q ≤ Level.primary)
    (hLeast : least ≤ Level.power q) (depth : (t.renderAt q).length ≤ d)
    (hs : Spells (t.renderAt q) ts rest) (hRest : Follows (Level.below q) rest) :
    Builds (Rules.depth d) least t ts rest
  alone {d : Nat} {ts rest : List Token} (depth : (t.renderAt 0).length ≤ d)
    (hs : Spells (t.renderAt 0) ts rest) (hRest : Closes rest) :
    ReadsTerm (expr (Rules.depth d)) t ts rest

variable {t : Term} {d q least : Nat} {ts rest : List Token}

theorem Readable.exprAbove (h : t.Readable) (positive : 0 < q) (most : q ≤ Level.primary)
    (hLeast : least ≤ Level.power q) (hLower : ∀ l < q, Level.power l < least)
    (depth : (t.renderAt q).length ≤ d) (hs : Spells (t.renderAt q) ts rest) (hRest : Follows q rest) :
    ReadsTerm ((Rules.depth (d + 1)).exprAbove least) t ts rest := by
  apply Builds.exprAbove
  · apply h.operand positive most hLeast depth hs
    apply hRest.mono
    unfold Level.below
    split <;> omega
  · intro l hl
    exact hLower l (hRest.lower l hl)

/-- The tokens of the term without parentheses around the whole are read as the term. An
assignment is read alone only, and a `<` comparison is always enclosed. -/
structure BodyReadable (t : Term) : Prop where
  operator {least d : Nat} {ts rest : List Token} (positive : 0 < t.level)
    (hLeast : least ≤ Level.power t.level) (depth : t.body.length ≤ d) (hs : Spells t.body ts rest)
    (hRest : Follows (Level.below t.level) rest)
    (hLess : t.isLess = true → kind rest = .punct .rParen) : Builds (Rules.depth d) least t ts rest
  assignment {d : Nat} {ts rest : List Token} (hLevel : t.level = 0) (depth : t.body.length ≤ d)
    (hs : Spells t.body ts rest) (hRest : Closes rest) : ReadsTerm (expr (Rules.depth d)) t ts rest

theorem expr_of_builds {r : Rules} (h : Builds r 0 t ts rest) (hRest : Closes rest) :
    ReadsTerm (expr r) t ts rest := by
  apply expr_of_exprAbove _ hRest.noAssign
  apply h.exprAbove
  intro l hl
  rw [hRest.noInfix] at hl
  cases hl

theorem BodyReadable.expr (h : t.BodyReadable) (depth : t.body.length ≤ d) (hs : Spells t.body ts rest)
    (hRest : Closes rest) (hLess : t.isLess = true → kind rest = .punct .rParen) :
    ReadsTerm (Parse.expr (Rules.depth d)) t ts rest := by
  by_cases hLevel : t.level = 0
  · exact h.assignment hLevel depth hs hRest
  · apply expr_of_builds _ hRest
    exact h.operator (Nat.pos_of_ne_zero hLevel) (Nat.zero_le _) depth hs (hRest.follows _) hLess

theorem BodyReadable.enclosed (h : t.BodyReadable) (most : q ≤ Level.primary)
    (hParens : t.needsParens q = true) (depth : (t.renderAt q).length ≤ d)
    (hs : Spells (t.renderAt q) ts rest) : Builds (Rules.depth d) least t ts rest := by
  rw [renderAt, parenthesize, if_pos hParens] at depth hs
  obtain ⟨x, tail, rfl, hx, hTail⟩ := spells_cons.mp hs
  obtain ⟨mid, hBody, hClose⟩ := spells_append.mp hTail
  obtain ⟨y, rfl, hy⟩ := spells_singleton.mp hClose
  have hClosed : kind (y :: rest) = .punct .rParen := hy
  rw [List.length_cons, List.length_append] at depth
  obtain ⟨d, rfl⟩ : ∃ d', d = d' + 1 := ⟨d - 1, by omega⟩
  apply Builds.of_operand
  apply operand_paren hx hy
  · apply NoCast.startsCast_eq_false
    apply noCast_body (fun _ => hClosed) _ hBody
    -- A name alone could be the type of a cast, but it never needs parentheses.
    rintro n hn rfl
    have hWeak : (decide (Level.primary < q) || false) = true := hParens
    rw [Bool.or_false, decide_eq_true_iff] at hWeak
    exact absurd hWeak (Nat.not_lt.mpr most)
  · exact h.expr (by omega) hBody (closes_of_kind hClosed (.inr (.inl rfl))) fun _ => hClosed

theorem BodyReadable.readable (h : t.BodyReadable) : t.Readable := by
  constructor
  case operand =>
    intro q least d ts rest positive most hLeast depth hs hRest
    cases hParens : t.needsParens q with
    | true => exact h.enclosed most hParens depth hs
    | false =>
      obtain ⟨hLevel, hLess⟩ := le_level_of_needsParens hParens
      rw [renderAt, parenthesize, hParens] at depth hs
      apply h.operator (Nat.lt_of_lt_of_le positive hLevel)
        (Nat.le_trans hLeast (Level.power_mono hLevel)) depth hs
        (hRest.mono (Level.below_mono hLevel))
      rw [hLess]
      rintro ⟨⟩
  case alone =>
    intro d ts rest depth hs hRest
    cases hParens : t.needsParens 0 with
    | true => exact expr_of_builds (h.enclosed (Nat.zero_le _) hParens depth hs) hRest
    | false =>
      obtain ⟨_, hLess⟩ := le_level_of_needsParens hParens
      rw [renderAt, parenthesize, hParens] at depth hs
      apply h.expr depth hs hRest
      rw [hLess]
      rintro ⟨⟩

theorem readable_name (n : String) (hn : n ≠ "await") : (Term.name n hn).Readable := by
  apply BodyReadable.readable
  constructor
  case operator =>
    intro least d ts rest _ _ _ hs hRest _
    obtain ⟨x, rfl, hx⟩ := spells_singleton.mp hs
    exact Builds.of_operand (operand_name hx hRest.noArgs)
  case assignment => rintro _ _ _ ⟨⟩

theorem readable_int (value : Nat) (suffix : Option IntSuffix) : (Term.int value suffix).Readable := by
  apply BodyReadable.readable
  constructor
  case operator =>
    intro least d ts rest _ _ _ hs hRest _
    obtain ⟨x, rfl, hx⟩ := spells_singleton.mp hs
    exact Builds.of_operand (operand_int hx)
  case assignment => rintro _ _ _ ⟨⟩

theorem readable_unary (op : PrefixOp) {a : Term} (ha : a.Readable) : (Term.unary op a).Readable := by
  apply BodyReadable.readable
  constructor
  case operator =>
    intro least d ts rest _ _ depth hs hRest _
    obtain ⟨x, tail, rfl, hx, hOperand⟩ := spells_cons.mp hs
    obtain ⟨d, rfl⟩ : ∃ d', d = d' + 1 := ⟨d - 1, by simp [body] at depth; omega⟩
    apply Builds.of_operand
    apply operand_unary hx
    apply ha.exprAbove (q := Level.prefixed) (by decide) (by decide) (by decide) _ _ hOperand hRest
    · decide
    · exact Nat.le_of_succ_le_succ depth
  case assignment => rintro _ _ _ ⟨⟩

theorem readable_suffixed (op : PostfixOp) {a : Term} (ha : a.Readable) :
    (Term.suffixed op a).Readable := by
  apply BodyReadable.readable
  constructor
  case operator =>
    intro least d ts rest _ hLeast depth hs hRest _
    obtain ⟨mid, hOperand, hMark⟩ := spells_append.mp hs
    obtain ⟨x, rfl, hx⟩ := spells_singleton.mp hMark
    rw [body, List.length_append] at depth
    apply Builds.suffixed _ hx hLeast
    apply ha.operand (q := Level.primary) (by decide) (Nat.le_refl _) hLeast
      (Nat.le_of_add_right_le depth) hOperand
    apply follows_of_kind (l := Level.primary) hx
    · cases op <;> rfl
    · decide
    · cases op <;> decide
  case assignment => rintro _ _ _ ⟨⟩

theorem follows_binary {op : BinOp} {b : Term} {x : Token} {tail : List Token}
    (hx : x.kind = .punct op.mark) (hRight : Spells (b.renderAt op.rightLevel) tail rest)
    (hLess : op = .lt → kind rest = .punct .rParen) :
    Follows (Level.below op.leftLevel) (x :: tail) := by
  by_cases hop : op = .lt
  · subst hop
    constructor
    · intro l hl
      rw [kind, hx, BinOp.infixLevel?_mark] at hl
      cases hl
      exact BinOp.level_lt_below .lt
    · exact startsGenericArgs_of_none (scanTypeArgs_less hRight (hLess rfl))
  · apply follows_of_kind hx op.infixLevel?_mark op.level_lt_below
    revert hop
    cases op <;> decide

theorem readable_binary (op : BinOp) {a b : Term} (ha : a.Readable) (hb : b.Readable) :
    (Term.binary op a b).Readable := by
  apply BodyReadable.readable
  constructor
  case operator =>
    intro least d ts rest _ hLeast depth hs hRest hLess
    obtain ⟨mid, hLeft, hMark⟩ := spells_append.mp hs
    obtain ⟨x, tail, rfl, hx, hRight⟩ := spells_cons.mp hMark
    have hTail : tail.length = (b.renderAt op.rightLevel).length + rest.length := hRight.length_eq
    have hLength : (a.renderAt op.leftLevel).length + ((b.renderAt op.rightLevel).length + 1) ≤ d := by
      rw [body, List.length_append, List.length_cons] at depth
      exact depth
    obtain ⟨d, rfl⟩ : ∃ d', d = d' + 1 := ⟨d - 1, by omega⟩
    have hFollows : Follows (Level.below op.leftLevel) (x :: tail) := by
      apply follows_binary hx hRight
      rintro rfl
      exact hLess rfl
    have left : Builds (Rules.depth (d + 1)) least a ts (x :: tail) :=
      ha.operand op.leftLevel_bounds.1 op.leftLevel_bounds.2
        (Nat.le_trans hLeast (Level.power_mono op.level_le_leftLevel)) (by omega) hLeft hFollows
    have right : ReadsTerm ((Rules.depth (d + 1)).exprAbove op.rightPower) b tail rest :=
      hb.exprAbove op.rightLevel_bounds.1 op.rightLevel_bounds.2 op.rightPower_le
        op.power_lt_rightPower (by omega) hRight (hRest.mono op.below_level_le)
    exact left.binary hx hLeast (by omega) right
  case assignment =>
    intro _ _ _ hLevel
    cases op <;> cases hLevel

theorem readable_conditional {a b c : Term} (ha : a.Readable) (hb : b.Readable) (hc : c.Readable) :
    (Term.conditional a b c).Readable := by
  apply BodyReadable.readable
  constructor
  case operator =>
    intro least d ts rest _ hLeast depth hs hRest _
    obtain ⟨mid, hCond, hMark⟩ := spells_append.mp hs
    obtain ⟨x, tail, rfl, hx, hBranches⟩ := spells_cons.mp hMark
    obtain ⟨mid, hTrue, hColon⟩ := spells_append.mp hBranches
    obtain ⟨y, after, rfl, hy, hFalse⟩ := spells_cons.mp hColon
    have hTail : tail.length = (b.renderAt 0).length + (after.length + 1) := hTrue.length_eq
    have hAfter : after.length = (c.renderAt Level.conditional).length + rest.length :=
      hFalse.length_eq
    have hLength : (a.renderAt Level.coalesce).length + ((b.renderAt 0).length +
        ((c.renderAt Level.conditional).length + 1) + 1) ≤ d := by
      rw [body, List.length_append, List.length_cons, List.length_append, List.length_cons] at depth
      exact depth
    obtain ⟨d, rfl⟩ : ∃ d', d = d' + 1 := ⟨d - 1, by omega⟩
    have hFollows : Follows (Level.below Level.coalesce) (x :: tail) :=
      follows_of_kind (l := Level.conditional) hx rfl (by decide) (by decide)
    have hPower : Level.power Level.conditional ≤ Level.power Level.coalesce := by decide
    have cond : Builds (Rules.depth (d + 1)) least a ts (x :: tail) :=
      ha.operand (by decide) (by decide) (Nat.le_trans hLeast hPower) (by omega) hCond hFollows
    have whenTrue : ReadsTerm (Rules.depth (d + 1)).expr b tail (y :: after) :=
      hb.alone (by omega) hTrue (closes_of_kind hy (.inr (.inr rfl)))
    have whenFalse : ReadsTerm ((Rules.depth (d + 1)).exprAbove Power.conditional) c after rest :=
      hc.exprAbove (by decide) (by decide) (by decide) (by decide) (by omega) hFalse hRest
    exact cond.conditional hx hy hLeast (by omega) whenTrue whenFalse
  case assignment => rintro _ _ _ ⟨⟩

theorem readable_assign (op : AssignOp) {a b : Term} (ha : a.Readable) (hb : b.Readable) :
    (Term.assign op a b).Readable := by
  apply BodyReadable.readable
  constructor
  case operator => rintro _ _ _ _ ⟨⟩
  case assignment =>
    intro d ts rest _ depth hs hRest
    obtain ⟨mid, hTarget, hMark⟩ := spells_append.mp hs
    obtain ⟨x, tail, rfl, hx, hValue⟩ := spells_cons.mp hMark
    have hLength : (a.renderAt Level.coalesce).length + ((b.renderAt 0).length + 1) ≤ d := by
      rw [body, List.length_append, List.length_cons] at depth
      exact depth
    obtain ⟨d, rfl⟩ : ∃ d', d = d' + 1 := ⟨d - 1, by omega⟩
    have hInfix : ∀ l, (kind (x :: tail)).infixLevel? ≠ some l := by
      intro l
      rw [kind, hx]
      cases op <;> rintro ⟨⟩
    have hFollows : Follows (Level.below Level.coalesce) (x :: tail) := by
      refine ⟨fun l hl => absurd hl (hInfix l), startsGenericArgs_of_ne ?_⟩
      rw [kind, hx]
      cases op <;> rfl
    have target : ReadsTerm (exprAbove (Rules.depth (d + 1)) 0) a ts (x :: tail) := by
      apply Builds.exprAbove _ fun l hl => absurd hl (hInfix l)
      exact ha.operand (by decide) (by decide) (Nat.zero_le _) (by omega) hTarget hFollows
    have value : ReadsTerm (Rules.depth (d + 1)).expr b tail rest :=
      hb.alone (by omega) hValue hRest
    exact expr_assign target hx value

theorem readable (t : Term) : t.Readable := by
  induction t with
  | name n hn => exact readable_name n hn
  | int value suffix => exact readable_int value suffix
  | unary op a ha => exact readable_unary op ha
  | suffixed op a ha => exact readable_suffixed op ha
  | binary op a b ha hb => exact readable_binary op ha hb
  | conditional a b c ha hb hc => exact readable_conditional ha hb hc
  | assign op a b ha hb => exact readable_assign op ha hb

end Term

/-- The tokens of a term, up to the end of the text, are all read, and the expression that they
give has the term. -/
theorem expression_render (t : Term) (s : ParseState) (read rest : List Token)
    (hs : s.rest = read ++ rest) (hRead : read.map (·.kind) = t.render)
    (hRest : Tokens.kind rest = .eof) :
    ∃ e u, Parse.expression s = .ok e u ∧ u.rest = rest ∧ e.term? = some t := by
  have hDepth : t.render.length ≤ s.rest.length := by
    rw [hs, ← hRead, List.length_map, List.length_append]
    exact Nat.le_add_right _ _
  rw [Parse.expression, Parse.withRules_apply]
  exact t.readable.alone hDepth ⟨read, rfl, hRead⟩ (Tokens.closes_of_kind hRest (.inl rfl)) s hs

/-- `a = (b < 1) ? *b++ - (c - d) : e ?? f` -/
def Term.sample : Term :=
  .assign .assign (.name "a" (by decide)) (.conditional
    (.binary .lt (.name "b" (by decide)) (.int 1 none))
    (.binary .sub (.unary .deref (.suffixed .inc (.name "b" (by decide))))
      (.binary .sub (.name "c" (by decide)) (.name "d" (by decide))))
    (.binary .coalesce (.name "e" (by decide)) (.name "f" (by decide))))

theorem expression_render_sample :
    (Term.sample.render.map fun k => (⟨k, 0, 0⟩ : Token)).map (·.kind) = Term.sample.render ∧
    ∃ e u, Parse.expression
        (.ofTokens ((Term.sample.render.map fun k => ⟨k, 0, 0⟩) ++ [⟨.eof, 0, 0⟩])) = .ok e u ∧
      u.rest = [⟨.eof, 0, 0⟩] ∧ e.term? = some Term.sample := by
  have hRead : (Term.sample.render.map fun k => (⟨k, 0, 0⟩ : Token)).map (·.kind) =
      Term.sample.render := by
    rw [List.map_map]
    exact List.map_id _
  exact ⟨hRead, expression_render Term.sample _ _ [⟨.eof, 0, 0⟩] rfl hRead rfl⟩

end Stackable
