import Stackable.Proofs.Parser.Expr

/-!
# Where errors are reported

An error stands at a token: the one that comes next, or one that was read before. Only an array
without a size is reported over more than one, from its `new` to the last token read. `Locates`
says this of a rule, of the error it ends with and of those it keeps, and the rules for types and
expressions follow.
-/

set_option autoImplicit false

namespace Stackable

/-- A span from the start of a token to the end of one that is not before it. -/
def Tokens.Bound (tokens : List Token) (span : Span) : Prop :=
  ∃ first ∈ tokens, ∃ last ∈ tokens,
    span = ⟨first.span.start, last.span.stop⟩ ∧ span.start ≤ span.stop

/-- Tokens that follow each other. -/
structure Tokens.InLine (tokens : List Token) : Prop where
  level : ∀ t ∈ tokens, t.span.start ≤ t.span.stop
  sorted : tokens.Pairwise fun x y => x.span.stop ≤ y.span.start

theorem Tokens.InLine.bound {tokens : List Token} (h : InLine tokens) {t : Token} (ht : t ∈ tokens) :
    Bound tokens t.span :=
  ⟨t, ht, t, ht, rfl, h.level t ht⟩

theorem Covers.bound {tokens p q : List Token} {span : Span} (h : Covers p q span)
    (hp : p <:+ tokens) (hLine : Tokens.InLine tokens) : Tokens.Bound tokens span := by
  obtain ⟨read, first, last, rfl, _, hFirst, hLast, rfl⟩ := h
  have mem : ∀ {t}, t ∈ read → t ∈ tokens := fun ht => hp.subset (List.mem_append_left q ht)
  have hMemLast := List.mem_of_mem_getLast? hLast
  refine ⟨first, mem (List.mem_of_mem_head? hFirst), last, mem hMemLast, rfl, ?_⟩
  have hSorted := hLine.sorted.sublist ((List.sublist_append_left read q).trans hp.sublist)
  cases read with
  | nil => cases hFirst
  | cons x xs =>
    obtain rfl : x = first := by simpa using hFirst
    have hLevel := hLine.level x (mem List.mem_cons_self)
    rcases List.mem_cons.mp hMemLast with rfl | hMem
    · exact hLevel
    · have hNext := (List.pairwise_cons.mp hSorted).1 last hMem
      have hLevelLast := hLine.level last (mem hMemLast)
      dsimp only
      omega

/-- A state that is reached with these tokens, with no error but at one of them. -/
structure ParseState.Within (tokens : List Token) (s : ParseState) : Prop where
  inLine : Tokens.InLine tokens
  rest : s.rest <:+ tokens
  finish : Tokens.Bound tokens ⟨s.endOffset, s.endOffset⟩
  errors : ∀ e ∈ s.errors, Tokens.Bound tokens e.span

theorem ParseState.Within.current {tokens : List Token} {s : ParseState} (h : s.Within tokens) :
    Tokens.Bound tokens s.current.span := by
  unfold ParseState.current
  cases hRest : s.rest with
  | nil => exact h.finish
  | cons t ts =>
    apply h.inLine.bound
    apply h.rest.subset
    rw [hRest]
    exact List.mem_cons_self

namespace Parse

open ParseState

variable {α β : Type} {tokens : List Token} {s t : ParseState}

/-- However `p` ends, the errors it has kept and the one it ends with stand at tokens. -/
def LocatesAt (tokens : List Token) (p : Parse α) (s : ParseState) : Prop :=
  match p s with
  | .ok _ t => t.Within tokens
  | .error e t => t.Within tokens ∧ Tokens.Bound tokens e.span

def Locates (tokens : List Token) (p : Parse α) : Prop :=
  ∀ s, s.Within tokens → LocatesAt tokens p s

theorem locatesAt_of_ok {p : Parse α} {a : α} (h : p s = .ok a t) :
    LocatesAt tokens p s ↔ t.Within tokens := by
  unfold LocatesAt
  rw [h]

theorem locatesAt_of_error {p : Parse α} {e : ParseError} (h : p s = .error e t) :
    LocatesAt tokens p s ↔ t.Within tokens ∧ Tokens.Bound tokens e.span := by
  unfold LocatesAt
  rw [h]

theorem locatesAt_bind_of_ok {p : Parse α} {a : α} {f : α → Parse β} (h : p s = .ok a t) :
    LocatesAt tokens (p >>= f) s ↔ LocatesAt tokens (f a) t := by
  unfold LocatesAt
  rw [bind_of_ok h]

theorem Locates.pure {a : α} : Locates tokens (pure a) := fun _ hs => hs

/-- What follows may count on what `p` has read. -/
theorem LocatesAt.bind {p : Parse α} {f : α → Parse β} {P : α → ParseState → Prop}
    (hp : LocatesAt tokens p s) (he : Ends p s P)
    (hf : ∀ a t, s.LeadsTo t → P a t → t.Within tokens → LocatesAt tokens (f a) t) :
    LocatesAt tokens (p >>= f) s := by
  cases hRun : p s with
  | error e t => exact (locatesAt_of_error (bind_of_error hRun)).mpr ((locatesAt_of_error hRun).mp hp)
  | ok a t =>
    obtain ⟨hst, hP⟩ := (ends_of_ok hRun).mp he
    exact (locatesAt_bind_of_ok hRun).mpr (hf a t hst hP ((locatesAt_of_ok hRun).mp hp))

theorem LocatesAt.of_read {p : Parse α} {a : α} {f : α → Parse β} (h : p s = .ok a s)
    (hf : LocatesAt tokens (f a) s) : LocatesAt tokens (p >>= f) s :=
  (locatesAt_bind_of_ok h).mpr hf

theorem Locates.bind {p : Parse α} {f : α → Parse β} (hp : Locates tokens p)
    (hf : ∀ a, Locates tokens (f a)) : Locates tokens (p >>= f) := by
  intro s hs
  have hps := hp s hs
  cases hRun : p s with
  | error e t => exact (locatesAt_of_error (bind_of_error hRun)).mpr ((locatesAt_of_error hRun).mp hps)
  | ok a t => exact (locatesAt_bind_of_ok hRun).mpr (hf a t ((locatesAt_of_ok hRun).mp hps))

theorem Locates.map {p : Parse α} {f : α → β} (hp : Locates tokens p) :
    Locates tokens (f <$> p) := by
  rw [← bind_pure_comp]
  exact hp.bind fun _ => .pure

theorem Locates.ite {c : Prop} [Decidable c] {p q : Parse α} (hp : Locates tokens p)
    (hq : Locates tokens q) : Locates tokens (if c then p else q) := by
  split
  · exact hp
  · exact hq

/-- Both branches go on alike with what they give. -/
theorem Locates.join {c : Prop} [Decidable c] {p q : Parse α} {k : α → Parse β}
    (hp : Locates tokens p) (hq : Locates tokens q) (hk : ∀ a, Locates tokens (k a)) :
    Locates tokens (if c then p >>= k else q >>= k) :=
  .ite (hp.bind hk) (hq.bind hk)

/-- One branch does something first, and both go on with `k`. -/
theorem Locates.optional {c : Prop} [Decidable c] {p k : Parse β} (hk : Locates tokens k)
    (hp : Locates tokens k → Locates tokens p) : Locates tokens (if c then p else k) :=
  .ite (hp hk) hk

theorem failAt_locates {cause : ParseError.Cause} {span : Span} (h : Tokens.Bound tokens span) :
    Locates tokens (failAt cause span : Parse α) := fun _ hs => ⟨hs, h⟩

/-- What is read off the state leaves it as it is. -/
theorem Locates.read {p : Parse α} (h : ∀ s, ∃ a, p s = .ok a s) : Locates tokens p := by
  intro s hs
  obtain ⟨a, hRun⟩ := h s
  exact (locatesAt_of_ok hRun).mpr hs

theorem current_locates {f : Token → Parse β}
    (hf : ∀ x, Tokens.Bound tokens x.span → Locates tokens (f x)) :
    Locates tokens (current >>= f) := fun s hs => hf s.current hs.current s hs

theorem failExpected_locates (what : Expected) :
    Locates tokens (failExpected what : Parse α) :=
  current_locates fun _ hx => failAt_locates hx

theorem iterate_locates {body : α → Parse (α ⊕ β)} (step : ∀ a, Locates tokens (body a)) (n : Nat)
    (a : α) : Locates tokens (iterate body n a) := by
  induction n generalizing a with
  | zero => exact current_locates fun _ hx => failAt_locates hx
  | succ n ih =>
    apply (step a).bind
    rintro (next | result)
    · exact ih next
    · exact .pure

theorem remaining_locates : Locates tokens remaining := .read fun _ => ⟨_, rfl⟩

theorem loop_locates {body : α → Parse (α ⊕ β)} {a : α} (step : ∀ a, Locates tokens (body a)) :
    Locates tokens (loop body a) :=
  remaining_locates.bind fun _ => iterate_locates step _ a

/-- An error that an attempt has met stands at a token. -/
theorem attempt_locates {p : Parse α} {f : Except ParseError α → Parse β} (hp : Locates tokens p)
    (ok : ∀ a, Locates tokens (f (.ok a)))
    (error : ∀ e, Tokens.Bound tokens e.span → Locates tokens (f (.error e))) :
    Locates tokens (attempt p >>= f) := by
  intro s hs
  have hps := hp s hs
  cases hRun : p s with
  | ok a t =>
    exact (locatesAt_bind_of_ok (attempt_of_ok hRun)).mpr (ok a t ((locatesAt_of_ok hRun).mp hps))
  | error e t =>
    obtain ⟨ht, hBound⟩ := (locatesAt_of_error hRun).mp hps
    exact (locatesAt_bind_of_ok (attempt_of_error hRun)).mpr (error e hBound t ht)

theorem currentKind_locates : Locates tokens currentKind := .read fun _ => ⟨_, rfl⟩

theorem currentStart_locates : Locates tokens currentStart := .read fun _ => ⟨_, rfl⟩

theorem peekKind_locates (n : Nat) : Locates tokens (peekKind n) := .read fun _ => ⟨_, rfl⟩

theorem atEnd_locates : Locates tokens atEnd := .read fun _ => ⟨_, rfl⟩

theorem spanFrom_locates (start : Nat) : Locates tokens (spanFrom start) := .read fun _ => ⟨_, rfl⟩

theorem check_locates (p : Punct) : Locates tokens (check p) := .read fun _ => ⟨_, rfl⟩

theorem checkWord_locates (w : Keyword) : Locates tokens (checkWord w) := .read fun _ => ⟨_, rfl⟩

theorem checkName_locates (name : String) : Locates tokens (checkName name) :=
  .read fun _ => ⟨_, rfl⟩

theorem pendingGt_locates : Locates tokens pendingGt := .read fun _ => ⟨_, rfl⟩

theorem atDefaultLabel_locates : Locates tokens atDefaultLabel := .read fun _ => ⟨_, rfl⟩

theorem advance_locates : Locates tokens advance := by
  rintro ⟨rest, prevEnd, pendingGt, errors, nextId, endOffset⟩ ⟨hLine, hRest, hFinish, hErrors⟩
  cases rest with
  | nil => exact ⟨hLine, hRest, hFinish, hErrors⟩
  | cons x xs =>
    change LocatesAt tokens (if x.kind.isEof = true then Pure.pure x else _) _
    split
    · exact ⟨hLine, hRest, hFinish, hErrors⟩
    · exact ⟨hLine, (List.suffix_cons x xs).trans hRest, hFinish, hErrors⟩

theorem skip_locates (n : Nat) : Locates tokens (skip n) := fun s hs =>
  ⟨hs.inLine, (List.drop_suffix n s.rest).trans hs.rest, hs.finish, hs.errors⟩

theorem freshId_locates : Locates tokens freshId := fun _ hs =>
  ⟨hs.inLine, hs.rest, hs.finish, hs.errors⟩

theorem setPendingGt_locates (b : Bool) : Locates tokens (setPendingGt b) := fun _ hs =>
  ⟨hs.inLine, hs.rest, hs.finish, hs.errors⟩

theorem recordError_locates {e : ParseError} (h : Tokens.Bound tokens e.span) :
    Locates tokens (recordError e) := by
  intro s hs
  refine ⟨hs.inLine, hs.rest, hs.finish, fun x hx => ?_⟩
  rcases List.mem_append.mp hx with hx | hx
  · exact hs.errors x hx
  · rw [List.mem_singleton.mp hx]
    exact h

theorem accept_locates (p : Punct) : Locates tokens (accept p) :=
  (check_locates p).bind fun _ => .ite (advance_locates.bind fun _ => .pure) .pure

theorem acceptWord_locates (w : Keyword) : Locates tokens (acceptWord w) :=
  (checkWord_locates w).bind fun _ => .ite (advance_locates.bind fun _ => .pure) .pure

theorem expect_locates (p : Punct) : Locates tokens (expect p) :=
  (accept_locates p).bind fun _ => .ite .pure (failExpected_locates _)

theorem expectWord_locates (w : Keyword) : Locates tokens (expectWord w) :=
  (acceptWord_locates w).bind fun _ => .ite .pure (failExpected_locates _)

theorem expectName_locates : Locates tokens expectName := by
  apply currentKind_locates.bind
  intro k
  split
  · exact advance_locates.bind fun _ => .pure
  · exact failExpected_locates _

theorem expectClosingAngle_locates : Locates tokens expectClosingAngle := by
  refine pendingGt_locates.bind fun _ => .ite (setPendingGt_locates false) ?_
  refine (accept_locates .gt).bind fun _ => .ite .pure ?_
  refine (accept_locates .gtGt).bind fun _ => ?_
  exact .ite (setPendingGt_locates true) (failExpected_locates _)

theorem finishExpr_locates (start : Nat) (kind : ExprKind Expr) :
    Locates tokens (finishExpr start kind) :=
  freshId_locates.bind fun _ => (spanFrom_locates start).bind fun _ => .pure

theorem finishStmt_locates (start : Nat) (kind : StmtKind Stmt) :
    Locates tokens (finishStmt start kind) :=
  freshId_locates.bind fun _ => (spanFrom_locates start).bind fun _ => .pure

theorem commaSeparated_locates {item : Parse α} (h : Locates tokens item) :
    Locates tokens (commaSeparated item) :=
  loop_locates fun _ => h.bind fun _ => (accept_locates .comma).bind fun _ => .ite .pure .pure

theorem countCommas_locates : Locates tokens countCommas :=
  loop_locates fun _ => (accept_locates .comma).bind fun _ => .ite .pure .pure

theorem recover_locates (before : List Token) (distance : List Token → Nat) :
    Locates tokens (recover before distance) := by
  refine remaining_locates.bind fun _ => (skip_locates _).bind fun _ => ?_
  exact remaining_locates.bind fun _ => .ite (advance_locates.bind fun _ => .pure) .pure

/-- A token that is read is one of those that were there. -/
theorem advance_bind_locates {f : Token → Parse β}
    (hf : ∀ x, Tokens.Bound tokens x.span → Locates tokens (f x)) :
    Locates tokens (advance >>= f) := by
  intro s hs
  refine (advance_locates s hs).bind (advance_ends s) ?_
  rintro x t _ ⟨rfl, _⟩ ht
  exact hf s.current hs.current t ht

theorem skipAttributes_locates : Locates tokens skipAttributes := by
  refine loop_locates fun _ => (check_locates .lBracket).bind fun _ => .ite ?_ .pure
  refine advance_bind_locates fun opening hOpening => remaining_locates.bind fun _ => ?_
  exact (skip_locates _).bind fun _ => .ite .pure (failAt_locates hOpening)

end Parse

/-- The rules report errors at tokens only. -/
structure Rules.Locates (tokens : List Token) (r : Rules) : Prop where
  orderly : r.Orderly
  type : Parse.Locates tokens r.type
  expr : Parse.Locates tokens r.expr
  exprAbove : ∀ least, Parse.Locates tokens (r.exprAbove least)
  varInitializer : Parse.Locates tokens r.varInitializer
  stmt : Parse.Locates tokens r.stmt
  member : ∀ typeName, Parse.Locates tokens (r.member typeName)
  decl : Parse.Locates tokens r.decl

namespace Parse

variable {tokens : List Token} {r : Rules}

theorem typeArgs_locates (hr : r.Locates tokens) : Locates tokens (typeArgs r) := by
  refine (expect_locates .lt).bind fun _ => (loop_locates fun args => ?_).bind fun _ =>
    expectClosingAngle_locates.bind fun _ => .pure
  refine hr.type.bind fun _ => pendingGt_locates.bind fun _ => .ite .pure ?_
  exact (accept_locates .comma).bind fun _ => .ite .pure .pure

theorem namedType_locates (hr : r.Locates tokens) : Locates tokens (namedType r) := by
  refine expectName_locates.bind fun _ => (accept_locates .colonColon).bind fun _ => ?_
  refine .join expectName_locates .pure fun _ => loop_locates fun ⟨path, args⟩ => ?_
  refine (check_locates .lt).bind fun _ => .join (typeArgs_locates hr) .pure fun _ => ?_
  refine pendingGt_locates.bind fun _ => (check_locates .dot).bind fun _ => ?_
  refine (peekKind_locates 1).bind fun _ => .ite ?_ .pure
  exact advance_locates.bind fun _ => expectName_locates.bind fun _ => .pure

theorem typeMarks_locates (start : Nat) (type : TypeRef) :
    Locates tokens (typeMarks start type) := by
  refine loop_locates fun _ => pendingGt_locates.bind fun _ => .ite .pure ?_
  refine (accept_locates .question).bind fun _ => .ite ((spanFrom_locates start).bind fun _ => .pure) ?_
  refine (accept_locates .star).bind fun _ => .ite ?_ .pure
  exact (spanFrom_locates start).bind fun _ => .pure

theorem nonArrayType_locates (hr : r.Locates tokens) : Locates tokens (nonArrayType r) := by
  refine currentStart_locates.bind fun start => currentKind_locates.bind fun k => ?_
  have rest : ∀ kind, Locates tokens (do typeMarks start ⟨kind, ← spanFrom start⟩) := fun _ =>
    (spanFrom_locates start).bind fun _ => typeMarks_locates start _
  split
  · exact advance_locates.bind fun _ => Locates.pure.bind rest
  · refine currentKind_locates.bind fun _ => ?_
    exact .join (namedType_locates hr) (failExpected_locates _) rest

theorem rankSpecifiers_locates : Locates tokens rankSpecifiers := by
  refine loop_locates fun _ => pendingGt_locates.bind fun _ => remaining_locates.bind fun _ => ?_
  refine .ite (advance_locates.bind fun _ => countCommas_locates.bind fun _ => ?_) .pure
  exact (expect_locates .rBracket).bind fun _ => .pure

theorem type_locates (hr : r.Locates tokens) : Locates tokens (type r) := by
  refine currentStart_locates.bind fun start => (nonArrayType_locates hr).bind fun _ => ?_
  refine rankSpecifiers_locates.bind fun _ => .ite .pure ?_
  refine (spanFrom_locates start).bind fun _ => pendingGt_locates.bind fun _ => .ite .pure ?_
  refine (accept_locates .question).bind fun _ => .ite ?_ .pure
  exact (spanFrom_locates start).bind fun _ => .pure

theorem argumentName_locates : Locates tokens argumentName := by
  apply currentKind_locates.bind
  intro k
  split
  · refine (peekKind_locates 1).bind fun _ => .ite ?_ .pure
    exact advance_locates.bind fun _ => advance_locates.bind fun _ => .pure
  · exact .pure

theorem argumentModifier_locates : Locates tokens argumentModifier := by
  apply currentKind_locates.bind
  intro k
  split
  · exact advance_locates.bind fun _ => .pure
  · exact .pure

theorem outVariable_locates (hr : r.Locates tokens) : Locates tokens (outVariable r) := by
  refine (type_locates hr).bind fun _ => currentStart_locates.bind fun start => ?_
  exact expectName_locates.bind fun _ => finishExpr_locates start _

theorem argument_locates (hr : r.Locates tokens) : Locates tokens (argument r) := by
  refine argumentName_locates.bind fun _ => argumentModifier_locates.bind fun _ => ?_
  refine remaining_locates.bind fun _ => .ite ?_ ?_
  · exact (outVariable_locates hr).bind fun _ => .pure
  · exact hr.expr.bind fun _ => .pure

theorem argumentList_locates (hr : r.Locates tokens) (close : Punct) :
    Locates tokens (argumentList r close) :=
  (check_locates close).bind fun _ => .ite .pure (commaSeparated_locates (argument_locates hr))

theorem arguments_locates (hr : r.Locates tokens) : Locates tokens (arguments r) := by
  refine (expect_locates .lParen).bind fun _ => (argumentList_locates hr .rParen).bind fun _ => ?_
  exact (expect_locates .rParen).bind fun _ => .pure

theorem initializerElements_locates (hr : r.Locates tokens) :
    Locates tokens (initializerElements r) := by
  refine (expect_locates .lBrace).bind fun _ => (loop_locates fun _ => ?_).bind fun _ =>
    (expect_locates .rBrace).bind fun _ => .pure
  refine (check_locates .rBrace).bind fun _ => atEnd_locates.bind fun _ => .ite .pure ?_
  exact hr.varInitializer.bind fun _ => (accept_locates .comma).bind fun _ => .ite .pure .pure

theorem optionalInitializer_locates (hr : r.Locates tokens) :
    Locates tokens (optionalInitializer r) :=
  (check_locates .lBrace).bind fun _ =>
    .ite ((initializerElements_locates hr).bind fun _ => .pure) .pure

theorem leaf_locates (start : Nat) (kind : ExprKind Expr) : Locates tokens (leaf start kind) :=
  advance_locates.bind fun _ => finishExpr_locates start kind

theorem nameExpr_locates (hr : r.Locates tokens) (start : Nat) (name : String) :
    Locates tokens (nameExpr r start name) := by
  refine remaining_locates.bind fun _ => advance_locates.bind fun _ => ?_
  exact .optional (finishExpr_locates start _) fun rest => (typeArgs_locates hr).bind fun _ => rest

theorem unaryExpr_locates (hr : r.Locates tokens) (start : Nat) (op : UnaryOp) :
    Locates tokens (unaryExpr r start op) :=
  advance_locates.bind fun _ => (hr.exprAbove _).bind fun _ => finishExpr_locates start _

theorem parenthesized_locates (hr : r.Locates tokens) (start : Nat) :
    Locates tokens (parenthesized r start) := by
  refine remaining_locates.bind fun _ => .ite ?_ ?_
  · refine advance_locates.bind fun _ => (type_locates hr).bind fun _ => ?_
    refine (expect_locates .rParen).bind fun _ => (hr.exprAbove _).bind fun _ => ?_
    exact finishExpr_locates start _
  · refine advance_locates.bind fun _ => hr.expr.bind fun _ => ?_
    exact (expect_locates .rParen).bind fun _ => finishExpr_locates start _

theorem parenthesizedType_locates (hr : r.Locates tokens) : Locates tokens (parenthesizedType r) := by
  refine (expect_locates .lParen).bind fun _ => (type_locates hr).bind fun _ => ?_
  exact (expect_locates .rParen).bind fun _ => .pure

theorem defaultExpr_locates (hr : r.Locates tokens) (start : Nat) :
    Locates tokens (defaultExpr r start) := by
  refine advance_locates.bind fun _ => (check_locates .lParen).bind fun _ => ?_
  refine remaining_locates.bind fun _ => .ite ?_ (finishExpr_locates start _)
  exact (parenthesizedType_locates hr).bind fun _ => finishExpr_locates start _

theorem sizedRank_locates (hr : r.Locates tokens) : Locates tokens (sizedRank r) := by
  refine currentStart_locates.bind fun start => (expect_locates .lBracket).bind fun _ => ?_
  refine (commaSeparated_locates ?_).bind fun _ => (expect_locates .rBracket).bind fun _ =>
    (spanFrom_locates start).bind fun _ => .pure
  refine (check_locates .comma).bind fun _ => (check_locates .rBracket).bind fun _ => ?_
  exact .ite .pure (hr.expr.bind fun _ => .pure)

theorem sizedRanks_locates (hr : r.Locates tokens) : Locates tokens (sizedRanks r) :=
  loop_locates fun _ => (check_locates .lBracket).bind fun _ =>
    .ite ((sizedRank_locates hr).bind fun _ => .pure) .pure

/-- An array without a size is reported from its `new` on, up to what was read of it. -/
theorem arrayCreation_locates (hr : r.Locates tokens) (element : TypeRef) {s t : ParseState}
    (hs : s.rest <:+ tokens) (hst : s.Takes t) (ht : t.Within tokens) :
    LocatesAt tokens (arrayCreation r s.current.span.start element) t := by
  apply (sizedRanks_locates hr t ht).bind (sizedRanks_ends hr.orderly t)
  intro ranks u htu _ hu
  apply (optionalInitializer_locates hr u hu).bind (optionalInitializer_ends hr.orderly u)
  intro initializer v huv _ hv
  split
  · have hLeads := (hst.toLeadsTo.trans htu).trans huv
    have hMoves : v.rest.length < s.rest.length :=
      Nat.lt_of_le_of_lt (htu.trans huv).length_le hst.moves
    exact ⟨hv, (hLeads.covers hMoves).bound hs ht.inLine⟩
  · exact finishExpr_locates _ _ v hv

theorem objectCreation_locates (hr : r.Locates tokens) (start : Nat) (type : TypeRef) :
    Locates tokens (objectCreation r start type) := by
  refine (check_locates .lParen).bind fun _ => .join (arguments_locates hr) .pure fun _ => ?_
  refine (optionalInitializer_locates hr).bind fun _ => ?_
  exact .ite (failExpected_locates _) (finishExpr_locates start _)

theorem implicitArrayCreation_locates (hr : r.Locates tokens) (start : Nat) :
    Locates tokens (implicitArrayCreation r start) := by
  refine (expect_locates .lBracket).bind fun _ => countCommas_locates.bind fun _ => ?_
  refine (expect_locates .rBracket).bind fun _ => (initializerElements_locates hr).bind fun _ => ?_
  exact finishExpr_locates start _

theorem newExpr_locates (hr : r.Locates tokens) {s : ParseState} (hs : s.Within tokens) :
    LocatesAt tokens (newExpr r s.current.span.start) s := by
  apply (expectWord_locates .newKw s hs).bind (expectWord_ends .newKw s)
  intro _ t _ hst ht
  apply LocatesAt.of_read rfl
  split
  · exact implicitArrayCreation_locates hr _ t ht
  apply LocatesAt.of_read rfl
  split
  · refine (arguments_locates hr).bind (fun _ => ?_) t ht
    exact (optionalInitializer_locates hr).bind fun _ => finishExpr_locates _ _
  · apply (nonArrayType_locates hr t ht).bind (nonArrayType_ends hr.orderly t)
    intro type u _ htu hu
    apply LocatesAt.of_read rfl
    split
    · exact arrayCreation_locates hr type hs.rest (hst.trans htu) hu
    · exact objectCreation_locates hr _ type u hu

theorem stackAlloc_locates (hr : r.Locates tokens) (start : Nat) :
    Locates tokens (stackAlloc r start) := by
  refine (expectWord_locates .stackallocKw).bind fun _ => (check_locates .lBracket).bind fun _ => ?_
  refine .join .pure (nonArrayType_locates hr).map fun _ => ?_
  refine (expect_locates .lBracket).bind fun _ => (check_locates .rBracket).bind fun _ => ?_
  refine .join .pure hr.expr.map fun _ => (expect_locates .rBracket).bind fun _ => ?_
  exact (optionalInitializer_locates hr).bind fun _ => finishExpr_locates start _

theorem keywordExpr_locates (hr : r.Locates tokens) (w : Keyword) {s : ParseState}
    (hs : s.Within tokens) : LocatesAt tokens (keywordExpr r s.current.span.start w) s := by
  have typed : ∀ kind : TypeRef → ExprKind Expr, LocatesAt tokens (do
      let _ ← advance
      let type ← parenthesizedType r
      finishExpr s.current.span.start (kind type)) s := by
    intro kind
    refine advance_locates.bind (fun _ => ?_) s hs
    exact (parenthesizedType_locates hr).bind fun _ => finishExpr_locates _ _
  unfold keywordExpr
  split
  · exact leaf_locates _ _ s hs
  · split
    · exact leaf_locates _ _ s hs
    · exact leaf_locates _ _ s hs
    · exact leaf_locates _ _ s hs
    · exact newExpr_locates hr hs
    · exact stackAlloc_locates hr _ s hs
    · exact typed .typeOf
    · exact typed .sizeOfType
    · exact defaultExpr_locates hr _ s hs
    · exact failExpected_locates _ s hs

theorem operand_locates (hr : r.Locates tokens) : Locates tokens (operand r) := by
  intro s hs
  apply LocatesAt.of_read (p := currentStart) rfl
  apply LocatesAt.of_read (p := currentKind) rfl
  split
  · exact leaf_locates _ _ s hs
  · exact leaf_locates _ _ s hs
  · exact leaf_locates _ _ s hs
  · exact leaf_locates _ _ s hs
  · exact leaf_locates _ _ s hs
  · refine (peekKind_locates 1).bind (fun _ => ?_) s hs
    exact .ite (unaryExpr_locates hr _ _) (nameExpr_locates hr _ _)
  · exact keywordExpr_locates hr _ hs
  · exact parenthesized_locates hr _ s hs
  · split
    · exact unaryExpr_locates hr _ _ s hs
    · exact failExpected_locates _ s hs
  · exact failExpected_locates _ s hs

theorem memberAccess_locates (hr : r.Locates tokens) (start : Nat) (object : Expr) :
    Locates tokens (memberAccess r start object) := by
  refine (check_locates .questionDot).bind fun _ => advance_locates.bind fun _ => ?_
  refine remaining_locates.bind fun _ => expectName_locates.bind fun _ => ?_
  exact .optional (finishExpr_locates start _) fun rest => (typeArgs_locates hr).bind fun _ => rest

theorem postfixExpr_locates (hr : r.Locates tokens) (start : Nat) (lhs : Expr) :
    Locates tokens (postfixExpr r start lhs) := by
  apply currentKind_locates.bind
  intro k
  split
  · exact (arguments_locates hr).bind fun _ => finishExpr_locates start _
  · refine advance_locates.bind fun _ => (argumentList_locates hr .rBracket).bind fun _ => ?_
    exact (expect_locates .rBracket).bind fun _ => finishExpr_locates start _
  · exact leaf_locates start _
  · exact leaf_locates start _
  · exact memberAccess_locates hr start lhs

theorem nullTest_locates (start : Nat) (lhs : Expr) (negated : Bool) :
    Locates tokens (nullTest start lhs negated) :=
  currentStart_locates.bind fun _ => (leaf_locates _ _).bind fun _ => finishExpr_locates start _

theorem designation_locates : Locates tokens designation := by
  apply currentKind_locates.bind
  intro k
  split
  · exact advance_locates.bind fun _ => .pure
  · exact .pure

theorem typeTest_locates (hr : r.Locates tokens) (start : Nat) (lhs : Expr) :
    Locates tokens (typeTest r start lhs) := by
  refine (acceptWord_locates .asKw).bind fun _ => .ite ?_ ?_
  · exact (type_locates hr).bind fun _ => finishExpr_locates start _
  refine (expectWord_locates .isKw).bind fun _ => currentKind_locates.bind fun _ => ?_
  refine (peekKind_locates 1).bind fun _ => .optional ?_ fun rest => advance_locates.bind fun _ => rest
  refine (checkWord_locates .nullKw).bind fun _ => .ite (nullTest_locates start lhs _) ?_
  refine (type_locates hr).bind fun _ => designation_locates.bind fun _ => ?_
  exact finishExpr_locates start _

theorem conditionalExpr_locates (hr : r.Locates tokens) (start : Nat) (cond : Expr) :
    Locates tokens (conditionalExpr r start cond) := by
  refine advance_locates.bind fun _ => hr.expr.bind fun _ => (expect_locates .colon).bind fun _ => ?_
  exact (hr.exprAbove _).bind fun _ => finishExpr_locates start _

theorem extend_locates (hr : r.Locates tokens) (start least : Nat) (lhs : Expr) :
    Locates tokens (extend r start least lhs) := by
  refine currentKind_locates.bind fun k => .ite (.ite .pure ?_) (.ite (.ite .pure ?_)
    (.ite (.ite .pure ?_) ?_))
  · exact (postfixExpr_locates hr start lhs).bind fun _ => .pure
  · exact (typeTest_locates hr start lhs).bind fun _ => .pure
  · exact (conditionalExpr_locates hr start lhs).bind fun _ => .pure
  · split
    · refine .ite .pure (advance_locates.bind fun _ => (hr.exprAbove _).bind fun _ => ?_)
      exact (finishExpr_locates start _).bind fun _ => .pure
    · exact .pure

theorem exprAbove_locates (hr : r.Locates tokens) (least : Nat) :
    Locates tokens (exprAbove r least) :=
  currentStart_locates.bind fun start => (operand_locates hr).bind fun _ =>
    loop_locates fun lhs => extend_locates hr start least lhs

theorem expr_locates (hr : r.Locates tokens) : Locates tokens (expr r) := by
  refine currentStart_locates.bind fun start => (exprAbove_locates hr 0).bind fun _ => ?_
  apply currentKind_locates.bind
  intro k
  split
  · exact advance_locates.bind fun _ => hr.expr.bind fun _ => finishExpr_locates start _
  · exact .pure

theorem varInitializer_locates (hr : r.Locates tokens) : Locates tokens (varInitializer r) := by
  refine (check_locates .lBrace).bind fun _ => .ite ?_ (expr_locates hr)
  refine currentStart_locates.bind fun start => (initializerElements_locates hr).bind fun _ => ?_
  exact finishExpr_locates start _

end Parse

end Stackable
