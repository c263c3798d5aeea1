import Stackable.Proofs.Parser.Decl

/-!
# Reading ends before its bounds do

Rules and repetitions are bounded by the tokens that remain, and report too deep a nesting where a
bound is met. `Halts p s Q` says that `p` never gets there. A rule calls others only behind a token
that it has read, and a repetition that goes on has read one, so that the bounds last.
-/

set_option autoImplicit false

namespace Stackable

namespace ParseState

/-- No error that was kept between the two states says that the nesting is too deep. -/
def Quiet (s t : ParseState) : Prop := ∀ e ∈ t.errors, e ∈ s.errors ∨ e.cause ≠ .nesting

theorem Quiet.of_eq {s t : ParseState} (h : t.errors = s.errors) : s.Quiet t := by
  intro e he
  rw [h] at he
  exact .inl he

theorem Quiet.trans {s t u : ParseState} (h : s.Quiet t) (k : t.Quiet u) : s.Quiet u := by
  intro e he
  rcases k e he with he | he
  · exact h e he
  · exact .inr he

end ParseState

namespace Parse

variable {α β : Type} {s : ParseState}

/-- However `p` ends, no bound was met, and a result satisfies `Q`. -/
def Halts (p : Parse α) (s : ParseState) (Q : α → ParseState → Prop) : Prop :=
  match p s with
  | .ok a t => s.Quiet t ∧ t.rest.length ≤ s.rest.length ∧ Q a t
  | .error e t => s.Quiet t ∧ t.rest.length ≤ s.rest.length ∧ e.cause ≠ .nesting

/-- As `Halts`, whatever the result. -/
abbrev Safe (p : Parse α) (s : ParseState) : Prop := Halts p s fun _ _ => True

/-- As `Halts`, with a token read for a result. -/
abbrev Moves (p : Parse α) (s : ParseState) : Prop :=
  Halts p s fun _ t => t.rest.length < s.rest.length

theorem halts_of_ok {p : Parse α} {a : α} {Q : α → ParseState → Prop} {t : ParseState}
    (h : p s = .ok a t) : Halts p s Q ↔ s.Quiet t ∧ t.rest.length ≤ s.rest.length ∧ Q a t := by
  unfold Halts
  rw [h]

theorem halts_of_error {p : Parse α} {e : ParseError} {Q : α → ParseState → Prop} {t : ParseState}
    (h : p s = .error e t) :
    Halts p s Q ↔ s.Quiet t ∧ t.rest.length ≤ s.rest.length ∧ e.cause ≠ .nesting := by
  unfold Halts
  rw [h]

theorem Halts.pure {a : α} {Q : α → ParseState → Prop} (h : Q a s) : Halts (pure a) s Q :=
  ⟨.of_eq rfl, Nat.le_refl _, h⟩

theorem Halts.bind {p : Parse α} {f : α → Parse β} {P : α → ParseState → Prop}
    {Q : β → ParseState → Prop} (hp : Halts p s P)
    (hf : ∀ a t, t.rest.length ≤ s.rest.length → P a t → Halts (f a) t Q) :
    Halts (p >>= f) s Q := by
  cases hps : p s with
  | error e t => exact (halts_of_error (bind_of_error hps)).mpr ((halts_of_error hps).mp hp)
  | ok a t =>
    obtain ⟨hQuiet, hLength, hP⟩ := (halts_of_ok hps).mp hp
    have hfa := hf a t hLength hP
    cases hft : f a t with
    | error e u =>
      obtain ⟨hNext, hShort, hCause⟩ := (halts_of_error hft).mp hfa
      exact (halts_of_error ((bind_of_ok hps).trans hft)).mpr
        ⟨hQuiet.trans hNext, Nat.le_trans hShort hLength, hCause⟩
    | ok b u =>
      obtain ⟨hNext, hShort, hQ⟩ := (halts_of_ok hft).mp hfa
      exact (halts_of_ok ((bind_of_ok hps).trans hft)).mpr
        ⟨hQuiet.trans hNext, Nat.le_trans hShort hLength, hQ⟩

theorem Halts.mono {p : Parse α} {P Q : α → ParseState → Prop} (hp : Halts p s P)
    (h : ∀ a t, t.rest.length ≤ s.rest.length → P a t → Q a t) : Halts p s Q := by
  unfold Halts at hp ⊢
  split at hp
  · exact ⟨hp.1, hp.2.1, h _ _ hp.2.1 hp.2.2⟩
  · exact hp

theorem Halts.of_ends {p : Parse α} {P Q : α → ParseState → Prop} (hp : Halts p s P)
    (he : Ends p s Q) : Halts p s Q := by
  cases hps : p s with
  | error e t => exact (halts_of_error hps).mpr ((halts_of_error hps).mp hp)
  | ok a t =>
    obtain ⟨hQuiet, hLength, _⟩ := (halts_of_ok hps).mp hp
    exact (halts_of_ok hps).mpr ⟨hQuiet, hLength, ((ends_of_ok hps).mp he).2⟩

theorem Halts.safe {p : Parse α} {P : α → ParseState → Prop} (hp : Halts p s P) : Safe p s :=
  hp.mono fun _ _ _ _ => trivial

theorem Halts.map {p : Parse α} {f : α → β} {Q : β → ParseState → Prop}
    (hp : Halts p s fun a t => Q (f a) t) : Halts (f <$> p) s Q := by
  rw [← bind_pure_comp]
  exact hp.bind fun _ _ _ h => .pure h

theorem Halts.ite {c : Prop} [Decidable c] {p q : Parse α} {Q : α → ParseState → Prop}
    (yes : c → Halts p s Q) (no : ¬c → Halts q s Q) : Halts (if c then p else q) s Q := by
  split
  · exact yes ‹_›
  · exact no ‹_›

/-- Both branches go on alike with what they give. -/
theorem Halts.join {c : Prop} [Decidable c] {p q : Parse α} {k : α → Parse β}
    {P : α → ParseState → Prop} {Q : β → ParseState → Prop} (yes : c → Halts p s P)
    (no : ¬c → Halts q s P)
    (rest : ∀ a t, t.rest.length ≤ s.rest.length → P a t → Halts (k a) t Q) :
    Halts (if c then p >>= k else q >>= k) s Q := by
  split
  · exact (yes ‹_›).bind rest
  · exact (no ‹_›).bind rest

/-- One branch does something first, and both go on with `k`. -/
theorem Halts.optional {c : Prop} [Decidable c] {p k : Parse β} {Q : β → ParseState → Prop}
    (rest : ∀ t, t.rest.length ≤ s.rest.length → Halts k t Q)
    (yes : (∀ t, t.rest.length ≤ s.rest.length → Halts k t Q) → Halts p s Q) :
    Halts (if c then p else k) s Q := by
  split
  · exact yes rest
  · exact rest s (Nat.le_refl _)

theorem iterate_halts {body : α → Parse (α ⊕ β)} {I : α → ParseState → Prop}
    {Q : β → ParseState → Prop} (bound : Nat)
    (step : ∀ a t, t.rest.length ≤ bound → I a t → Halts (body a) t fun r u =>
      Sum.elim (fun b => u.rest.length < t.rest.length ∧ I b u) (Q · u) r) (n : Nat) (a : α)
    (s : ParseState) (hs : s.rest.length ≤ bound) (hn : s.rest.length < n) (start : I a s) :
    Halts (iterate body n a) s Q := by
  induction n generalizing a s with
  | zero => exact absurd hn (Nat.not_lt_zero _)
  | succ n ih =>
    refine (step a s hs start).bind fun r t hst hr => ?_
    cases r with
    | inl next => exact ih next t (Nat.le_trans hst hs) (Nat.lt_of_lt_of_le hr.1 (by omega)) hr.2
    | inr result => exact .pure hr

/-- A repetition that reads a token each time it goes on comes to an end. -/
theorem loop_halts {body : α → Parse (α ⊕ β)} {a : α} (I : α → ParseState → Prop)
    {Q : β → ParseState → Prop} (start : I a s)
    (step : ∀ a t, t.rest.length ≤ s.rest.length → I a t → Halts (body a) t fun r u =>
      Sum.elim (fun b => u.rest.length < t.rest.length ∧ I b u) (Q · u) r) :
    Halts (loop body a) s Q :=
  iterate_halts s.rest.length step (s.rest.length + 1) a s (Nat.le_refl _) (Nat.lt_succ_self _) start

/-- One more repetition only behind a token. -/
abbrev Steps (p : Parse (α ⊕ β)) (s : ParseState) : Prop :=
  Halts p s fun r t => r.isLeft → t.rest.length < s.rest.length

theorem loop_safe {body : α → Parse (α ⊕ β)} {a : α}
    (step : ∀ a t, t.rest.length ≤ s.rest.length → Steps (body a) t) : Safe (loop body a) s := by
  refine loop_halts (fun _ _ => True) trivial fun a t hst _ => ?_
  refine (step a t hst).mono fun r u _ h => ?_
  cases r with
  | inl b => exact ⟨h rfl, trivial⟩
  | inr b => trivial

theorem halts_bind_of_eq {p : Parse α} {a : α} {f : α → Parse β} {Q : β → ParseState → Prop}
    (h : p s = .ok a s) : Halts (p >>= f) s Q ↔ Halts (f a) s Q := by
  unfold Halts
  rw [bind_of_ok h]

section Reading

variable {Q : β → ParseState → Prop}

@[simp] theorem halts_current {f : Token → Parse β} :
    Halts (current >>= f) s Q ↔ Halts (f s.current) s Q := halts_bind_of_eq rfl

@[simp] theorem halts_currentKind {f : TokenKind → Parse β} :
    Halts (currentKind >>= f) s Q ↔ Halts (f s.current.kind) s Q := halts_bind_of_eq rfl

@[simp] theorem halts_currentStart {f : Nat → Parse β} :
    Halts (currentStart >>= f) s Q ↔ Halts (f s.current.span.start) s Q := halts_bind_of_eq rfl

@[simp] theorem halts_peekKind {n : Nat} {f : TokenKind → Parse β} :
    Halts (peekKind n >>= f) s Q ↔ Halts (f (Tokens.kind (s.rest.drop n))) s Q :=
  halts_bind_of_eq rfl

@[simp] theorem halts_remaining {f : List Token → Parse β} :
    Halts (remaining >>= f) s Q ↔ Halts (f s.rest) s Q := halts_bind_of_eq rfl

@[simp] theorem halts_atEnd {f : Bool → Parse β} :
    Halts (atEnd >>= f) s Q ↔ Halts (f s.current.kind.isEof) s Q := halts_bind_of_eq rfl

@[simp] theorem halts_spanFrom {start : Nat} {f : Span → Parse β} :
    Halts (spanFrom start >>= f) s Q ↔ Halts (f ⟨start, s.prevEnd⟩) s Q := halts_bind_of_eq rfl

@[simp] theorem halts_check {p : Punct} {f : Bool → Parse β} :
    Halts (check p >>= f) s Q ↔ Halts (f (s.current.kind.isPunct p)) s Q := halts_bind_of_eq rfl

@[simp] theorem halts_checkWord {w : Keyword} {f : Bool → Parse β} :
    Halts (checkWord w >>= f) s Q ↔ Halts (f (s.current.kind.isKeyword w)) s Q :=
  halts_bind_of_eq rfl

@[simp] theorem halts_checkName {name : String} {f : Bool → Parse β} :
    Halts (checkName name >>= f) s Q ↔ Halts (f (s.current.kind.isName name)) s Q :=
  halts_bind_of_eq rfl

@[simp] theorem halts_pendingGt {f : Bool → Parse β} :
    Halts (pendingGt >>= f) s Q ↔ Halts (f s.pendingGt) s Q := halts_bind_of_eq rfl

@[simp] theorem halts_atDefaultLabel {f : Bool → Parse β} :
    Halts (atDefaultLabel >>= f) s Q ↔
      Halts (f (s.current.kind.isKeyword .defaultKw && (Tokens.kind (s.rest.drop 1)).isPunct .colon))
        s Q := halts_bind_of_eq rfl

end Reading

theorem failAt_halts {cause : ParseError.Cause} (h : cause ≠ .nesting) (span : Span)
    {Q : α → ParseState → Prop} : Halts (failAt cause span) s Q :=
  ⟨.of_eq rfl, Nat.le_refl _, h⟩

theorem failExpected_halts (what : Expected) {Q : α → ParseState → Prop} :
    Halts (failExpected what) s Q :=
  ⟨.of_eq rfl, Nat.le_refl _, fun h => by cases h⟩

/-- An attempt may fail, but not for want of a bound. -/
theorem attempt_halts {p : Parse α} {Q : α → ParseState → Prop} (hp : Halts p s Q) :
    Halts (attempt p) s fun r t =>
      match r with
      | .ok a => Q a t
      | .error e => e.cause ≠ .nesting := by
  cases hps : p s with
  | ok a t => exact (halts_of_ok (attempt_of_ok hps)).mpr ((halts_of_ok hps).mp hp)
  | error e t => exact (halts_of_ok (attempt_of_error hps)).mpr ((halts_of_error hps).mp hp)

theorem recordError_safe {e : ParseError} (h : e.cause ≠ .nesting) : Safe (recordError e) s := by
  refine ⟨fun x hx => ?_, Nat.le_refl _, trivial⟩
  rcases List.mem_append.mp hx with hx | hx
  · exact .inl hx
  · rw [List.mem_singleton.mp hx]
    exact .inr h

theorem advance_eq_ok (s : ParseState) : ∃ a t, advance s = .ok a t ∧ t.errors = s.errors := by
  rcases advance_cases s with ⟨_, hRun⟩ | ⟨x, l, _, _, hRun⟩
  · exact ⟨_, _, hRun, rfl⟩
  · exact ⟨_, _, hRun, rfl⟩

theorem advance_halts (s : ParseState) : Halts advance s fun _ t =>
    s.current.kind.isEof = false → t.rest.length < s.rest.length := by
  obtain ⟨x, t, hRun, hErrors⟩ := advance_eq_ok s
  obtain ⟨hst, _, _, takes⟩ := (ends_of_ok hRun).mp (advance_ends s)
  exact (halts_of_ok hRun).mpr ⟨.of_eq hErrors, hst.length_le, fun h => (takes h).moves⟩

theorem advance_moves (h : s.current.kind.isEof = false) : Moves advance s :=
  (advance_halts s).mono fun _ _ _ moves => moves h

theorem skip_safe (n : Nat) (s : ParseState) : Safe (skip n) s :=
  ⟨.of_eq rfl, by simp, trivial⟩

theorem length_pos_of_isEof (h : s.current.kind.isEof = false) : 0 < s.rest.length := by
  rw [← kind_rest] at h
  cases hRest : s.rest with
  | nil =>
    rw [hRest] at h
    cases h
  | cons x xs => exact Nat.succ_pos _

theorem skip_moves {n : Nat} (hn : 0 < n) (h : s.current.kind.isEof = false) : Moves (skip n) s := by
  have hPos := length_pos_of_isEof h
  refine ⟨.of_eq rfl, by simp, ?_⟩
  change (s.rest.drop n).length < s.rest.length
  rw [List.length_drop]
  omega

theorem isEof_of_isName {k : TokenKind} {name : String} (h : k.isName name = true) :
    k.isEof = false := by
  cases k with
  | eof => cases h
  | _ => rfl

theorem accept_halts (p : Punct) (s : ParseState) : Halts (accept p) s fun b t =>
    b = true → t.rest.length < s.rest.length := by
  unfold accept
  simp only [halts_check]
  refine .ite (fun h => ?_) fun _ => .pure fun h => by cases h
  exact (advance_moves (isEof_of_isPunct h)).bind fun _ _ _ moves => .pure fun _ => moves

theorem acceptWord_halts (w : Keyword) (s : ParseState) : Halts (acceptWord w) s fun b t =>
    b = true → t.rest.length < s.rest.length := by
  unfold acceptWord
  simp only [halts_checkWord]
  refine .ite (fun h => ?_) fun _ => .pure fun h => by cases h
  exact (advance_moves (isEof_of_isKeyword h)).bind fun _ _ _ moves => .pure fun _ => moves

theorem expect_moves (p : Punct) (s : ParseState) : Moves (expect p) s := by
  unfold expect
  refine (accept_halts p s).bind fun b t _ moves => ?_
  exact .ite (fun h => .pure (moves h)) fun _ => failExpected_halts _

theorem expectWord_moves (w : Keyword) (s : ParseState) : Moves (expectWord w) s := by
  unfold expectWord
  refine (acceptWord_halts w s).bind fun b t _ moves => ?_
  exact .ite (fun h => .pure (moves h)) fun _ => failExpected_halts _

theorem expectName_moves (s : ParseState) : Moves expectName s := by
  unfold expectName
  simp only [halts_currentKind]
  split
  next name h => exact (advance_moves (by rw [h]; rfl)).bind fun _ _ _ moves => .pure moves
  next => exact failExpected_halts _

theorem setPendingGt_safe (b : Bool) (s : ParseState) : Safe (setPendingGt b) s :=
  ⟨.of_eq rfl, Nat.le_refl _, trivial⟩

theorem expectClosingAngle_safe (s : ParseState) : Safe expectClosingAngle s := by
  unfold expectClosingAngle
  simp only [halts_pendingGt]
  refine .ite (fun _ => setPendingGt_safe _ s) fun _ => ?_
  refine (accept_halts .gt s).bind fun _ t _ _ => .ite (fun _ => .pure trivial) fun _ => ?_
  refine (accept_halts .gtGt t).bind fun _ u _ _ => ?_
  exact .ite (fun _ => setPendingGt_safe _ u) fun _ => failExpected_halts _

theorem finishExpr_safe (start : Nat) (kind : ExprKind Expr) (s : ParseState) :
    Safe (finishExpr start kind) s :=
  ⟨.of_eq rfl, Nat.le_refl _, trivial⟩

theorem finishStmt_safe (start : Nat) (kind : StmtKind Stmt) (s : ParseState) :
    Safe (finishStmt start kind) s :=
  ⟨.of_eq rfl, Nat.le_refl _, trivial⟩

/-- The number and the span of a node are found without reading. -/
theorem fresh_halts {start : Nat} {mk : NodeId → Span → α} {Q : α → ParseState → Prop}
    (h : ∀ a t, t.rest.length = s.rest.length → Q a t) :
    Halts (freshId >>= fun id => spanFrom start >>= fun span => pure (mk id span)) s Q :=
  ⟨.of_eq rfl, Nat.le_refl _, h _ _ rfl⟩

/-- A comma leads to one more item, so that the items themselves need not move. -/
theorem commaSeparated_safe {item : Parse α}
    (h : ∀ t, t.rest.length ≤ s.rest.length → Safe item t) : Safe (commaSeparated item) s := by
  refine loop_safe fun items t hst => ?_
  refine (h t hst).bind fun x u htu _ => ?_
  refine (accept_halts .comma u).bind fun b v huv moves => ?_
  refine .ite (fun hb => .pure fun _ => ?_) fun _ => .pure fun h => by cases h
  exact Nat.lt_of_lt_of_le (moves hb) htu

theorem countCommas_safe (s : ParseState) : Safe countCommas s := by
  refine loop_safe fun n t hst => ?_
  refine (accept_halts .comma t).bind fun b u _ moves => ?_
  exact .ite (fun hb => .pure fun _ => moves hb) fun _ => .pure fun h => by cases h

theorem skipAttributes_safe (s : ParseState) : Safe skipAttributes s := by
  refine loop_safe fun _ t hst => ?_
  simp only [halts_check]
  refine .ite (fun h => ?_) fun _ => .pure fun h => by cases h
  refine (advance_moves (isEof_of_isPunct h)).bind fun opening u _ htu => ?_
  simp only [halts_remaining]
  refine (skip_safe _ u).bind fun _ v huv _ => ?_
  refine .ite (fun _ => .pure fun _ => ?_) fun _ => failAt_halts (by simp) _
  exact Nat.lt_of_le_of_lt huv htu

theorem skipConstraints_safe (s : ParseState) : Safe skipConstraints s := by
  unfold skipConstraints
  simp only [halts_checkName]
  refine .ite (fun _ => ?_) fun _ => .pure trivial
  simp only [halts_remaining]
  exact skip_safe _ s

theorem recover_safe (before : List Token) (distance : List Token → Nat) (s : ParseState) :
    Safe (recover before distance) s := by
  unfold recover
  simp only [halts_remaining]
  refine (skip_safe _ s).bind fun _ t _ _ => ?_
  simp only [halts_remaining]
  refine .ite (fun _ => ?_) fun _ => .pure trivial
  exact (advance_halts t).bind fun _ _ _ _ => .pure trivial

theorem modifierAt_isSome {k next : TokenKind} {m : Modifier} (h : modifierAt k next = some m) :
    k.isEof = false := by
  cases k with
  | eof => cases h
  | _ => rfl

theorem modifiers_safe (s : ParseState) : Safe modifiers s := by
  refine loop_safe fun list t _ => ?_
  simp only [halts_currentKind, halts_peekKind]
  split
  next m h =>
    exact (advance_moves (modifierAt_isSome h)).bind fun _ u _ moves => .pure fun _ => moves
  next => exact .pure fun h => by cases h

end Parse

end Stackable
