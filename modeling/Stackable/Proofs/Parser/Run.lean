import Stackable.Proofs.Parser.Steps

/-!
# Runs of the parser

`LeadsTo` says what every rule does to the state, whether it succeeds or fails: it reads tokens
from the front and never the end of the text, it hands out numbers upwards, and it keeps the
errors met before. `Ends p s Q` adds what holds of the result if there is one. The rules for
sequences, choices and repetitions let each rule of the grammar be followed step by step.
-/

set_option autoImplicit false

namespace Stackable

namespace Tokens

/-- None of the tokens is the end of the text. -/
def Inner (ts : List Token) : Prop := ∀ x ∈ ts, x.kind.isEof = false

theorem inner_nil : Inner [] := by
  simp [Inner]

theorem Inner.cons {t : Token} {ts : List Token} (ht : t.kind ≠ .eof) (h : Inner ts) :
    Inner (t :: ts) := by
  intro x hx
  rcases List.mem_cons.mp hx with rfl | hx
  · cases hk : x.kind <;> simp_all [TokenKind.isEof]
  · exact h x hx

theorem Inner.take_succ {t : Token} {ts : List Token} {n : Nat} (ht : t.kind ≠ .eof)
    (h : Inner (ts.take n)) : Inner ((t :: ts).take (1 + n)) := by
  rw [Nat.add_comm, List.take_succ_cons]
  exact h.cons ht

theorem Inner.take_one {t : Token} {ts : List Token} (ht : t.kind ≠ .eof) :
    Inner ((t :: ts).take 1) := by
  rw [List.take_succ_cons, List.take_zero]
  exact inner_nil.cons ht

theorem inner_toDecl (depth : Nat) (ts : List Token) : Inner (ts.take (toDecl depth ts)) := by
  fun_induction toDecl depth ts with
  | case1 | case2 => exact inner_nil
  | _ => grind [Inner.take_succ, Inner.take_one, inner_nil]

theorem inner_toMember (depth : Nat) (ts : List Token) : Inner (ts.take (toMember depth ts)) := by
  fun_induction toMember depth ts with
  | case1 | case2 => exact inner_nil
  | _ => grind [Inner.take_succ, Inner.take_one, inner_nil]

theorem inner_toStmt (ts : List Token) : Inner (ts.take (toStmt ts)) := by
  fun_induction toStmt ts with
  | case1 | case2 => exact inner_nil
  | _ => grind [Inner.take_succ, Inner.take_one, inner_nil]

theorem inner_toClosingBrace (depth : Nat) (ts : List Token) :
    Inner (ts.take (toClosingBrace depth ts)) := by
  fun_induction toClosingBrace depth ts with
  | case1 | case2 => exact inner_nil
  | _ => grind [Inner.take_succ, Inner.take_one, inner_nil]

theorem inner_toClosingBracket (depth : Nat) (ts : List Token) :
    Inner (ts.take (toClosingBracket depth ts).1) := by
  fun_induction toClosingBracket depth ts with
  | case1 | case2 => exact inner_nil
  | case4 => exact .take_one (by simp_all)
  | _ => exact .take_succ (by simp_all) ‹_›

theorem inner_toBody (ts : List Token) : Inner (ts.take (toBody ts)) := by
  fun_induction toBody ts with
  | case6 => exact .take_succ (by simp_all) ‹_›
  | _ => exact inner_nil

end Tokens

namespace ParseState

structure LeadsTo (s t : ParseState) : Prop where
  read : ∃ read, s.rest = read ++ t.rest ∧ Tokens.Inner read ∧
    t.prevEnd = (read.getLast?.map (·.span.stop)).getD s.prevEnd
  ids : s.nextId ≤ t.nextId
  errors : s.errors <+: t.errors
  endOffset : t.endOffset = s.endOffset

theorem LeadsTo.refl (s : ParseState) : s.LeadsTo s :=
  ⟨⟨[], rfl, Tokens.inner_nil, rfl⟩, Nat.le_refl _, List.prefix_rfl, rfl⟩

theorem LeadsTo.trans {s t u : ParseState} (h : s.LeadsTo t) (k : t.LeadsTo u) : s.LeadsTo u := by
  obtain ⟨front, hFront, hFrontEof, hFrontEnd⟩ := h.read
  obtain ⟨back, hBack, hBackEof, hBackEnd⟩ := k.read
  refine ⟨⟨front ++ back, ?_, ?_, ?_⟩, Nat.le_trans h.ids k.ids, h.errors.trans k.errors,
    k.endOffset.trans h.endOffset⟩
  · rw [hFront, hBack, List.append_assoc]
  · intro x hx
    rcases List.mem_append.mp hx with hx | hx
    · exact hFrontEof x hx
    · exact hBackEof x hx
  · rw [hBackEnd, hFrontEnd, List.getLast?_append]
    cases back.getLast? <;> rfl

theorem LeadsTo.suffix {s t : ParseState} (h : s.LeadsTo t) : t.rest <:+ s.rest := by
  obtain ⟨read, hRead, _⟩ := h.read
  exact ⟨read, hRead.symm⟩

theorem LeadsTo.length_le {s t : ParseState} (h : s.LeadsTo t) : t.rest.length ≤ s.rest.length :=
  h.suffix.length_le

/-- Tokens are passed over, and no number is handed out. -/
structure Passes (s t : ParseState) : Prop extends s.LeadsTo t where
  nextId : t.nextId = s.nextId
  sameErrors : t.errors = s.errors

/-- As `Passes`, over one token at least. -/
structure Takes (s t : ParseState) : Prop extends s.Passes t where
  moves : t.rest.length < s.rest.length

theorem Passes.refl (s : ParseState) : s.Passes s := ⟨.refl s, rfl, rfl⟩

theorem Passes.trans {s t u : ParseState} (h : s.Passes t) (k : t.Passes u) : s.Passes u :=
  ⟨h.toLeadsTo.trans k.toLeadsTo, k.nextId.trans h.nextId, k.sameErrors.trans h.sameErrors⟩

theorem Takes.passes {s t u : ParseState} (h : s.Takes t) (k : t.Passes u) : s.Takes u :=
  ⟨h.toPasses.trans k, Nat.lt_of_le_of_lt k.toLeadsTo.length_le h.moves⟩

theorem Passes.takes {s t u : ParseState} (h : s.Passes t) (k : t.Takes u) : s.Takes u :=
  ⟨h.trans k.toPasses, Nat.lt_of_lt_of_le k.moves h.toLeadsTo.length_le⟩

theorem Takes.trans {s t u : ParseState} (h : s.Takes t) (k : t.Takes u) : s.Takes u :=
  h.passes k.toPasses

end ParseState

open ParseState

namespace Parse

variable {α β : Type} {s t : ParseState}

/-- Wherever `p` ends, the state has kept what a rule keeps, and a result satisfies `Q`. -/
def Ends (p : Parse α) (s : ParseState) (Q : α → ParseState → Prop) : Prop :=
  match p s with
  | .ok a t => s.LeadsTo t ∧ Q a t
  | .error _ t => s.LeadsTo t

theorem ends_of_ok {p : Parse α} {a : α} {Q : α → ParseState → Prop} (h : p s = .ok a t) :
    Ends p s Q ↔ s.LeadsTo t ∧ Q a t := by
  unfold Ends
  rw [h]

theorem ends_of_error {p : Parse α} {e : ParseError} {Q : α → ParseState → Prop}
    (h : p s = .error e t) : Ends p s Q ↔ s.LeadsTo t := by
  unfold Ends
  rw [h]

theorem Ends.pure {a : α} {Q : α → ParseState → Prop} (h : Q a s) : Ends (pure a) s Q :=
  ⟨.refl s, h⟩

theorem Ends.bind {p : Parse α} {f : α → Parse β} {P : α → ParseState → Prop}
    {Q : β → ParseState → Prop} (hp : Ends p s P) (hf : ∀ a t, P a t → Ends (f a) t Q) :
    Ends (p >>= f) s Q := by
  cases hps : p s with
  | error e t => exact (ends_of_error (bind_of_error hps)).mpr ((ends_of_error hps).mp hp)
  | ok a t =>
    obtain ⟨hst, hP⟩ := (ends_of_ok hps).mp hp
    have hfa := hf a t hP
    cases hft : f a t with
    | error e u =>
      have htu := (ends_of_error hft).mp hfa
      exact (ends_of_error ((bind_of_ok hps).trans hft)).mpr (hst.trans htu)
    | ok b u =>
      obtain ⟨htu, hQ⟩ := (ends_of_ok hft).mp hfa
      exact (ends_of_ok ((bind_of_ok hps).trans hft)).mpr ⟨hst.trans htu, hQ⟩

theorem Ends.mono {p : Parse α} {P Q : α → ParseState → Prop} (hp : Ends p s P)
    (h : ∀ a t, P a t → Q a t) : Ends p s Q := by
  unfold Ends at hp ⊢
  split at hp
  · exact ⟨hp.1, h _ _ hp.2⟩
  · exact hp

theorem Ends.map {p : Parse α} {f : α → β} {P : α → ParseState → Prop} {Q : β → ParseState → Prop}
    (hp : Ends p s P) (h : ∀ a t, P a t → Q (f a) t) : Ends (f <$> p) s Q := by
  rw [← bind_pure_comp]
  exact hp.bind fun a t ha => .pure (h a t ha)

/-- Both branches go on alike with what they give. -/
theorem Ends.join {c : Prop} [Decidable c] {p q : Parse α} {k : α → Parse β}
    {P : α → ParseState → Prop} {Q : β → ParseState → Prop} (yes : c → Ends p s P)
    (no : ¬c → Ends q s P) (rest : ∀ a t, P a t → Ends (k a) t Q) :
    Ends (if c then p >>= k else q >>= k) s Q := by
  split
  · exact (yes ‹_›).bind rest
  · exact (no ‹_›).bind rest

/-- One branch does something first, and both go on with `k`. -/
theorem Ends.optional {c : Prop} [Decidable c] {p k : Parse β} (P : ParseState → Prop)
    {Q : β → ParseState → Prop} (rest : ∀ t, P t → Ends k t Q)
    (yes : c → (∀ t, P t → Ends k t Q) → Ends p s Q) (no : ¬c → P s) :
    Ends (if c then p else k) s Q := by
  split
  · exact yes ‹_› rest
  · exact rest s (no ‹_›)

theorem Ends.ite {c : Prop} [Decidable c] {p q : Parse α} {Q : α → ParseState → Prop}
    (yes : c → Ends p s Q) (no : ¬c → Ends q s Q) : Ends (if c then p else q) s Q := by
  split
  · exact yes ‹_›
  · exact no ‹_›

theorem iterate_ends {body : α → Parse (α ⊕ β)} {I : α → ParseState → Prop}
    {Q : β → ParseState → Prop}
    (step : ∀ a t, I a t → Ends (body a) t fun r u => Sum.elim (I · u) (Q · u) r) (n : Nat) (a : α)
    (s : ParseState) (start : I a s) : Ends (iterate body n a) s Q := by
  induction n generalizing a s with
  | zero => exact LeadsTo.refl s
  | succ n ih =>
    refine (step a s start).bind fun r t hr => ?_
    cases r with
    | inl next => exact ih next t hr
    | inr result => exact .pure hr

/-- What each repetition keeps holds at every repetition, and the last one gives the result. -/
theorem loop_ends {body : α → Parse (α ⊕ β)} {a : α} (I : α → ParseState → Prop)
    {Q : β → ParseState → Prop} (start : I a s)
    (step : ∀ a t, I a t → Ends (body a) t fun r u => Sum.elim (I · u) (Q · u) r) :
    Ends (loop body a) s Q :=
  iterate_ends step (s.rest.length + 1) a s start

theorem ends_bind_of_eq {p : Parse α} {a : α} {f : α → Parse β} {Q : β → ParseState → Prop}
    (h : p s = .ok a s) : Ends (p >>= f) s Q ↔ Ends (f a) s Q := by
  unfold Ends
  rw [bind_of_ok h]

section Reading

variable {Q : β → ParseState → Prop}

@[simp] theorem ends_current {f : Token → Parse β} :
    Ends (current >>= f) s Q ↔ Ends (f s.current) s Q := ends_bind_of_eq rfl

@[simp] theorem ends_currentKind {f : TokenKind → Parse β} :
    Ends (currentKind >>= f) s Q ↔ Ends (f s.current.kind) s Q := ends_bind_of_eq rfl

@[simp] theorem ends_currentStart {f : Nat → Parse β} :
    Ends (currentStart >>= f) s Q ↔ Ends (f s.current.span.start) s Q := ends_bind_of_eq rfl

@[simp] theorem ends_peekKind {n : Nat} {f : TokenKind → Parse β} :
    Ends (peekKind n >>= f) s Q ↔ Ends (f (Tokens.kind (s.rest.drop n))) s Q := ends_bind_of_eq rfl

@[simp] theorem ends_remaining {f : List Token → Parse β} :
    Ends (remaining >>= f) s Q ↔ Ends (f s.rest) s Q := ends_bind_of_eq rfl

@[simp] theorem ends_atEnd {f : Bool → Parse β} :
    Ends (atEnd >>= f) s Q ↔ Ends (f s.current.kind.isEof) s Q := ends_bind_of_eq rfl

@[simp] theorem ends_spanFrom {start : Nat} {f : Span → Parse β} :
    Ends (spanFrom start >>= f) s Q ↔ Ends (f ⟨start, s.prevEnd⟩) s Q := ends_bind_of_eq rfl

@[simp] theorem ends_check {p : Punct} {f : Bool → Parse β} :
    Ends (check p >>= f) s Q ↔ Ends (f (s.current.kind.isPunct p)) s Q := ends_bind_of_eq rfl

@[simp] theorem ends_checkWord {w : Keyword} {f : Bool → Parse β} :
    Ends (checkWord w >>= f) s Q ↔ Ends (f (s.current.kind.isKeyword w)) s Q := ends_bind_of_eq rfl

@[simp] theorem ends_checkName {name : String} {f : Bool → Parse β} :
    Ends (checkName name >>= f) s Q ↔ Ends (f (s.current.kind.isName name)) s Q :=
  ends_bind_of_eq rfl

@[simp] theorem ends_pendingGt {f : Bool → Parse β} :
    Ends (pendingGt >>= f) s Q ↔ Ends (f s.pendingGt) s Q := ends_bind_of_eq rfl

@[simp] theorem ends_atDefaultLabel {f : Bool → Parse β} :
    Ends (atDefaultLabel >>= f) s Q ↔
      Ends (f (s.current.kind.isKeyword .defaultKw && (Tokens.kind (s.rest.drop 1)).isPunct .colon))
        s Q := ends_bind_of_eq rfl

end Reading

theorem failAt_ends (cause : ParseError.Cause) (span : Span) {Q : α → ParseState → Prop} :
    Ends (failAt cause span) s Q := LeadsTo.refl s

theorem failExpected_ends (what : Expected) {Q : α → ParseState → Prop} :
    Ends (failExpected what) s Q := LeadsTo.refl s

theorem attempt_ends {p : Parse α} {Q : α → ParseState → Prop} (hp : Ends p s Q) :
    Ends (attempt p) s fun r t =>
      match r with
      | .ok a => Q a t
      | .error _ => s.LeadsTo t := by
  cases hps : p s with
  | ok a t => exact (ends_of_ok (attempt_of_ok hps)).mpr ((ends_of_ok hps).mp hp)
  | error e t =>
    have hst := (ends_of_error hps).mp hp
    exact (ends_of_ok (attempt_of_error hps)).mpr ⟨hst, hst⟩

theorem recordError_ends (e : ParseError) :
    Ends (recordError e) s fun _ t => s.LeadsTo t ∧ t.errors ≠ s.errors := by
  have h : s.LeadsTo { s with errors := s.errors ++ [e] } :=
    ⟨(LeadsTo.refl s).read, Nat.le_refl _, List.prefix_append _ _, rfl⟩
  exact ⟨h, h, by simp⟩

/-! ## Reading tokens -/

theorem current_of_cons {x : Token} {ts : List Token} (h : s.rest = x :: ts) : s.current = x := by
  rw [ParseState.current, h, List.headD_cons]

theorem kind_rest (s : ParseState) : Tokens.kind s.rest = s.current.kind := by
  unfold ParseState.current
  cases s.rest <;> rfl

theorem advance_cases (s : ParseState) :
    s.current.kind.isEof = true ∧ advance s = .ok s.current s ∨
    ∃ x l, s.rest = x :: l ∧ x.kind.isEof = false ∧
      advance s = .ok x { s with rest := l, prevEnd := x.span.stop } := by
  obtain ⟨rest, prevEnd, pendingGt, errors, nextId, endOffset⟩ := s
  cases rest with
  | nil => exact .inl ⟨rfl, rfl⟩
  | cons x l =>
    cases hx : x.kind.isEof with
    | true =>
      refine .inl ⟨hx, ?_⟩
      change (if x.kind.isEof = true then (Pure.pure x : Parse Token) else _) _ = _
      rw [if_pos hx]
      rfl
    | false =>
      refine .inr ⟨x, l, rfl, hx, ?_⟩
      change (if x.kind.isEof = true then (Pure.pure x : Parse Token) else _) _ = _
      rw [if_neg (by simp [hx])]
      rfl

theorem advance_ends (s : ParseState) : Ends advance s fun x t =>
    x = s.current ∧ s.Passes t ∧ (s.current.kind.isEof = false → s.Takes t) := by
  rcases advance_cases s with ⟨hEof, hRun⟩ | ⟨x, l, hRest, hx, hRun⟩
  · rw [ends_of_ok hRun]
    refine ⟨.refl s, rfl, .refl s, fun h => ?_⟩
    rw [hEof] at h
    cases h
  · rw [ends_of_ok hRun]
    have hCurrent := current_of_cons hRest
    have lead : s.LeadsTo { s with rest := l, prevEnd := x.span.stop } :=
      ⟨⟨[x], hRest, by simpa [Tokens.Inner] using hx, rfl⟩, Nat.le_refl _, List.prefix_rfl, rfl⟩
    exact ⟨lead, hCurrent.symm, ⟨lead, rfl, rfl⟩, fun _ => ⟨⟨lead, rfl, rfl⟩, by simp [hRest]⟩⟩

theorem advance_passes (s : ParseState) : Ends advance s fun _ t => s.Passes t :=
  (advance_ends s).mono fun _ _ h => h.2.1

theorem skip_ends {n : Nat} (h : Tokens.Inner (s.rest.take n)) :
    Ends (skip n) s fun _ t => s.Passes t ∧ t.rest = s.rest.drop n := by
  obtain ⟨t, hRun, passes, hRest⟩ : ∃ t, skip n s = .ok () t ∧ s.Passes t ∧ t.rest = s.rest.drop n := by
    refine ⟨_, rfl, ⟨⟨⟨s.rest.take n, (List.take_append_drop n s.rest).symm, h, ?_⟩, Nat.le_refl _,
      List.prefix_rfl, rfl⟩, rfl, rfl⟩, rfl⟩
    dsimp only
    cases (s.rest.take n).getLast? <;> rfl
  exact (ends_of_ok hRun).mpr ⟨passes.toLeadsTo, passes, hRest⟩

theorem skip_passes {n : Nat} (h : Tokens.Inner (s.rest.take n)) :
    Ends (skip n) s fun _ t => s.Passes t :=
  (skip_ends h).mono fun _ _ h => h.1

theorem isEof_of_isPunct {k : TokenKind} {p : Punct} (h : k.isPunct p = true) : k.isEof = false := by
  cases k <;> simp_all [TokenKind.isPunct, TokenKind.isEof]

theorem isEof_of_isKeyword {k : TokenKind} {w : Keyword} (h : k.isKeyword w = true) :
    k.isEof = false := by
  cases k <;> simp_all [TokenKind.isKeyword, TokenKind.isEof]

theorem accept_ends (p : Punct) (s : ParseState) : Ends (accept p) s fun b t =>
    s.Passes t ∧ (b = true → s.Takes t) ∧ (b = false → t = s) := by
  unfold accept
  rw [ends_check]
  refine .ite (fun h => ?_) fun _ => .pure ⟨.refl s, by simp, fun _ => rfl⟩
  refine (advance_ends s).bind fun _ t hRead => .pure ?_
  obtain ⟨_, _, takes⟩ := hRead
  have := takes (isEof_of_isPunct h)
  exact ⟨this.toPasses, fun _ => this, by simp⟩

theorem acceptWord_ends (w : Keyword) (s : ParseState) : Ends (acceptWord w) s fun b t =>
    s.Passes t ∧ (b = true → s.Takes t) ∧ (b = false → t = s) := by
  unfold acceptWord
  rw [ends_checkWord]
  refine .ite (fun h => ?_) fun _ => .pure ⟨.refl s, by simp, fun _ => rfl⟩
  refine (advance_ends s).bind fun _ t hRead => .pure ?_
  obtain ⟨_, _, takes⟩ := hRead
  have := takes (isEof_of_isKeyword h)
  exact ⟨this.toPasses, fun _ => this, by simp⟩

theorem accept_passes (p : Punct) (s : ParseState) : Ends (accept p) s fun _ t => s.Passes t :=
  (accept_ends p s).mono fun _ _ h => h.1

theorem acceptWord_passes (w : Keyword) (s : ParseState) :
    Ends (acceptWord w) s fun _ t => s.Passes t :=
  (acceptWord_ends w s).mono fun _ _ h => h.1

theorem expect_ends (p : Punct) (s : ParseState) : Ends (expect p) s fun _ t => s.Takes t := by
  unfold expect
  refine (accept_ends p s).bind fun b t hRead => ?_
  obtain ⟨_, takes, _⟩ := hRead
  exact .ite (fun h => .pure (takes h)) fun _ => failExpected_ends _

theorem expectWord_ends (w : Keyword) (s : ParseState) :
    Ends (expectWord w) s fun _ t => s.Takes t := by
  unfold expectWord
  refine (acceptWord_ends w s).bind fun b t hRead => ?_
  obtain ⟨_, takes, _⟩ := hRead
  exact .ite (fun h => .pure (takes h)) fun _ => failExpected_ends _

theorem expectName_ends (s : ParseState) : Ends expectName s fun _ t => s.Takes t := by
  unfold expectName
  rw [ends_currentKind]
  split
  · rename_i name h
    refine (advance_ends s).bind fun _ t hRead => .pure (hRead.2.2 ?_)
    rw [h]
    rfl
  · exact failExpected_ends _

theorem setPendingGt_ends (b : Bool) (s : ParseState) :
    Ends (setPendingGt b) s fun _ t => s.Passes t := by
  have lead : s.LeadsTo { s with pendingGt := b } :=
    ⟨(LeadsTo.refl s).read, Nat.le_refl _, List.prefix_rfl, rfl⟩
  exact ⟨lead, lead, rfl, rfl⟩

theorem expectClosingAngle_ends (s : ParseState) :
    Ends expectClosingAngle s fun _ t => s.Passes t := by
  unfold expectClosingAngle
  rw [ends_pendingGt]
  refine .ite (fun _ => setPendingGt_ends false s) fun _ => ?_
  refine (accept_passes .gt s).bind fun b t hst => ?_
  refine .ite (fun _ => .pure hst) fun _ => ?_
  refine (accept_passes .gtGt t).bind fun b u htu => ?_
  refine .ite (fun _ => ?_) fun _ => failExpected_ends _
  exact (setPendingGt_ends true u).mono fun _ v huv => (hst.trans htu).trans huv

/-- `I` has to hold after each item, whether a comma follows it or not. -/
theorem commaSeparated_ends {item : Parse α} (I : List α → ParseState → Prop)
    (more : ∀ items t u, I items t → t.Passes u → I items u) (start : I [] s)
    (step : ∀ items t, I items t → Ends item t fun x u => I (items ++ [x]) u) :
    Ends (commaSeparated item) s I := by
  refine loop_ends I start fun items t hI => (step items t hI).bind fun x u hx => ?_
  refine (accept_passes .comma u).bind fun b v huv => ?_
  exact .ite (fun _ => .pure (more _ _ _ hx huv)) fun _ => .pure (more _ _ _ hx huv)

theorem countCommas_ends (s : ParseState) : Ends countCommas s fun _ t => s.Passes t := by
  refine loop_ends (fun _ t => s.Passes t) (.refl s) fun n t hst => ?_
  refine (accept_passes .comma t).bind fun b u htu => ?_
  exact .ite (fun _ => .pure (hst.trans htu)) fun _ => .pure (hst.trans htu)

theorem skipAttributes_ends (s : ParseState) : Ends skipAttributes s fun _ t => s.Passes t := by
  refine loop_ends (fun _ t => s.Passes t) (.refl s) fun _ t hst => ?_
  rw [ends_check]
  refine .ite (fun _ => ?_) fun _ => .pure hst
  refine (advance_passes t).bind fun opening u htu => ?_
  rw [ends_remaining]
  refine (skip_passes (Tokens.inner_toClosingBracket 1 u.rest)).bind fun _ v huv => ?_
  exact .ite (fun _ => .pure ((hst.trans htu).trans huv)) fun _ => failAt_ends _ _

theorem skipConstraints_ends (s : ParseState) : Ends skipConstraints s fun _ t => s.Passes t := by
  unfold skipConstraints
  rw [ends_checkName]
  refine .ite (fun _ => ?_) fun _ => .pure (.refl s)
  rw [ends_remaining]
  exact (skip_ends (Tokens.inner_toBody s.rest)).mono fun _ t h => h.1

theorem recover_ends {before : List Token} {distance : List Token → Nat}
    (h : Tokens.Inner (s.rest.take (distance s.rest))) :
    Ends (recover before distance) s fun _ t => s.Passes t := by
  unfold recover
  rw [ends_remaining]
  refine (skip_passes h).bind fun _ t hst => ?_
  rw [ends_remaining]
  refine .ite (fun _ => ?_) fun _ => .pure hst
  exact (advance_passes t).bind fun _ u htu => .pure (hst.trans htu)

end Parse

end Stackable
