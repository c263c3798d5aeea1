import Stackable.Proofs.Parser.Run
import Stackable.Proofs.Parser.Steps

/-!
# What a run does with errors

An error that a rule ends with is kept by the body around it: a block, the members of a type or the
declarations of a namespace. While there is room, the body goes on; the error that fills the room is
kept too and ends the body, but not those around it. `Reaches` lists these moves. A parser is steady
if it makes no others. Sequences, choices and repetitions of steady parsers are steady, and so is a
body behind the token that opens it.
-/

set_option autoImplicit false

namespace Stackable

/-- The tokens that stand in front of a body. -/
def TokenKind.opensBody (k : TokenKind) : Bool := k.isPunct .lBrace || k.isKeyword .namespaceKw

namespace ParseState

/-- The token between the two states opens a body. -/
def Opens (s t : ParseState) : Prop :=
  ∃ x : Token, x.kind.opensBody = true ∧ s.rest = x :: t.rest ∧ t.errors = s.errors

inductive Reaches : ParseState → ParseState → Prop where
  | pass {s t : ParseState} (rest : t.rest <:+ s.rest) (errors : t.errors = s.errors) : Reaches s t
  /-- There is room for more errors than this one. -/
  | keep {s : ParseState} (e : ParseError) (room : s.errors.length + 1 < Parse.maxErrors) :
      Reaches s { s with errors := s.errors ++ [e] }
  | giveUp {s t u : ParseState} (opens : s.Opens t) (inside : Reaches t u) (e : ParseError)
      (full : Parse.maxErrors ≤ u.errors.length + 1) :
      Reaches s { u with errors := u.errors ++ [e] }
  | trans {s t u : ParseState} (first : Reaches s t) (next : Reaches t u) : Reaches s u

theorem Reaches.refl (s : ParseState) : s.Reaches s := .pass List.suffix_rfl rfl

/-- As `Reaches`, or the body at hand is given up on the way. -/
def RunsOut (s t : ParseState) : Prop :=
  s.Reaches t ∨ ∃ u e, s.Reaches u ∧ Parse.maxErrors ≤ u.errors.length + 1 ∧
    Reaches { u with errors := u.errors ++ [e] } t

theorem Reaches.runsOut {s t u : ParseState} (h : s.Reaches t) (k : t.RunsOut u) : s.RunsOut u := by
  rcases k with k | ⟨v, e, htv, full, hvu⟩
  · exact .inl (h.trans k)
  · exact .inr ⟨v, e, h.trans htv, full, hvu⟩

theorem RunsOut.reaches {s t u : ParseState} (h : s.RunsOut t) (k : t.Reaches u) : s.RunsOut u := by
  rcases h with h | ⟨v, e, hsv, full, hvt⟩
  · exact .inl (h.trans k)
  · exact .inr ⟨v, e, hsv, full, hvt.trans k⟩

/-- Seen from outside, a body that is given up is one move. -/
theorem Opens.reaches {s t u : ParseState} (h : s.Opens t) (k : t.RunsOut u) : s.Reaches u := by
  rcases k with k | ⟨v, e, htv, full, hvu⟩
  · obtain ⟨x, _, hRest, hErrors⟩ := h
    have hst : s.Reaches t := .pass (by rw [hRest]; exact List.suffix_cons x t.rest) hErrors
    exact hst.trans k
  · exact (Reaches.giveUp h htv e full).trans hvu

end ParseState

namespace Parse

open ParseState

variable {α β : Type}

/-- The state in which `p` ends, with a result or with an error. -/
def outcome (p : Parse α) (s : ParseState) : ParseState :=
  match p s with
  | .ok _ t => t
  | .error _ t => t

class Steady (p : Parse α) : Prop where
  reaches (s : ParseState) : s.Reaches (outcome p s)

theorem outcome_bind {p : Parse α} {f : α → Parse β} {s : ParseState} :
    outcome (p >>= f) s = match p s with
      | .ok a t => outcome (f a) t
      | .error _ t => t := by
  unfold outcome
  cases hRun : p s with
  | ok a t => rw [bind_of_ok hRun]
  | error e t => rw [bind_of_error hRun]

instance Steady.pure {a : α} : Steady (pure a) where
  reaches := .refl

instance Steady.bind {p : Parse α} {f : α → Parse β} [hp : Steady p] [hf : ∀ a, Steady (f a)] :
    Steady (p >>= f) where
  reaches s := by
    have first := hp.reaches s
    rw [outcome_bind]
    unfold outcome at first
    cases hRun : p s with
    | error e t =>
      rw [hRun] at first
      exact first
    | ok a t =>
      rw [hRun] at first
      exact first.trans ((hf a).reaches t)

/-- For what follows a result and depends on its form. -/
theorem Steady.andThen {p : Parse α} {f : α → Parse β} [Steady p] (hf : ∀ a, Steady (f a)) :
    Steady (p >>= f) := .bind

instance Steady.map {p : Parse α} {f : α → β} [Steady p] : Steady (f <$> p) := by
  rw [← bind_pure_comp]
  infer_instance

instance Steady.ite {c : Prop} [Decidable c] {p q : Parse α} [hp : Steady p] [hq : Steady q] :
    Steady (if c then p else q) := by
  split
  · exact hp
  · exact hq

/-- Both branches go on alike with what they give. -/
theorem Steady.join {c : Prop} [Decidable c] {p q : Parse α} {k : α → Parse β} [Steady p] [Steady q]
    (hk : ∀ a, Steady (k a)) : Steady (if c then p >>= k else q >>= k) := .ite

/-- One branch does something first, and both go on with `k`. -/
theorem Steady.optional {c : Prop} [Decidable c] {p k : Parse β} (rest : Steady k)
    (first : Steady k → Steady p) : Steady (if c then p else k) := by
  split
  · exact first rest
  · exact rest

instance Steady.failAt {cause : ParseError.Cause} {span : Span} :
    Steady (Parse.failAt cause span : Parse α) where
  reaches := .refl

/-- What is read off the state leaves it as it is. -/
theorem Steady.read {p : Parse α} (h : ∀ s, ∃ a, p s = .ok a s) : Steady p where
  reaches s := by
    obtain ⟨a, hRun⟩ := h s
    unfold outcome
    rw [hRun]
    exact .refl s

instance : Steady current := .read fun _ => ⟨_, rfl⟩
instance : Steady currentKind := .read fun _ => ⟨_, rfl⟩
instance : Steady currentStart := .read fun _ => ⟨_, rfl⟩
instance {n : Nat} : Steady (peekKind n) := .read fun _ => ⟨_, rfl⟩
instance : Steady remaining := .read fun _ => ⟨_, rfl⟩
instance : Steady atEnd := .read fun _ => ⟨_, rfl⟩
instance {start : Nat} : Steady (spanFrom start) := .read fun _ => ⟨_, rfl⟩
instance {p : Punct} : Steady (check p) := .read fun _ => ⟨_, rfl⟩
instance {w : Keyword} : Steady (checkWord w) := .read fun _ => ⟨_, rfl⟩
instance {name : String} : Steady (checkName name) := .read fun _ => ⟨_, rfl⟩
instance : Steady pendingGt := .read fun _ => ⟨_, rfl⟩
instance : Steady atDefaultLabel := .read fun _ => ⟨_, rfl⟩

instance {what : Expected} : Steady (failExpected what : Parse α) := by
  unfold failExpected
  infer_instance

instance Steady.iterate {body : α → Parse (α ⊕ β)} [step : ∀ a, Steady (body a)] (n : Nat) (a : α) :
    Steady (iterate body n a) := by
  induction n generalizing a with
  | zero =>
    unfold Parse.iterate
    infer_instance
  | succ n ih =>
    unfold Parse.iterate
    have next : ∀ r : α ⊕ β, Steady (match r with
        | .inl next => Parse.iterate body n next
        | .inr result => Pure.pure result) := by
      rintro (next | result)
      · exact ih next
      · exact .pure
    infer_instance

instance Steady.loop {body : α → Parse (α ⊕ β)} {a : α} [∀ a, Steady (body a)] :
    Steady (loop body a) := by
  unfold Parse.loop
  infer_instance

theorem Steady.rounds {body : α → Parse (α ⊕ β)} {a : α} (step : ∀ a, Steady (body a)) :
    Steady (Parse.loop body a) := .loop

instance Steady.attempt {p : Parse α} [hp : Steady p] : Steady (attempt p) where
  reaches s := by
    have hEnd := hp.reaches s
    unfold outcome at hEnd ⊢
    cases hRun : p s with
    | ok a t =>
      rw [hRun] at hEnd
      rwa [attempt_of_ok hRun]
    | error e t =>
      rw [hRun] at hEnd
      rwa [attempt_of_error hRun]

instance advance_steady : Steady advance where
  reaches s := by
    unfold outcome
    rcases advance_cases s with ⟨_, hRun⟩ | ⟨x, l, hRest, _, hRun⟩
    · rw [hRun]
      exact .refl s
    · rw [hRun]
      apply Reaches.pass
      · rw [hRest]
        exact List.suffix_cons x l
      · rfl

instance skip_steady {n : Nat} : Steady (skip n) where
  reaches s := .pass (List.drop_suffix n s.rest) rfl

instance freshId_steady : Steady freshId where
  reaches _ := .pass List.suffix_rfl rfl

instance setPendingGt_steady {b : Bool} : Steady (setPendingGt b) where
  reaches _ := .pass List.suffix_rfl rfl

instance accept_steady {p : Punct} : Steady (accept p) := by
  unfold accept
  infer_instance

instance acceptWord_steady {w : Keyword} : Steady (acceptWord w) := by
  unfold acceptWord
  infer_instance

instance expect_steady {p : Punct} : Steady (expect p) := by
  unfold expect
  infer_instance

instance expectWord_steady {w : Keyword} : Steady (expectWord w) := by
  unfold expectWord
  infer_instance

instance expectName_steady : Steady expectName := by
  apply Steady.andThen
  intro k
  split <;> infer_instance

instance expectClosingAngle_steady : Steady expectClosingAngle := by
  unfold expectClosingAngle
  infer_instance

instance finishExpr_steady {start : Nat} {kind : ExprKind Expr} : Steady (finishExpr start kind) := by
  unfold finishExpr
  infer_instance

instance finishStmt_steady {start : Nat} {kind : StmtKind Stmt} : Steady (finishStmt start kind) := by
  unfold finishStmt
  infer_instance

instance commaSeparated_steady {item : Parse α} [Steady item] : Steady (commaSeparated item) := by
  unfold commaSeparated
  infer_instance

instance countCommas_steady : Steady countCommas := by
  unfold countCommas
  infer_instance

instance skipAttributes_steady : Steady skipAttributes := by
  unfold skipAttributes
  infer_instance

instance recover_steady {before : List Token} {distance : List Token → Nat} :
    Steady (recover before distance) := by
  unfold recover
  infer_instance

/-! ## Bodies -/

theorem opens_of_advance {s t : ParseState} {x : Token} (hk : s.current.kind.opensBody = true)
    (h : advance s = .ok x t) : s.Opens t := by
  rcases advance_cases s with ⟨hEnd, _⟩ | ⟨y, l, hRest, _, hRun⟩
  · cases hKind : s.current.kind with
    | eof =>
      rw [hKind] at hk
      cases hk
    | _ =>
      rw [hKind] at hEnd
      cases hEnd
  · rw [hRun] at h
    cases h
    rw [ParseState.current, hRest, List.headD_cons] at hk
    exact ⟨x, hk, hRest, rfl⟩

theorem opens_of_expect {s t : ParseState} (h : expect .lBrace s = .ok () t) : s.Opens t := by
  obtain ⟨hp, x, hRun⟩ := expect_inv h
  apply opens_of_advance _ hRun
  rw [TokenKind.opensBody, hp, Bool.true_or]

theorem opens_of_expectWord {s t : ParseState} (h : expectWord .namespaceKw s = .ok () t) :
    s.Opens t := by
  obtain ⟨hw, x, hRun⟩ := expectWord_inv h
  apply opens_of_advance _ hRun
  rw [TokenKind.opensBody, hw, Bool.or_true]

/-- A round of a body may give up only where the body ends with it. -/
def Round (q : Parse (α ⊕ β)) : Prop :=
  ∀ s, s.RunsOut (outcome q s) ∧ ∀ a t, q s = .ok (.inl a) t → s.Reaches t

theorem outcome_of_ok {p : Parse α} {a : α} {s t : ParseState} (h : p s = .ok a t) :
    outcome p s = t := by
  unfold outcome
  rw [h]

theorem Steady.round {q : Parse (α ⊕ β)} (h : Steady q) : Round q := by
  intro s
  have hEnd := h.reaches s
  constructor
  · exact .inl hEnd
  · intro a t hRun
    rw [outcome_of_ok hRun] at hEnd
    exact hEnd

theorem Round.andThen {γ : Type} {p : Parse γ} {f : γ → Parse (α ⊕ β)} [hp : Steady p]
    (hf : ∀ a, Round (f a)) : Round (p >>= f) := by
  intro s
  have first := hp.reaches s
  constructor
  · rw [outcome_bind]
    unfold outcome at first
    cases hRun : p s with
    | error e t =>
      rw [hRun] at first
      exact .inl first
    | ok a t =>
      rw [hRun] at first
      exact first.runsOut (hf a t).1
  · intro a u hRun
    obtain ⟨c, t, hFirst, hNext⟩ := bind_eq_ok.mp hRun
    rw [outcome_of_ok hFirst] at first
    exact first.trans ((hf c t).2 a u hNext)

theorem Round.ite {c : Prop} [Decidable c] {p q : Parse (α ⊕ β)} (hp : Round p) (hq : Round q) :
    Round (if c then p else q) := by
  split
  · exact hp
  · exact hq

theorem recordError_bind (e : ParseError) (f : Bool → Parse α) (s : ParseState) :
    (recordError e >>= f) s =
      f (decide (s.errors.length + 1 < maxErrors)) { s with errors := s.errors ++ [e] } := by
  change f (decide ((s.errors ++ [e]).length < maxErrors)) _ = _
  rw [List.length_append, List.length_singleton]

/-- A body keeps an error. With room for more it goes on; otherwise it ends. -/
theorem Round.recordError (e : ParseError) {goOn leave : Parse (α ⊕ β)} [hGoOn : Steady goOn]
    [hLeave : Steady leave] (ends : ∀ s a t, leave s ≠ .ok (.inl a) t) :
    Round (Parse.recordError e >>= fun room => if room = true then goOn else leave) := by
  intro s
  unfold outcome
  by_cases room : s.errors.length + 1 < maxErrors
  · have kept : s.Reaches { s with errors := s.errors ++ [e] } := .keep e room
    have next := hGoOn.round { s with errors := s.errors ++ [e] }
    rw [recordError_bind, decide_eq_true room, if_pos rfl]
    constructor
    · exact kept.runsOut next.1
    · intro a t hRun
      exact kept.trans (next.2 a t hRun)
  · rw [recordError_bind, decide_eq_false room, if_neg Bool.false_ne_true]
    constructor
    · -- `keep` asks for room, so this error is accounted for where the body opens.
      exact .inr ⟨s, e, .refl s, Nat.le_of_not_lt room, hLeave.reaches _⟩
    · intro a t hRun
      exact absurd hRun (ends _ a t)

/-- What stands behind the token that opens a body may give the body up. -/
def Inside (p : Parse α) : Prop := ∀ s : ParseState, s.RunsOut (outcome p s)

theorem Steady.inside {p : Parse α} (h : Steady p) : Inside p := by
  intro s
  exact .inl (h.reaches s)

theorem Inside.bind {p : Parse α} {f : α → Parse β} (hp : Inside p) (hf : ∀ a, Steady (f a)) :
    Inside (p >>= f) := by
  intro s
  have first := hp s
  unfold outcome at first
  rw [outcome_bind]
  cases hRun : p s with
  | error e t =>
    rw [hRun] at first
    exact first
  | ok a t =>
    rw [hRun] at first
    exact first.reaches ((hf a).reaches t)

theorem Inside.andThen {p : Parse α} {f : α → Parse β} [hp : Steady p] (hf : ∀ a, Inside (f a)) :
    Inside (p >>= f) := by
  intro s
  have first := hp.reaches s
  unfold outcome at first
  rw [outcome_bind]
  cases hRun : p s with
  | error e t =>
    rw [hRun] at first
    exact .inl first
  | ok a t =>
    rw [hRun] at first
    exact first.runsOut (hf a t)

theorem Inside.ite {c : Prop} [Decidable c] {p q : Parse α} (hp : Inside p) (hq : Inside q) :
    Inside (if c then p else q) := by
  split
  · exact hp
  · exact hq

theorem Inside.iterate {body : α → Parse (α ⊕ β)} (step : ∀ a, Round (body a)) (n : Nat) (a : α) :
    Inside (iterate body n a) := by
  induction n generalizing a with
  | zero =>
    intro s
    exact .inl (.refl s)
  | succ n ih =>
    intro s
    obtain ⟨hEnd, hNext⟩ := step a s
    rw [Parse.iterate, outcome_bind]
    unfold outcome at hEnd
    rcases hRun : body a s with ⟨next | result, t⟩ | ⟨e, t⟩
    · exact (hNext next t hRun).runsOut (ih next t)
    · rw [hRun] at hEnd
      exact hEnd
    · rw [hRun] at hEnd
      exact hEnd

theorem Inside.loop {body : α → Parse (α ⊕ β)} (step : ∀ a, Round (body a)) (a : α) :
    Inside (loop body a) := by
  intro s
  exact Inside.iterate step (s.rest.length + 1) a s

/-- Behind the token that opens it, giving a body up is a move like any other. -/
theorem Steady.opening {q : Parse Unit} {f : Unit → Parse α} [hq : Steady q]
    (opens : ∀ s t, q s = .ok () t → s.Opens t) (hf : Inside (f ())) : Steady (q >>= f) where
  reaches s := by
    have first := hq.reaches s
    unfold outcome at first
    rw [outcome_bind]
    cases hRun : q s with
    | error e t =>
      rw [hRun] at first
      exact first
    | ok _ t => exact (opens s t hRun).reaches (hf t)

end Parse

end Stackable
