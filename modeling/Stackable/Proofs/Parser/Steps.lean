import Stackable.Parser.Decl

/-!
# Steps of a run

A sequence that succeeds has succeeded in each of its parts, and a repetition in each of its
rounds.
-/

set_option autoImplicit false

namespace Stackable.Parse

variable {α β : Type} {s t u : ParseState}

theorem bind_eq_ok {p : Parse α} {f : α → Parse β} {b : β} :
    (p >>= f) s = .ok b u ↔ ∃ a t, p s = .ok a t ∧ f a t = .ok b u := by
  change EStateM.bind p f s = _ ↔ _
  unfold EStateM.bind
  cases hps : p s with
  | ok a t =>
    constructor
    · intro h
      exact ⟨a, t, rfl, h⟩
    · rintro ⟨_, _, h, hf⟩
      cases h
      exact hf
  | error e t => simp

theorem bind_of_ok {p : Parse α} {f : α → Parse β} {a : α} (h : p s = .ok a t) :
    (p >>= f) s = f a t := by
  change EStateM.bind p f s = _
  unfold EStateM.bind
  rw [h]

theorem bind_of_error {p : Parse α} {f : α → Parse β} {e : ParseError} (h : p s = .error e t) :
    (p >>= f) s = .error e t := by
  change EStateM.bind p f s = _
  unfold EStateM.bind
  rw [h]

theorem attempt_of_ok {p : Parse α} {a : α} (h : p s = .ok a t) :
    attempt p s = .ok (.ok a) t := by
  unfold attempt
  rw [h]

theorem attempt_of_error {p : Parse α} {e : ParseError} (h : p s = .error e t) :
    attempt p s = .ok (.error e) t := by
  unfold attempt
  rw [h]

theorem map_eq_ok {p : Parse α} {f : α → β} {b : β} :
    (f <$> p) s = .ok b u ↔ ∃ a, p s = .ok a u ∧ f a = b := by
  rw [← bind_pure_comp, bind_eq_ok]
  constructor
  · rintro ⟨a, t, hp, h⟩
    cases h
    exact ⟨a, hp, rfl⟩
  · rintro ⟨a, hp, rfl⟩
    exact ⟨a, u, hp, rfl⟩

theorem read_bind_eq_ok {p : Parse α} {f : α → Parse β} {a : α} {b : β} (h : p s = .ok a s) :
    (p >>= f) s = .ok b u ↔ f a s = .ok b u := by
  rw [bind_eq_ok]
  constructor
  · rintro ⟨a', t, hp, hf⟩
    rw [h] at hp
    cases hp
    exact hf
  · exact fun hf => ⟨a, s, h, hf⟩

@[simp] theorem check_bind_eq_ok {p : Punct} {f : Bool → Parse β} {b : β} :
    (check p >>= f) s = .ok b u ↔ f (s.current.kind.isPunct p) s = .ok b u := read_bind_eq_ok rfl

@[simp] theorem currentKind_bind_eq_ok {f : TokenKind → Parse β} {b : β} :
    (currentKind >>= f) s = .ok b u ↔ f s.current.kind s = .ok b u := read_bind_eq_ok rfl

@[simp] theorem currentStart_bind_eq_ok {f : Nat → Parse β} {b : β} :
    (currentStart >>= f) s = .ok b u ↔ f s.current.span.start s = .ok b u := read_bind_eq_ok rfl

@[simp] theorem peekKind_bind_eq_ok {n : Nat} {f : TokenKind → Parse β} {b : β} :
    (peekKind n >>= f) s = .ok b u ↔ f (Tokens.kind (s.rest.drop n)) s = .ok b u :=
  read_bind_eq_ok rfl

@[simp] theorem remaining_bind_eq_ok {f : List Token → Parse β} {b : β} :
    (remaining >>= f) s = .ok b u ↔ f s.rest s = .ok b u := read_bind_eq_ok rfl

theorem withRules_apply (p : Rules → Parse α) (s : ParseState) :
    withRules p s = p (Rules.depth (s.rest.length + 1)) s := rfl

theorem finishExpr_eq_ok {start : Nat} {kind : ExprKind Expr} {e : Expr} :
    finishExpr start kind s = .ok e u ↔
      e = ⟨s.nextId, kind, ⟨start, s.prevEnd⟩⟩ ∧ u = { s with nextId := s.nextId + 1 } := by
  change EStateM.Result.ok _ _ = EStateM.Result.ok e u ↔ _
  rw [EStateM.Result.ok.injEq, eq_comm, @eq_comm _ _ u]

theorem kind_of_finishExpr {start : Nat} {kind : ExprKind Expr} {e : Expr}
    (h : finishExpr start kind s = .ok e u) : e.kind = kind := by
  rw [(finishExpr_eq_ok.mp h).1]

theorem accept_eq_ok {p : Punct} {b : Bool} (h : accept p s = .ok b t) :
    b = s.current.kind.isPunct p ∧ (b = false → t = s) := by
  unfold accept at h
  rw [check_bind_eq_ok] at h
  split at h
  next hp =>
    obtain ⟨_, _, _, h⟩ := bind_eq_ok.mp h
    cases h
    exact ⟨hp.symm, fun hb => Bool.noConfusion hb⟩
  next hp =>
    cases h
    exact ⟨(Bool.eq_false_iff.mpr hp).symm, fun _ => rfl⟩

theorem expect_inv {p : Punct} (h : expect p s = .ok () t) :
    s.current.kind.isPunct p = true ∧ ∃ x, advance s = .ok x t := by
  unfold expect at h
  obtain ⟨b, v, hAccept, h⟩ := bind_eq_ok.mp h
  unfold accept at hAccept
  rw [check_bind_eq_ok] at hAccept
  split at hAccept
  next hp =>
    obtain ⟨x, v', hAdvance, hPure⟩ := bind_eq_ok.mp hAccept
    cases hPure
    cases h
    exact ⟨hp, x, hAdvance⟩
  next =>
    cases hAccept
    cases h

theorem expectWord_eq_ok {w : Keyword} {x : Token} (hw : s.current.kind.isKeyword w = true)
    (h : advance s = .ok x t) : expectWord w s = .ok () t := by
  have hAccept : acceptWord w s = .ok true t := by
    change (if s.current.kind.isKeyword w = true then advance >>= fun _ => pure true else pure false)
      s = _
    rw [if_pos hw, bind_eq_ok]
    exact ⟨x, t, h, rfl⟩
  unfold expectWord
  rw [bind_eq_ok]
  exact ⟨true, t, hAccept, rfl⟩

theorem expectWord_inv {w : Keyword} (h : expectWord w s = .ok () t) :
    s.current.kind.isKeyword w = true ∧ ∃ x, advance s = .ok x t := by
  unfold expectWord at h
  obtain ⟨b, v, hAccept, h⟩ := bind_eq_ok.mp h
  change (if s.current.kind.isKeyword w = true then advance >>= fun _ => pure true else pure false)
    s = _ at hAccept
  split at hAccept
  next hw =>
    obtain ⟨x, v', hAdvance, hPure⟩ := bind_eq_ok.mp hAccept
    cases hPure
    cases h
    exact ⟨hw, x, hAdvance⟩
  next =>
    cases hAccept
    cases h

theorem iterate_succ_eq_ok {body : α → Parse (α ⊕ β)} {n : Nat} {a : α} {b : β} :
    iterate body (n + 1) a s = .ok b u ↔
      (∃ next t, body a s = .ok (.inl next) t ∧ iterate body n next t = .ok b u) ∨
        body a s = .ok (.inr b) u := by
  rw [iterate, bind_eq_ok]
  constructor
  · rintro ⟨next | result, t, hBody, h⟩
    · exact .inl ⟨next, t, hBody, h⟩
    · cases h
      exact .inr hBody
  · rintro (⟨next, t, hBody, h⟩ | hBody)
    · exact ⟨.inl next, t, hBody, h⟩
    · exact ⟨.inr b, u, hBody, rfl⟩

end Stackable.Parse
