import Stackable.Proofs.Parser.Progress
import Stackable.Proofs.Parser.RecoveryGrammar

/-!
# How many errors are kept

The error that fills the room is the last one of its body, but each body around it may keep one
more. So the errors exceed the limit by at most the number of bodies that are opened, and nested
namespaces show that they can exceed it by as much.
-/

set_option autoImplicit false

namespace Stackable

def Tokens.bodies (ts : List Token) : Nat := ts.countP (·.kind.opensBody)

namespace ParseState

/-- The errors kept and those that bodies not yet opened may add at the limit. -/
def load (s : ParseState) : Nat :=
  max s.errors.length (Parse.maxErrors - 1) + Tokens.bodies s.rest

theorem load_keep (s : ParseState) (e : ParseError) (full : Parse.maxErrors ≤ s.errors.length + 1) :
    load { s with errors := s.errors ++ [e] } = s.load + 1 := by
  simp only [load, List.length_append, List.length_singleton]
  omega

theorem Opens.load_eq {s t : ParseState} (h : s.Opens t) : s.load = t.load + 1 := by
  obtain ⟨x, hx, hRest, hErrors⟩ := h
  simp only [load, hRest, hErrors, Tokens.bodies, List.countP_cons, hx, if_true]
  omega

theorem Reaches.load_le {s t : ParseState} (h : s.Reaches t) : t.load ≤ s.load := by
  induction h with
  | @pass s t rest errors =>
    have fewer : Tokens.bodies t.rest ≤ Tokens.bodies s.rest := rest.sublist.countP_le
    simp only [load, errors]
    omega
  | @keep s e room =>
    simp only [load, List.length_append, List.length_singleton]
    omega
  | @giveUp s t u opens inside e full ih =>
    rw [load_keep u e full, opens.load_eq]
    omega
  | trans _ _ first next => exact Nat.le_trans next first

theorem RunsOut.load_le {s t : ParseState} (h : s.RunsOut t) : t.load ≤ s.load + 1 := by
  rcases h with h | ⟨u, e, hsu, full, hut⟩
  · have := h.load_le
    omega
  · have before := hsu.load_le
    have after := hut.load_le
    rw [load_keep u e full] at after
    omega

end ParseState

theorem parseTokens_run (tokens : List Token) : ∃ list t,
    Parse.namespaceBody (Rules.depth (tokens.length + 1)).decl true (.ofTokens tokens) = .ok list t ∧
      (parseTokens tokens).2 = t.errors := by
  obtain ⟨list, t, hUnit, _⟩ := Parse.exists_compilationUnit_eq_ok (.ofTokens tokens)
  rcases compilationUnit_cases (.ofTokens tokens) with ⟨list', t', hRun, h⟩ | ⟨e, t', _, h⟩
  · rw [Parse.withRules_apply] at hRun
    refine ⟨list', t', hRun, ?_⟩
    unfold parseTokens
    rw [h]
  · rw [hUnit] at h
    cases h

theorem length_errors_le (tokens : List Token) :
    (parseTokens tokens).2.length ≤ Parse.maxErrors + Tokens.bodies tokens := by
  obtain ⟨list, t, hRun, hErrors⟩ := parseTokens_run tokens
  have hOut : (ParseState.ofTokens tokens).RunsOut t := by
    rw [← Parse.outcome_of_ok hRun]
    exact Parse.namespaceBody_inside (.ofTokens tokens)
  have hLoad := hOut.load_le
  have hStart : (ParseState.ofTokens tokens).load = Parse.maxErrors - 1 + Tokens.bodies tokens := by
    simp [ParseState.load, ParseState.ofTokens]
  have hEnd : t.errors.length ≤ t.load := by
    unfold ParseState.load
    omega
  have hLimit : 0 < Parse.maxErrors := by decide
  rw [hErrors]
  omega

namespace Tokens

/-- `n` times `namespace A;`, then `m` times `using`. -/
def unfinished (n m : Nat) : List Token :=
  match n with
  | 0 => List.replicate m ⟨.keyword .usingKw, 0, 0⟩
  | n + 1 =>
    ⟨.keyword .namespaceKw, 0, 0⟩ :: ⟨.ident "A", 0, 0⟩ :: ⟨.punct .semi, 0, 0⟩ :: unfinished n m

theorem bodies_unfinished (n m : Nat) : bodies (unfinished n m) = n := by
  induction n with
  | zero =>
    apply List.countP_eq_zero.mpr
    intro x hx
    rw [List.eq_of_mem_replicate hx]
    decide
  | succ n ih =>
    unfold bodies at ih
    rw [unfinished, bodies, List.countP_cons_of_pos (by decide), List.countP_cons_of_neg (by decide),
      List.countP_cons_of_neg (by decide), ih]

theorem toDecl_unfinished (m : Nat) : toDecl 0 (unfinished 0 m) = 0 := by
  cases m <;> rfl

theorem le_length_unfinished (n m : Nat) : n ≤ (unfinished n m).length := by
  induction n with
  | zero => exact Nat.zero_le _
  | succ n ih =>
    simp only [unfinished, List.length_cons]
    omega

end Tokens

namespace Parse

open Tokens

variable {r : Rules} {s : ParseState} {m : Nat}

theorem decl_using (hs : s.rest = unfinished 0 (m + 1)) : ∃ e t, decl r s = .error e t ∧
    t.rest = unfinished 0 m ∧ t.errors = s.errors := by
  obtain ⟨rest, prevEnd, pendingGt, errors, nextId, endOffset⟩ := s
  cases hs
  -- Whether an alias comes next is told by the token after the next.
  rcases m with _ | _ | m
  all_goals exact ⟨_, _, rfl, rfl, rfl⟩

theorem recover_of_zero {before : List Token} {distance : List Token → Nat}
    (hZero : distance s.rest = 0) (hRead : s.rest.length ≠ before.length) :
    recover before distance s = .ok () s := by
  have hSkip : skip 0 s = .ok () s := rfl
  unfold recover
  rw [bind_of_ok (p := remaining) rfl, hZero, bind_of_ok hSkip, bind_of_ok (p := remaining) rfl,
    if_neg hRead]
  rfl

theorem namespaceStep_using (list : List Decl) (hs : s.rest = unfinished 0 (m + 1)) : ∃ t,
    namespaceStep (decl r) true list s =
      .ok (if s.errors.length + 1 < maxErrors then .inl list else .inr list) t ∧
    t.rest = unfinished 0 m ∧ t.errors.length = s.errors.length + 1 := by
  obtain ⟨e, t, hDecl, hRest, hErrors⟩ := decl_using (r := r) hs
  have hEnd : atEnd s = .ok false s := by
    change EStateM.Result.ok s.current.kind.isEof s = _
    rw [ParseState.current, hs]
    rfl
  have hAttempt := attempt_of_error hDecl
  have hShorter : t.rest.length ≠ s.rest.length := by
    rw [hRest, hs]
    simp [unfinished]
  refine ⟨{ t with errors := t.errors ++ [e] }, ?_, hRest, ?_⟩
  · unfold namespaceStep
    rw [bind_of_ok hEnd, bind_of_ok (p := check .rBrace) rfl, Bool.false_or, Bool.not_true,
      Bool.false_and, if_neg Bool.false_ne_true, bind_of_ok (p := remaining) rfl,
      bind_of_ok hAttempt]
    change (recordError e >>= _) t = _
    rw [recordError_bind, hErrors]
    by_cases room : s.errors.length + 1 < maxErrors
    · rw [decide_eq_true room, if_pos rfl, if_pos room]
      apply bind_of_ok
      apply recover_of_zero
      · change toDecl 0 t.rest = 0
        rw [hRest]
        exact toDecl_unfinished m
      · exact hShorter
    · rw [decide_eq_false room, if_neg Bool.false_ne_true, if_neg room]
      rfl
  · rw [List.length_append, hErrors]
    rfl

/-- A body keeps `k` errors with room left and one more without. -/
theorem iterate_using (k n : Nat) (list : List Decl) (hs : s.rest = unfinished 0 (m + k + 1))
    (hk : max s.errors.length (maxErrors - 1) = s.errors.length + k) (hn : k < n) : ∃ t,
    iterate (namespaceStep (decl r) true) n list s = .ok list t ∧
      t.rest = unfinished 0 m ∧ t.errors.length = s.errors.length + k + 1 := by
  have hLimit : maxErrors = 20 := rfl
  induction k generalizing s n with
  | zero =>
    obtain ⟨n, rfl⟩ := Nat.exists_eq_add_of_lt hn
    obtain ⟨t, hStep, hRest, hErrors⟩ := namespaceStep_using (r := r) list hs
    rw [if_neg (by omega)] at hStep
    exact ⟨t, iterate_succ_eq_ok.mpr (.inr hStep), hRest, hErrors⟩
  | succ k ih =>
    obtain ⟨n, rfl⟩ := Nat.exists_eq_add_of_lt hn
    obtain ⟨t, hStep, hRest, hErrors⟩ := namespaceStep_using (r := r) list hs
    rw [if_pos (by omega)] at hStep
    obtain ⟨u, hRun, hRest, hCount⟩ := ih (k + 1 + n) hRest (by omega) (by omega)
    exact ⟨u, iterate_succ_eq_ok.mpr (.inl ⟨list, t, hStep, hRun⟩), hRest, by omega⟩

theorem decl_namespace {n : Nat} (hs : s.rest = unfinished (n + 1) m) : ∃ t : ParseState,
    t.rest = unfinished n m ∧ t.errors = s.errors ∧
      ∀ list u, namespaceBody r.decl true t = .ok list u →
        ∃ d, decl r s = .ok d { u with nextId := u.nextId + 1 } := by
  obtain ⟨rest, prevEnd, pendingGt, errors, nextId, endOffset⟩ := s
  cases hs
  refine ⟨⟨unfinished n m, 0, pendingGt, errors, nextId, endOffset⟩, rfl, rfl, ?_⟩
  intro list u hBody
  have hNamespace : namespaceDecl r
      ⟨unfinished (n + 1) m, prevEnd, pendingGt, errors, nextId, endOffset⟩ =
        .ok ⟨["A"], list, true⟩ u := by
    change (namespaceBody r.decl true >>= fun decls =>
      (pure ⟨["A"], decls, true⟩ : Parse (NamespaceDecl Decl))) _ = _
    exact bind_of_ok hBody
  constructor
  change (DeclKind.namespaceDecl <$> namespaceDecl r >>= fun kind => do
    return ⟨← freshId, kind, ← spanFrom 0⟩ : Parse Decl) _ = _
  apply bind_of_ok
  exact map_eq_ok.mpr ⟨_, hNamespace, rfl⟩

theorem namespaceStep_namespace {n : Nat} (hs : s.rest = unfinished (n + 1) m) : ∃ t : ParseState,
    t.rest = unfinished n m ∧ t.errors = s.errors ∧
      ∀ list u, namespaceBody r.decl true t = .ok list u →
        ∃ d, namespaceStep (decl r) true [] s = .ok (.inl [d]) { u with nextId := u.nextId + 1 } := by
  obtain ⟨t, hRest, hErrors, hDecl⟩ := decl_namespace (r := r) hs
  refine ⟨t, hRest, hErrors, ?_⟩
  intro list u hBody
  obtain ⟨d, hDecl⟩ := hDecl list u hBody
  have hEnd : atEnd s = .ok false s := by
    change EStateM.Result.ok s.current.kind.isEof s = _
    rw [ParseState.current, hs]
    rfl
  have hAttempt := attempt_of_ok hDecl
  refine ⟨d, ?_⟩
  unfold namespaceStep
  rw [bind_of_ok hEnd, bind_of_ok (p := check .rBrace) rfl, Bool.false_or, Bool.not_true,
    Bool.false_and, if_neg Bool.false_ne_true, bind_of_ok (p := remaining) rfl,
    bind_of_ok hAttempt]
  rfl

/-- The innermost body keeps as many errors as the limit, and each one around it one more. -/
theorem namespaceBody_unfinished (n d : Nat) (hs : s.rest = unfinished n (m + maxErrors + n))
    (hErrors : s.errors = []) (hd : n < d) : ∃ list t,
    namespaceBody (Rules.depth d).decl true s = .ok list t ∧ t.rest = unfinished 0 m ∧
      t.errors.length = maxErrors + n := by
  induction n generalizing m s d with
  | zero =>
    obtain ⟨d, rfl⟩ := Nat.exists_eq_add_of_lt hd
    obtain ⟨t, hRun, hRest, hCount⟩ := iterate_using (r := Rules.depth (0 + d)) (s := s) (m := m)
      (maxErrors - 1) (s.rest.length + 1) [] hs (by rw [hErrors]; rfl)
      (by rw [hs, unfinished, List.length_replicate]; omega)
    rw [hErrors] at hCount
    exact ⟨[], t, hRun, hRest, hCount⟩
  | succ n ih =>
    obtain ⟨d, rfl⟩ := Nat.exists_eq_add_of_lt hd
    obtain ⟨t, hRest, hKept, hStep⟩ := namespaceStep_namespace (r := Rules.depth (n + 1 + d)) hs
    have hRest : t.rest = unfinished n (m + 1 + maxErrors + n) := by
      rw [hRest]
      congr 1
      omega
    obtain ⟨list, u, hBody, hLeft, hCount⟩ := ih (n + 1 + d) hRest (hKept.trans hErrors) (by omega)
    obtain ⟨x, hStep⟩ := hStep list u hBody
    obtain ⟨v, hRun, hEnd, hTotal⟩ := iterate_using (r := Rules.depth (n + 1 + d))
      (s := { u with nextId := u.nextId + 1 }) (m := m) 0 s.rest.length [x] hLeft
      (by change max u.errors.length (maxErrors - 1) = u.errors.length; omega)
      (by rw [hs]; exact Nat.succ_pos _)
    refine ⟨[x], v, iterate_succ_eq_ok.mpr (.inl ⟨[x], _, hStep, hRun⟩), hEnd, ?_⟩
    change v.errors.length = u.errors.length + 0 + 1 at hTotal
    omega

end Parse

theorem length_errors_unfinished (n : Nat) :
    (parseTokens (Tokens.unfinished n (Parse.maxErrors + n))).2.length = Parse.maxErrors + n := by
  obtain ⟨list, t, hRun, hErrors⟩ := parseTokens_run (Tokens.unfinished n (Parse.maxErrors + n))
  have hDepth := Tokens.le_length_unfinished n (Parse.maxErrors + n)
  obtain ⟨list', t', hBody, _, hCount⟩ := Parse.namespaceBody_unfinished (m := 0) n
    ((Tokens.unfinished n (Parse.maxErrors + n)).length + 1)
    (s := .ofTokens (Tokens.unfinished n (Parse.maxErrors + n))) (by rw [Nat.zero_add]; rfl) rfl
    (by omega)
  rw [hBody] at hRun
  cases hRun
  rw [hErrors, hCount]

/-- The limit holds up to one error for each body that is opened, and for every number of bodies
there are tokens that get there. -/
theorem errors_exceed_limit_by_bodies (tokens : List Token) (n : Nat) :
    (parseTokens tokens).2.length ≤ Parse.maxErrors + Tokens.bodies tokens ∧
    ∃ worst, Tokens.bodies worst = n ∧ (parseTokens worst).2.length = Parse.maxErrors + n := by
  constructor
  · exact length_errors_le tokens
  · exact ⟨_, Tokens.bodies_unfinished n _, length_errors_unfinished n⟩

theorem exists_errors_beyond_limit : ∃ tokens, Parse.maxErrors < (parseTokens tokens).2.length :=
  ⟨Tokens.unfinished 1 21, by decide +kernel⟩

end Stackable
