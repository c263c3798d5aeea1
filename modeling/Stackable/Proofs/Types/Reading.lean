import Stackable.Proofs.Parser.Steps
import Stackable.Proofs.Parser.TypeRef
import Stackable.Proofs.Types.Grammar

/-!
# What a type is read from

Whatever the rules for types read is spelled by the tokens that they read. Half of a `>>` stays ahead
and is read as the next mark.
-/

set_option autoImplicit false

namespace Stackable

namespace ParseState

variable {s t u : ParseState} {k : TokenKind} {w v : List TokenKind}

theorem ahead_of_clear (clear : s.pendingGt = false) : s.ahead = Tokens.halves s.rest := by
  rw [ahead, clear, if_neg Bool.false_ne_true]

/-- From `s` to `t` one token of kind `k` is read. -/
structure Drops (s : ParseState) (k : TokenKind) (t : ParseState) : Prop where
  token : ∃ x : Token, s.rest = x :: t.rest ∧ x.kind = k
  pending : t.pendingGt = s.pendingGt

theorem Drops.suffix (h : s.Drops k t) : t.rest <:+ s.rest := by
  obtain ⟨x, hRest, _⟩ := h.token
  rw [hRest]
  exact List.suffix_cons x t.rest

theorem Drops.length_lt (h : s.Drops k t) : t.rest.length < s.rest.length := by
  obtain ⟨x, hRest, _⟩ := h.token
  rw [hRest]
  exact Nat.lt_succ_self _

theorem Drops.clear (h : s.Drops k t) (clear : s.pendingGt = false) : t.pendingGt = false := by
  rw [h.pending, clear]

theorem Drops.ahead (h : s.Drops k t) (clear : s.pendingGt = false) (hk : k ≠ .punct .gtGt) :
    s.ahead = k :: t.ahead := by
  obtain ⟨x, hRest, hx⟩ := h.token
  rw [ahead_of_clear clear, ahead_of_clear (h.clear clear), hRest, Tokens.halves_cons, hx,
    TokenKind.halves_of_ne hk]
  rfl

/-- The names among the marks are names of tokens that remain. -/
def HasNames (s : ParseState) (w : List TokenKind) : Prop :=
  ∀ name, .ident name ∈ w → ∃ x ∈ s.rest, x.kind = .ident name

theorem HasNames.nil : s.HasNames [] := by
  rintro name ⟨⟩

theorem HasNames.of_suffix (h : t.HasNames w) (hst : t.rest <:+ s.rest) : s.HasNames w := by
  intro name hName
  obtain ⟨x, hx, hKind⟩ := h name hName
  exact ⟨x, hst.subset hx, hKind⟩

theorem HasNames.append (h : s.HasNames w) (k : s.HasNames v) : s.HasNames (w ++ v) := by
  intro name hName
  rcases List.mem_append.mp hName with hName | hName
  · exact h name hName
  · exact k name hName

theorem HasNames.punct {p : Punct} (h : s.HasNames w) : s.HasNames (.punct p :: w) := by
  intro name hName
  rcases List.mem_cons.mp hName with hName | hName
  · cases hName
  · exact h name hName

theorem Drops.hasNames {name : String} (h : s.Drops (.ident name) t) (hw : t.HasNames w) :
    s.HasNames (.ident name :: w) := by
  intro name' hName
  rcases List.mem_cons.mp hName with hName | hName
  · obtain ⟨x, hRest, hx⟩ := h.token
    refine ⟨x, ?_, hx.trans hName.symm⟩
    rw [hRest]
    exact List.mem_cons_self
  · exact hw.of_suffix h.suffix name' hName

/-- What is read from `s` to `t` is spelled as the phrase. If half of a `>>` is there from the start,
it may close a list of its own. -/
structure Spells (s t : ParseState) (φ : Phrase) : Prop where
  suffix : t.rest <:+ s.rest
  spelled : ∃ w, φ.Spelled w ∧ s.HasNames w ∧ (s.pendingGt = false → s.ahead = w ++ t.ahead)

end ParseState

namespace Parse

open ParseState
open Phrase (Spelled)

variable {α β : Type} {r : Rules} {s t : ParseState}

theorem advance_drops {x : Token} (hk : s.current.kind.isEof = false) (h : advance s = .ok x t) :
    s.Drops s.current.kind t := by
  rcases advance_cases s with ⟨hEnd, _⟩ | ⟨y, l, hRest, _, hRun⟩
  · rw [hEnd] at hk
    cases hk
  · rw [hRun] at h
    cases h
    exact ⟨⟨x, hRest, by rw [ParseState.current, hRest, List.headD_cons]⟩, rfl⟩

theorem kind_of_isPunct {k : TokenKind} {p : Punct} (h : k.isPunct p = true) : k = .punct p := by
  cases k with
  | punct q =>
    rw [TokenKind.isPunct, beq_iff_eq] at h
    rw [h]
  | _ => cases h

theorem accept_drops {p : Punct} (h : accept p s = .ok true t) : s.Drops (.punct p) t := by
  unfold accept at h
  rw [check_bind_eq_ok] at h
  split at h
  next hp =>
    obtain ⟨x, u, hAdvance, hPure⟩ := bind_eq_ok.mp h
    cases hPure
    rw [← kind_of_isPunct hp]
    exact advance_drops (isEof_of_isPunct hp) hAdvance
  next => cases h

theorem accept_false {p : Punct} (h : accept p s = .ok false t) : t = s := (accept_eq_ok h).2 rfl

theorem expect_drops {p : Punct} (h : expect p s = .ok () t) : s.Drops (.punct p) t := by
  obtain ⟨hp, x, hAdvance⟩ := expect_inv h
  rw [← kind_of_isPunct hp]
  exact advance_drops (isEof_of_isPunct hp) hAdvance

theorem expectName_drops {name : String} (h : expectName s = .ok name t) :
    s.Drops (.ident name) t := by
  unfold expectName at h
  rw [currentKind_bind_eq_ok] at h
  cases hk : s.current.kind with
  | ident n =>
    rw [hk] at h
    obtain ⟨x, u, hAdvance, hPure⟩ := bind_eq_ok.mp h
    cases hPure
    rw [← hk]
    exact advance_drops (by rw [hk]; rfl) hAdvance
  | _ =>
    rw [hk] at h
    cases h

/-- A list is closed by a `>`, by half of a `>>`, or by the other half. -/
theorem expectClosingAngle_ahead (h : expectClosingAngle s = .ok () t) :
    t.rest <:+ s.rest ∧ s.ahead = .punct .gt :: t.ahead := by
  unfold expectClosingAngle at h
  rw [read_bind_eq_ok (p := pendingGt) rfl] at h
  split at h
  next hs =>
    cases h
    refine ⟨List.suffix_rfl, ?_⟩
    rw [ParseState.ahead, if_pos hs]
    rfl
  next hs =>
    have clear : s.pendingGt = false := Bool.eq_false_iff.mpr hs
    obtain ⟨b, u, hAccept, h⟩ := bind_eq_ok.mp h
    cases b with
    | true =>
      cases h
      have hst := accept_drops hAccept
      exact ⟨hst.suffix, hst.ahead clear (by rintro ⟨⟩)⟩
    | false =>
      cases accept_false hAccept
      obtain ⟨b, u, hAccept, h⟩ := bind_eq_ok.mp h
      cases b with
      | true =>
        have hsu := accept_drops hAccept
        obtain ⟨x, hRest, hx⟩ := hsu.token
        cases h
        refine ⟨hsu.suffix, ?_⟩
        rw [ahead_of_clear clear, hRest, Tokens.halves_cons, hx]
        rfl
      | false => cases h

theorem iterate_invariant {body : α → Parse (α ⊕ β)} {I : α → ParseState → Prop}
    {Q : β → ParseState → Prop}
    (step : ∀ a s, I a s → ∀ r t, body a s = .ok r t → Sum.elim (I · t) (Q · t) r) {n : Nat}
    {a : α} {b : β} (start : I a s) (h : iterate body n a s = .ok b t) : Q b t := by
  induction n generalizing a s with
  | zero => cases h
  | succ n ih =>
    rcases iterate_succ_eq_ok.mp h with ⟨next, u, hBody, hNext⟩ | hBody
    · exact ih (step a s start _ u hBody) hNext
    · exact step a s start _ t hBody

/-- What each repetition keeps holds at every repetition, and the last one gives the result. -/
theorem loop_invariant {body : α → Parse (α ⊕ β)} {a : α} {b : β} (I : α → ParseState → Prop)
    {Q : β → ParseState → Prop} (start : I a s)
    (step : ∀ a s, I a s → ∀ r t, body a s = .ok r t → Sum.elim (I · t) (Q · t) r)
    (h : loop body a s = .ok b t) : Q b t :=
  iterate_invariant step start h

/-- Each type is spelled by the tokens that are read for it. -/
def Rules.SpellsTypes (r : Rules) : Prop := ∀ s x t, r.type s = .ok x t → s.Spells t (.type x)

/-- The arguments read so far, up to `s`, with the comma that follows them. -/
structure ArgsSoFar (start : ParseState) (args : List TypeRef) (s : ParseState) : Prop where
  suffix : s.rest <:+ start.rest
  spelled : ∃ w, (∀ xs v, Spelled (.args xs) v → Spelled (.args (args ++ xs)) (w ++ v)) ∧
    start.HasNames w ∧ (start.pendingGt = false → s.pendingGt = false ∧ start.ahead = w ++ s.ahead)

/-- What the rule for type arguments repeats. -/
def argStep (r : Rules) (args : List TypeRef) : Parse (List TypeRef ⊕ List TypeRef) := do
  let args := args ++ [← r.type]
  if ← pendingGt then return .inr args
  else if ← accept .comma then return .inl args
  else return .inr args

theorem typeArgs_eq (r : Rules) : typeArgs r = (do
    expect .lt
    let args ← loop (argStep r) []
    expectClosingAngle
    return args) := rfl

theorem argStep_spells (hr : Rules.SpellsTypes r) {start : ParseState} {args : List TypeRef}
    {result : List TypeRef ⊕ List TypeRef} (hs : ArgsSoFar start args s)
    (h : argStep r args s = .ok result t) :
    Sum.elim (ArgsSoFar start · t) (fun args => start.Spells t (.args args)) result := by
  obtain ⟨hsStart, w, hw, hwNames, hwAhead⟩ := hs
  unfold argStep at h
  obtain ⟨x, m, hType, h⟩ := bind_eq_ok.mp h
  obtain ⟨hms, v, hv, hvNames, hvAhead⟩ := hr s x m hType
  have last : start.Spells m (.args (args ++ [x])) := by
    refine ⟨hms.trans hsStart, w ++ v, hw _ _ (.lastArg hv),
      hwNames.append (hvNames.of_suffix hsStart), ?_⟩
    intro clear
    obtain ⟨clear, hAhead⟩ := hwAhead clear
    rw [hAhead, hvAhead clear, List.append_assoc]
  rw [read_bind_eq_ok (p := pendingGt) rfl] at h
  split at h
  next => cases h; exact last
  next hm =>
    have clear : m.pendingGt = false := Bool.eq_false_iff.mpr hm
    obtain ⟨more, u, hAccept, h⟩ := bind_eq_ok.mp h
    cases more with
    | false =>
      cases accept_false hAccept
      cases h
      exact last
    | true =>
      cases h
      have hmt := accept_drops hAccept
      refine ⟨(hmt.suffix.trans hms).trans hsStart, w ++ (v ++ [.punct .comma]), ?_, ?_, ?_⟩
      · intro xs v' hxs
        rw [List.append_assoc, List.append_assoc, List.append_assoc]
        exact hw _ _ (.moreArgs hv hxs)
      · exact hwNames.append ((hvNames.of_suffix hsStart).append HasNames.nil.punct)
      · intro hClear
        obtain ⟨hClear, hAhead⟩ := hwAhead hClear
        refine ⟨hmt.clear clear, ?_⟩
        rw [hAhead, hvAhead hClear, hmt.ahead clear (by rintro ⟨⟩)]
        simp only [List.append_assoc, List.cons_append, List.nil_append]

theorem typeArgs_spells (hr : Rules.SpellsTypes r) {args : List TypeRef}
    (h : typeArgs r s = .ok args t) : s.Spells t (.argList args) := by
  rw [typeArgs_eq] at h
  obtain ⟨_, a, hOpen, h⟩ := bind_eq_ok.mp h
  obtain ⟨args', b, hLoop, h⟩ := bind_eq_ok.mp h
  obtain ⟨_, c, hClose, h⟩ := bind_eq_ok.mp h
  cases h
  have hsa := expect_drops hOpen
  obtain ⟨hbc, hClosed⟩ := expectClosingAngle_ahead hClose
  have hab : a.Spells b (.args args) := by
    refine loop_invariant (ArgsSoFar a) (Q := fun args b => a.Spells b (.args args)) ?_ ?_ hLoop
    · exact ⟨List.suffix_rfl, [], fun _ _ h => h, .nil, fun clear => ⟨clear, rfl⟩⟩
    · exact fun _ _ hp _ _ hStep => argStep_spells hr hp hStep
  obtain ⟨hba, w, hw, hwNames, hwAhead⟩ := hab
  refine ⟨(hbc.trans hba).trans hsa.suffix, _, .list hw,
    ((hwNames.of_suffix hsa.suffix).append HasNames.nil.punct).punct, ?_⟩
  intro clear
  rw [hsa.ahead clear (by rintro ⟨⟩), hwAhead (hsa.clear clear), hClosed, List.cons_append,
    List.append_assoc]
  rfl

/-- The parts of a name read so far, up to `s`, with the path that they make. -/
structure PathSoFar (start : ParseState) (first : List String) (found : List String × List TypeRef)
    (s : ParseState) : Prop where
  suffix : s.rest <:+ start.rest
  noArgs : found.2 = []
  spelled : ∃ w, (∀ path args v, Spelled (.tail found.1 path args) v →
      Spelled (.tail first path args) (w ++ v)) ∧
    start.HasNames w ∧ (start.pendingGt = false → s.pendingGt = false ∧ start.ahead = w ++ s.ahead)

/-- Behind a part of a name and its type arguments: the next part, or the whole name. -/
def nameEnd (path : List String) (args : List TypeRef) :
    Parse (List String × List TypeRef ⊕ TypeRefKind TypeRef) := do
  if !(← pendingGt) && (← check .dot) && (← peekKind 1).isIdent then
    let _ ← advance
    return .inl (path ++ [← expectName], [])
  else return .inr (.named path args)

/-- What the rule for names goes through behind each part. -/
def nameStep (r : Rules) (found : List String × List TypeRef) :
    Parse (List String × List TypeRef ⊕ TypeRefKind TypeRef) := do
  let (path, args) := found
  let args ← if ← check .lt then typeArgs r else pure args
  nameEnd path args

theorem nameStep_spells (hr : Rules.SpellsTypes r)
    {start : ParseState} {first : List String} {found : List String × List TypeRef}
    {result : List String × List TypeRef ⊕ TypeRefKind TypeRef} (hs : PathSoFar start first found s)
    (h : nameStep r found s = .ok result t) :
    Sum.elim (PathSoFar start first · t)
      (fun kind => ∃ path args, kind = .named path args ∧ start.Spells t (.tail first path args))
      result := by
  obtain ⟨path, args⟩ := found
  obtain ⟨hsStart, rfl, w, hw, hwNames, hwAhead⟩ := hs
  have list : ∃ args m, s.Spells m (.argList args) ∧ nameEnd path args m = .ok result t := by
    unfold nameStep at h
    rw [check_bind_eq_ok] at h
    split at h
    · obtain ⟨args, m, hArgs, h⟩ := bind_eq_ok.mp h
      exact ⟨args, m, typeArgs_spells hr hArgs, h⟩
    · exact ⟨[], s, ⟨List.suffix_rfl, [], .noList, .nil, fun _ => rfl⟩, h⟩
  obtain ⟨args, m, ⟨hms, v, hv, hvNames, hvAhead⟩, h⟩ := list
  unfold nameEnd at h
  rw [read_bind_eq_ok (p := pendingGt) rfl, check_bind_eq_ok, peekKind_bind_eq_ok] at h
  split at h
  next hDot =>
    simp only [Bool.and_eq_true, Bool.not_eq_true'] at hDot
    obtain ⟨⟨clear, hDot⟩, _⟩ := hDot
    obtain ⟨x, m', hAdvance, h⟩ := bind_eq_ok.mp h
    obtain ⟨name, q, hName, h⟩ := bind_eq_ok.mp h
    cases h
    have hmm' := advance_drops (isEof_of_isPunct hDot) hAdvance
    rw [kind_of_isPunct hDot] at hmm'
    have hName := expectName_drops hName
    refine ⟨((hName.suffix.trans hmm'.suffix).trans hms).trans hsStart, rfl,
      w ++ (v ++ [.punct .dot, .ident name]), ?_, ?_, ?_⟩
    · intro path' args' v' hTail
      rw [List.append_assoc, List.append_assoc]
      exact hw _ _ _ (.member hv hTail)
    · refine hwNames.append ((hvNames.of_suffix hsStart).append ?_)
      exact ((hName.hasNames .nil).punct).of_suffix ((hmm'.suffix.trans hms).trans hsStart)
    · intro hClear
      obtain ⟨hClear, hAhead⟩ := hwAhead hClear
      refine ⟨hName.clear (hmm'.clear clear), ?_⟩
      rw [hAhead, hvAhead hClear, hmm'.ahead clear (by rintro ⟨⟩),
        hName.ahead (hmm'.clear clear) (by rintro ⟨⟩)]
      simp only [List.append_assoc, List.cons_append, List.nil_append]
  next =>
    cases h
    refine ⟨path, args, rfl, hms.trans hsStart, w ++ v, hw _ _ _ (.ends hv),
      hwNames.append (hvNames.of_suffix hsStart), ?_⟩
    intro hClear
    obtain ⟨hClear, hAhead⟩ := hwAhead hClear
    rw [hAhead, hvAhead hClear, List.append_assoc]

theorem namedType_eq (r : Rules) : namedType r = (do
    let first ← expectName
    let first ← if ← accept .colonColon then expectName else pure first
    loop (nameStep r) ([first], [])) := rfl

theorem namedType_spells (hr : Rules.SpellsTypes r)
    {kind : TypeRefKind TypeRef} (h : namedType r s = .ok kind t) (span : Span) :
    s.Spells t (.simple ⟨kind, span⟩) := by
  rw [namedType_eq] at h
  obtain ⟨first, a, hFirst, h⟩ := bind_eq_ok.mp h
  have hsa := expectName_drops hFirst
  have tail : ∀ {name : String} {m : ParseState}, loop (nameStep r) ([name], []) m = .ok kind t →
      ∃ path args, kind = .named path args ∧ m.Spells t (.tail [name] path args) := by
    intro name m hLoop
    refine loop_invariant (PathSoFar m [name])
      (Q := fun kind t => ∃ path args, kind = .named path args ∧ m.Spells t (.tail [name] path args))
      ?_ ?_ hLoop
    · exact ⟨List.suffix_rfl, rfl, [], fun _ _ _ h => h, .nil, fun clear => ⟨clear, rfl⟩⟩
    · exact fun _ _ hp _ _ hStep => nameStep_spells hr hp hStep
  obtain ⟨aliased, b, hAccept, h⟩ := bind_eq_ok.mp h
  cases aliased with
  | false =>
    cases accept_false hAccept
    obtain ⟨path, args, rfl, hat, w, hw, hwNames, hwAhead⟩ := tail h
    refine ⟨hat.trans hsa.suffix, _, .named span hw, hsa.hasNames hwNames, ?_⟩
    intro clear
    rw [hsa.ahead clear (by rintro ⟨⟩), hwAhead (hsa.clear clear)]
    rfl
  | true =>
    have hab := accept_drops hAccept
    obtain ⟨name, c, hName, h⟩ := bind_eq_ok.mp h
    have hbc := expectName_drops hName
    obtain ⟨path, args, rfl, hct, w, hw, hwNames, hwAhead⟩ := tail h
    refine ⟨((hct.trans hbc.suffix).trans hab.suffix).trans hsa.suffix, _, .qualified span hw,
      hsa.hasNames ((hbc.hasNames hwNames).of_suffix hab.suffix).punct, ?_⟩
    intro clear
    rw [hsa.ahead clear (by rintro ⟨⟩), hab.ahead (hsa.clear clear) (by rintro ⟨⟩),
      hbc.ahead (hab.clear (hsa.clear clear)) (by rintro ⟨⟩),
      hwAhead (hbc.clear (hab.clear (hsa.clear clear)))]
    rfl

/-- Where half of a `>>` is ahead no mark is read, so that nothing is asked of the start. -/
structure MarksSoFar (start : ParseState) (x y : TypeRef) (s : ParseState) : Prop where
  suffix : s.rest <:+ start.rest
  spelled : ∃ w, (∀ z v, Spelled (.marks y z) v → Spelled (.marks x z) (w ++ v)) ∧
    (∀ name, .ident name ∉ w) ∧ start.ahead = w ++ s.ahead

theorem MarksSoFar.snoc {start : ParseState} {x y z : TypeRef} {p : Punct}
    (h : MarksSoFar start x y s) (clear : s.pendingGt = false) (hst : s.Drops (.punct p) t)
    (hp : p ≠ .gtGt) (mark : ∀ u v, Spelled (.marks z u) v → Spelled (.marks y u) (.punct p :: v)) :
    MarksSoFar start x z t := by
  obtain ⟨suffix, w, hw, names, hAhead⟩ := h
  refine ⟨hst.suffix.trans suffix, w ++ [.punct p], ?_, ?_, ?_⟩
  · intro u v hv
    rw [List.append_assoc]
    exact hw _ _ (mark u v hv)
  · intro name hName
    rcases List.mem_append.mp hName with hName | hName
    · exact names name hName
    · rw [List.mem_singleton] at hName
      cases hName
  · rw [hAhead, hst.ahead clear (fun h => hp (TokenKind.punct.inj h)), List.append_assoc]
    rfl

/-- What the rule for `?` and `*` repeats. -/
def markStep (start : Nat) (x : TypeRef) : Parse (TypeRef ⊕ TypeRef) := do
  if ← pendingGt then return .inr x
  else if ← accept .question then return .inl ⟨.nullable x, ← spanFrom start⟩
  else if ← accept .star then return .inl ⟨.pointer x, ← spanFrom start⟩
  else return .inr x

theorem markStep_spells {place : Nat} {start : ParseState} {x y : TypeRef}
    {result : TypeRef ⊕ TypeRef} (hs : MarksSoFar start x y s)
    (h : markStep place y s = .ok result t) :
    Sum.elim (MarksSoFar start x · t) (MarksSoFar start x · t) result := by
  unfold markStep at h
  rw [read_bind_eq_ok (p := pendingGt) rfl] at h
  split at h
  next => cases h; exact hs
  next hPending =>
    have clear : s.pendingGt = false := Bool.eq_false_iff.mpr hPending
    obtain ⟨question, m, hAccept, h⟩ := bind_eq_ok.mp h
    cases question with
    | true =>
      cases h
      exact hs.snoc clear (accept_drops hAccept) (by decide) fun _ _ => .nullable _
    | false =>
      cases accept_false hAccept
      obtain ⟨star, m, hAccept, h⟩ := bind_eq_ok.mp h
      cases star with
      | true =>
        cases h
        exact hs.snoc clear (accept_drops hAccept) (by decide) fun _ _ => .pointer _
      | false =>
        cases accept_false hAccept
        cases h
        exact hs

theorem typeMarks_spells {start : Nat} {x y : TypeRef} (h : typeMarks start x s = .ok y t) :
    t.rest <:+ s.rest ∧ ∃ w, Spelled (.marks x y) w ∧ (∀ name, .ident name ∉ w) ∧
      s.ahead = w ++ t.ahead := by
  have last : MarksSoFar s x y t := by
    refine loop_invariant (MarksSoFar s x) (Q := MarksSoFar s x) ?_ ?_ h
    · exact ⟨List.suffix_rfl, [], fun _ _ h => h, fun _ => List.not_mem_nil, rfl⟩
    · exact fun _ _ hp _ _ hStep => markStep_spells hp hStep
  obtain ⟨suffix, w, hw, names, hAhead⟩ := last
  have hMarks := hw y [] (.unmarked y)
  rw [List.append_nil] at hMarks
  exact ⟨suffix, w, hMarks, names, hAhead⟩

theorem predefined?_eq_some {k : TokenKind} {p : PredefinedType} (h : k.predefined? = some p) :
    k = .keyword p.keyword := by
  cases k with
  | keyword w => rw [Keyword.keyword_of_predefined? h]
  | _ => cases h

theorem nonArrayType_spells (hr : Rules.SpellsTypes r) {x : TypeRef}
    (h : nonArrayType r s = .ok x t) : s.Spells t (.element x) := by
  unfold nonArrayType at h
  rw [currentStart_bind_eq_ok, currentKind_bind_eq_ok] at h
  have marked : ∀ {kind : TypeRefKind TypeRef} {m : ParseState},
      s.Spells m (.simple ⟨kind, ⟨s.current.span.start, m.prevEnd⟩⟩) → (do
        typeMarks s.current.span.start ⟨kind, ← spanFrom s.current.span.start⟩) m = .ok x t →
      s.Spells t (.element x) := by
    rintro kind m ⟨hms, w, hw, hwNames, hwAhead⟩ hMarks
    rw [read_bind_eq_ok (p := spanFrom _) rfl] at hMarks
    obtain ⟨htm, v, hv, hvNames, hvAhead⟩ := typeMarks_spells hMarks
    refine ⟨htm.trans hms, w ++ v, .element hw hv, ?_, ?_⟩
    · exact hwNames.append fun name hName => absurd hName (hvNames name)
    · intro clear
      rw [hwAhead clear, hvAhead, List.append_assoc]
  cases hp : s.current.kind.predefined? with
  | some p =>
    rw [hp] at h
    obtain ⟨_, m, hAdvance, h⟩ := bind_eq_ok.mp h
    apply marked _ h
    have hsm := advance_drops (isEof_of_predefined? hp) hAdvance
    rw [predefined?_eq_some hp] at hsm
    refine ⟨hsm.suffix, _, .predefined p _, ?_, ?_⟩
    · intro name hName
      rw [List.mem_singleton] at hName
      cases hName
    · intro clear
      exact hsm.ahead clear (by rintro ⟨⟩)
  | none =>
    rw [hp, currentKind_bind_eq_ok] at h
    split at h
    · obtain ⟨kind, m, hNamed, h⟩ := bind_eq_ok.mp h
      exact marked (namedType_spells hr hNamed _) h
    · cases h

/-- Between the brackets, `n` commas have been read up to `t`. -/
structure CommasSoFar (s : ParseState) (n : Nat) (t : ParseState) : Prop where
  suffix : t.rest <:+ s.rest
  clear : t.pendingGt = false
  ahead : s.ahead = List.replicate n (.punct .comma) ++ t.ahead

theorem countCommas_ahead {n : Nat} (clear : s.pendingGt = false) (h : countCommas s = .ok n t) :
    CommasSoFar s n t := by
  refine loop_invariant (CommasSoFar s) (Q := CommasSoFar s) ⟨List.suffix_rfl, clear, rfl⟩ ?_ h
  rintro n p ⟨suffix, clear, hAhead⟩ result q hStep
  obtain ⟨comma, m, hAccept, hStep⟩ := bind_eq_ok.mp hStep
  cases comma with
  | true =>
    cases hStep
    have hpq := accept_drops hAccept
    refine ⟨hpq.suffix.trans suffix, hpq.clear clear, ?_⟩
    rw [hAhead, hpq.ahead clear (by rintro ⟨⟩), List.replicate_succ', List.append_assoc]
    rfl
  | false =>
    cases accept_false hAccept
    cases hStep
    exact ⟨suffix, clear, hAhead⟩

/-- The rank specifiers read so far, up to `t`. -/
structure RanksSoFar (s : ParseState) (ranks : List Nat) (t : ParseState) : Prop where
  suffix : t.rest <:+ s.rest
  positive : ∀ n ∈ ranks, 0 < n
  ahead : s.ahead = ranks.flatMap rankMarks ++ t.ahead

/-- What the rule for rank specifiers repeats. -/
def rankStep (ranks : List Nat) : Parse (List Nat ⊕ List Nat) := do
  if !(← pendingGt) && (Tokens.scanRankSpecifier (← remaining)).isSome then
    let _ ← advance
    let commas ← countCommas
    expect .rBracket
    return .inl (ranks ++ [commas + 1])
  else return .inr ranks

theorem rankSpecifiers_eq : rankSpecifiers = loop rankStep [] := rfl

theorem current_of_scanRankSpecifier (h : (Tokens.scanRankSpecifier s.rest).isSome = true) :
    s.current.kind = .punct .lBracket := by
  cases hRest : s.rest with
  | nil =>
    rw [hRest] at h
    cases h
  | cons x ts =>
    rw [hRest, Tokens.scanRankSpecifier] at h
    rw [ParseState.current, hRest, List.headD_cons]
    split at h
    next hx => exact kind_of_isPunct hx
    next => cases h

theorem rankStep_ahead {start : ParseState} {ranks : List Nat} {result : List Nat ⊕ List Nat}
    (hs : RanksSoFar start ranks s) (h : rankStep ranks s = .ok result t) :
    Sum.elim (RanksSoFar start · t) (RanksSoFar start · t) result := by
  obtain ⟨suffix, positive, hAhead⟩ := hs
  unfold rankStep at h
  rw [read_bind_eq_ok (p := pendingGt) rfl, remaining_bind_eq_ok] at h
  split at h
  next hRank =>
    simp only [Bool.and_eq_true, Bool.not_eq_true'] at hRank
    obtain ⟨clear, hScan⟩ := hRank
    obtain ⟨_, a, hAdvance, h⟩ := bind_eq_ok.mp h
    obtain ⟨commas, b, hCommas, h⟩ := bind_eq_ok.mp h
    obtain ⟨_, c, hExpect, h⟩ := bind_eq_ok.mp h
    cases h
    have hBracket := current_of_scanRankSpecifier hScan
    have hsa := advance_drops (by rw [hBracket]; rfl) hAdvance
    rw [hBracket] at hsa
    obtain ⟨hba, hbClear, hbAhead⟩ := countCommas_ahead (hsa.clear clear) hCommas
    have hbt := expect_drops hExpect
    refine ⟨((hbt.suffix.trans hba).trans hsa.suffix).trans suffix, ?_, ?_⟩
    · intro n hn
      rcases List.mem_append.mp hn with hn | hn
      · exact positive n hn
      · rw [List.mem_singleton.mp hn]
        exact Nat.succ_pos commas
    · rw [hAhead, hsa.ahead clear (by rintro ⟨⟩), hbAhead, hbt.ahead hbClear (by rintro ⟨⟩),
        List.flatMap_append, List.flatMap_singleton, rankMarks, Nat.add_sub_cancel]
      simp only [List.append_assoc, List.cons_append, List.nil_append]
  next =>
    cases h
    exact ⟨suffix, positive, hAhead⟩

theorem rankSpecifiers_ahead {ranks : List Nat} (h : rankSpecifiers s = .ok ranks t) :
    RanksSoFar s ranks t := by
  refine loop_invariant (RanksSoFar s) (Q := RanksSoFar s) ⟨List.suffix_rfl, by simp, rfl⟩ ?_ h
  exact fun _ _ hp _ _ hStep => rankStep_ahead hp hStep

/-! ## Types -/

theorem hasNames_rankMarks (ranks : List Nat) : s.HasNames (ranks.flatMap rankMarks) := by
  intro name hName
  obtain ⟨n, _, hName⟩ := List.mem_flatMap.mp hName
  simp [rankMarks] at hName

theorem type_spells_of (hr : Rules.SpellsTypes r) {x : TypeRef}
    (h : Parse.type r s = .ok x t) : s.Spells t (.type x) := by
  unfold Parse.type at h
  rw [currentStart_bind_eq_ok] at h
  obtain ⟨element, a, hElement, h⟩ := bind_eq_ok.mp h
  obtain ⟨ranks, b, hRanks, h⟩ := bind_eq_ok.mp h
  obtain ⟨has, w, hw, hwNames, hwAhead⟩ := nonArrayType_spells hr hElement
  obtain ⟨hba, positive, hRanksAhead⟩ := rankSpecifiers_ahead hRanks
  have hAhead : s.pendingGt = false → s.ahead = (w ++ ranks.flatMap rankMarks) ++ b.ahead := by
    intro clear
    rw [hwAhead clear, hRanksAhead, List.append_assoc]
  have hNames : s.HasNames (w ++ ranks.flatMap rankMarks) := hwNames.append (hasNames_rankMarks ranks)
  split at h
  next hEmpty =>
    cases h
    rw [List.isEmpty_iff] at hEmpty
    subst hEmpty
    rw [List.flatMap_nil, List.append_nil] at hAhead
    exact ⟨hba.trans has, w, .plain hw, hwNames, hAhead⟩
  next hRanksNe =>
    rw [List.isEmpty_iff] at hRanksNe
    have array : ∀ span, Spelled (.type ⟨.array element ranks, span⟩) (w ++ ranks.flatMap rankMarks) :=
      fun span => .array span hw hRanksNe positive
    rw [read_bind_eq_ok (p := spanFrom _) rfl, read_bind_eq_ok (p := pendingGt) rfl] at h
    split at h
    next =>
      cases h
      exact ⟨hba.trans has, _, array _, hNames, hAhead⟩
    next hPending =>
      have clear : b.pendingGt = false := Bool.eq_false_iff.mpr hPending
      obtain ⟨question, c, hAccept, h⟩ := bind_eq_ok.mp h
      cases question with
      | false =>
        cases accept_false hAccept
        cases h
        exact ⟨hba.trans has, _, array _, hNames, hAhead⟩
      | true =>
        cases h
        have hbc := accept_drops hAccept
        refine ⟨(hbc.suffix.trans hba).trans has, _, .nullableArray _ _ hw hRanksNe positive, ?_, ?_⟩
        · exact hNames.append HasNames.nil.punct
        · intro hClear
          rw [hAhead hClear, hbc.ahead clear (by rintro ⟨⟩), List.append_assoc _ [_]]
          rfl

theorem rulesType_spells (n : Nat) : Rules.SpellsTypes (Rules.depth n) := by
  induction n with
  | zero =>
    intro s x t h
    cases h
  | succ n ih =>
    intro s x t h
    exact type_spells_of ih h

/-- A type that is read is spelled by the tokens that were read for it. -/
theorem type_spells {n : Nat} {x : TypeRef} (h : Parse.type (Rules.depth n) s = .ok x t) :
    s.Spells t (.type x) := type_spells_of (rulesType_spells n) h

end Parse

end Stackable
