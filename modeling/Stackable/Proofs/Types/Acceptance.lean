import Stackable.Proofs.Types.Reading

/-!
# Which tokens are read as a type

Tokens that spell a type are read as that type, up to its places, wherever what follows them does not
go on with it. The depth that the rules need is the number of lists of type arguments.
-/

set_option autoImplicit false

namespace Stackable

/-- Any mark ahead but a `>` is a token of its own. -/
theorem Tokens.exists_cons_of_halves {ts : List Token} {k : TokenKind} {more : List TokenKind}
    (h : halves ts = k :: more) (hk : k ≠ .punct .gt) :
    ∃ x rest, ts = x :: rest ∧ x.kind = k ∧ halves rest = more := by
  cases ts with
  | nil => cases h
  | cons x rest =>
    rw [halves_cons] at h
    by_cases hx : x.kind = .punct .gtGt
    · rw [hx] at h
      exact absurd (List.cons.inj h).1.symm hk
    · rw [TokenKind.halves_of_ne hx] at h
      obtain ⟨rfl, rfl⟩ := List.cons.inj h
      exact ⟨x, rest, rfl, rfl, rfl⟩

namespace ParseState

variable {s : ParseState} {k : TokenKind} {more : List TokenKind}

theorem exists_token (h : s.ahead = k :: more) (hk : k ≠ .punct .gt) :
    s.pendingGt = false ∧ ∃ x ts, s.rest = x :: ts ∧ x.kind = k ∧ Tokens.halves ts = more := by
  cases hs : s.pendingGt with
  | true =>
    rw [ahead, if_pos hs] at h
    exact absurd (List.cons.inj h).1.symm hk
  | false =>
    rw [ahead_of_clear hs] at h
    exact ⟨rfl, Tokens.exists_cons_of_halves h hk⟩

theorem current_of_ahead (h : s.ahead = k :: more) (hk : k ≠ .punct .gt) : s.current.kind = k := by
  obtain ⟨_, x, ts, hRest, hx, _⟩ := exists_token h hk
  rw [ParseState.current, hRest, List.headD_cons, hx]

/-- Whether a mark comes next, where half of a `>>` counts as a mark. -/
theorem comesNext_eq (s : ParseState) {p : Punct} (hp : p ≠ .gt ∧ p ≠ .gtGt) :
    (!s.pendingGt && s.current.kind.isPunct p) = (s.ahead.headD .eof).isPunct p := by
  have hgt : (TokenKind.punct .gt).isPunct p = false := by
    rw [TokenKind.isPunct, beq_eq_false_iff_ne]
    exact hp.1.symm
  cases hs : s.pendingGt with
  | true =>
    rw [ahead, if_pos hs, List.headD_cons, hgt]
    rfl
  | false =>
    rw [ahead_of_clear hs, current]
    cases hRest : s.rest with
    | nil => rfl
    | cons x ts =>
      rw [Tokens.halves_cons, List.headD_cons]
      by_cases hx : x.kind = .punct .gtGt
      · rw [hx, TokenKind.halves, List.cons_append, List.headD_cons, hgt, TokenKind.isPunct,
          beq_eq_false_iff_ne.mpr hp.2.symm]
        rfl
      · rw [TokenKind.halves_of_ne hx]
        rfl

end ParseState

/-- None of the marks comes next. -/
def Stops (ps : List Punct) (more : List TokenKind) : Prop :=
  ∀ p ∈ ps, (more.headD .eof).isPunct p = false

/-- Marks that go on with a name. -/
def namePuncts : List Punct := [.lt, .dot, .colonColon]

/-- Marks that go on with a type without rank specifiers. -/
def elementPuncts : List Punct := namePuncts ++ [.question, .star]

/-- Marks that go on with a type. -/
def typePuncts : List Punct := elementPuncts ++ [.lBracket]

theorem Stops.mono {ps qs : List Punct} {more : List TokenKind} (h : Stops qs more) (hps : ps ⊆ qs) :
    Stops ps more := fun p hp => h p (hps hp)

theorem stops_of_head {ps : List Punct} {k : TokenKind} {more : List TokenKind}
    (h : ∀ p ∈ ps, k.isPunct p = false) : Stops ps (k :: more) := h

namespace Parse

open ParseState TypeRef
open Phrase (Spelled)

variable {α β : Type} {r : Rules} {s : ParseState} {mid more w v : List TokenKind} {x y : TypeRef}

theorem advance_of_cons {z : Token} {ts : List Token} (hRest : s.rest = z :: ts)
    (hEof : z.kind.isEof = false) : advance s = .ok z { s with rest := ts, prevEnd := z.span.stop } := by
  rcases advance_cases s with ⟨hEnd, _⟩ | ⟨z', l, hRest', _, hRun⟩
  · rw [ParseState.current, hRest, List.headD_cons, hEof] at hEnd
    cases hEnd
  · rw [hRest] at hRest'
    cases hRest'
    exact hRun

theorem accept_of_cons {z : Token} {ts : List Token} {p : Punct} (hRest : s.rest = z :: ts)
    (hz : z.kind = .punct p) : accept p s = .ok true { s with rest := ts, prevEnd := z.span.stop } := by
  have hCheck : check p s = .ok true s := by
    change EStateM.Result.ok (s.current.kind.isPunct p) s = _
    rw [ParseState.current, hRest, List.headD_cons, hz, TokenKind.isPunct, beq_self_eq_true]
  unfold accept
  rw [bind_of_ok hCheck, if_pos rfl, bind_of_ok (advance_of_cons hRest (by rw [hz]; rfl))]
  rfl

theorem accept_of_ne {p : Punct} (h : s.current.kind.isPunct p = false) :
    accept p s = .ok false s := by
  have hCheck : check p s = .ok false s := by
    change EStateM.Result.ok (s.current.kind.isPunct p) s = _
    rw [h]
  unfold accept
  rw [bind_of_ok hCheck, if_neg Bool.false_ne_true]
  rfl

theorem not_comesNext {p : Punct} (h : Stops [p] s.ahead) (hp : p ≠ .gt ∧ p ≠ .gtGt) :
    (!s.pendingGt && s.current.kind.isPunct p) = false :=
  (comesNext_eq s hp).trans (h p List.mem_cons_self)

theorem accept_of_stops {p : Punct} (h : Stops [p] s.ahead) (hp : p ≠ .gt ∧ p ≠ .gtGt)
    (clear : s.pendingGt = false) : accept p s = .ok false s := by
  have hNot := not_comesNext h hp
  rw [clear] at hNot
  exact accept_of_ne hNot

theorem exists_advance_drop {k : TokenKind} (hs : s.ahead = k :: more) (hk : k ≠ .punct .gt)
    (hEof : k.isEof = false) : ∃ z t, advance s = .ok z t ∧ s.Drops k t ∧ t.ahead = more := by
  obtain ⟨clear, z, ts, hRest, rfl, hMore⟩ := exists_token hs hk
  exact ⟨z, _, advance_of_cons hRest hEof, ⟨⟨z, hRest, rfl⟩, rfl⟩,
    (ahead_of_clear (s := { s with rest := ts, prevEnd := z.span.stop }) clear).trans hMore⟩

theorem exists_accept_drop {p : Punct} (hs : s.ahead = .punct p :: more) (hp : p ≠ .gt) :
    ∃ t, accept p s = .ok true t ∧ s.Drops (.punct p) t ∧ t.ahead = more := by
  obtain ⟨clear, z, ts, hRest, hz, hMore⟩ := exists_token hs fun h => hp (TokenKind.punct.inj h)
  exact ⟨_, accept_of_cons hRest hz, ⟨⟨z, hRest, hz⟩, rfl⟩,
    (ahead_of_clear (s := { s with rest := ts, prevEnd := z.span.stop }) clear).trans hMore⟩

theorem exists_expect_drop {p : Punct} (hs : s.ahead = .punct p :: more) (hp : p ≠ .gt) :
    ∃ t, expect p s = .ok () t ∧ s.Drops (.punct p) t ∧ t.ahead = more := by
  obtain ⟨t, hRun, hDrops, hMore⟩ := exists_accept_drop hs hp
  refine ⟨t, ?_, hDrops, hMore⟩
  unfold expect
  rw [bind_of_ok hRun]
  rfl

theorem exists_expectName_drop {name : String} (hs : s.ahead = .ident name :: more) :
    ∃ t, expectName s = .ok name t ∧ s.Drops (.ident name) t ∧ t.ahead = more := by
  obtain ⟨z, t, hRun, hDrops, hMore⟩ := exists_advance_drop hs (by rintro ⟨⟩) rfl
  refine ⟨t, ?_, hDrops, hMore⟩
  have hKind : currentKind s = .ok (.ident name) s := by
    change EStateM.Result.ok s.current.kind s = _
    rw [current_of_ahead hs (by rintro ⟨⟩)]
  unfold expectName
  rw [bind_of_ok hKind]
  dsimp only
  rw [bind_of_ok hRun]
  rfl

theorem exists_expectClosingAngle (hs : s.ahead = .punct .gt :: more) :
    ∃ t, expectClosingAngle s = .ok () t ∧ t.rest <:+ s.rest ∧ t.ahead = more := by
  unfold expectClosingAngle
  rw [bind_of_ok (p := pendingGt) rfl]
  cases hPending : s.pendingGt with
  | true =>
    rw [if_pos rfl]
    rw [ParseState.ahead, if_pos hPending] at hs
    exact ⟨{ s with pendingGt := false }, rfl, List.suffix_rfl, (List.cons.inj hs).2⟩
  | false =>
    rw [if_neg Bool.false_ne_true]
    rw [ahead_of_clear hPending] at hs
    cases hRest : s.rest with
    | nil =>
      rw [hRest] at hs
      cases hs
    | cons z ts =>
      rw [hRest, Tokens.halves_cons] at hs
      by_cases hz : z.kind = .punct .gtGt
      · have hMiss : accept .gt s = .ok false s := by
          apply accept_of_ne
          rw [ParseState.current, hRest, List.headD_cons, hz]
          rfl
        rw [bind_of_ok hMiss, if_neg Bool.false_ne_true, bind_of_ok (accept_of_cons hRest hz)]
        rw [hz] at hs
        exact ⟨{ s with rest := ts, prevEnd := z.span.stop, pendingGt := true }, rfl,
          List.suffix_cons z ts, (List.cons.inj hs).2⟩
      · rw [TokenKind.halves_of_ne hz] at hs
        obtain ⟨hGt, hMore⟩ := List.cons.inj hs
        rw [bind_of_ok (accept_of_cons hRest hGt)]
        exact ⟨{ s with rest := ts, prevEnd := z.span.stop }, rfl, List.suffix_cons z ts,
          (ahead_of_clear (s := { s with rest := ts, prevEnd := z.span.stop }) hPending).trans hMore⟩

/-- From a state in `P` the parser succeeds with a result in `Q` and leaves `more`. -/
def Consumes (p : Parse α) (P : ParseState → Prop) (more : List TokenKind) (Q : α → Prop) : Prop :=
  ∀ s, P s → ∃ a t, p s = .ok a t ∧ t.rest <:+ s.rest ∧ t.ahead = more ∧ Q a

/-- The same of the repetition that has come to `a`, whatever bound it started with. -/
def LoopsTo (body : α → Parse (α ⊕ β)) (a : α) (P : ParseState → Prop) (more : List TokenKind)
    (Q : β → Prop) : Prop :=
  ∀ n, Consumes (iterate body (n + 1) a) (fun s => P s ∧ s.rest.length ≤ n) more Q

variable {body : α → Parse (α ⊕ β)} {a : α} {P : ParseState → Prop} {Q : β → Prop}

theorem LoopsTo.last (h : Consumes (body a) P more fun r => ∃ b, r = .inr b ∧ Q b) :
    LoopsTo body a P more Q := by
  rintro n s ⟨hs, _⟩
  obtain ⟨_, t, hRun, hts, hMore, b, rfl, hb⟩ := h s hs
  exact ⟨b, t, iterate_succ_eq_ok.mpr (.inr hRun), hts, hMore, hb⟩

theorem LoopsTo.round
    (h : ∀ s, P s → ∃ next t, body a s = .ok (.inl next) t ∧ t.rest <:+ s.rest ∧
      t.rest.length < s.rest.length ∧ ∃ P', P' t ∧ LoopsTo body next P' more Q) :
    LoopsTo body a P more Q := by
  rintro n s ⟨hs, hn⟩
  obtain ⟨next, t, hRun, hts, hShorter, P', ht, hNext⟩ := h s hs
  obtain ⟨n, rfl⟩ : ∃ m, n = m + 1 := Nat.exists_eq_add_one.mpr (by omega)
  obtain ⟨b, u, hLoop, hut, hMore, hb⟩ := hNext n t ⟨ht, by omega⟩
  exact ⟨b, u, iterate_succ_eq_ok.mpr (.inl ⟨next, t, hRun, hLoop⟩), hut.trans hts, hMore, hb⟩

theorem LoopsTo.consumes (h : LoopsTo body a P more Q) : Consumes (loop body a) P more Q := by
  intro s hs
  exact h s.rest.length s ⟨hs, Nat.le_refl _⟩

/-- How many lists of type arguments open. -/
def nesting (w : List TokenKind) : Nat := w.countP (·.isPunct .lt)

theorem nesting_append (w v : List TokenKind) : nesting (w ++ v) = nesting w + nesting v :=
  List.countP_append

theorem nesting_cons_of_ne {k : TokenKind} (hk : k.isPunct .lt = false) (w : List TokenKind) :
    nesting (k :: w) = nesting w := by
  rw [nesting, List.countP_cons_of_neg (by rw [hk]; exact Bool.false_ne_true)]
  rfl

theorem nesting_list (w : List TokenKind) :
    nesting (.punct .lt :: (w ++ [.punct .gt])) = nesting w + 1 := by
  rw [nesting, List.countP_cons_of_pos rfl, List.countP_append]
  rfl

/-- Types with fewer than `d` lists of type arguments are read. -/
def Rules.ReadsTypes (r : Rules) (d : Nat) : Prop :=
  ∀ {x w more}, Spelled (.type x) w → nesting w < d → Stops typePuncts more →
    Consumes r.type (·.ahead = w ++ more) more (·.bare = x.bare)

variable {d : Nat}

theorem argStep_last (hr : Rules.ReadsTypes r d) (hx : Spelled (.type x) w) (hd : nesting w < d)
    (args : List TypeRef) :
    Consumes (argStep r args) (·.ahead = w ++ .punct .gt :: more) (.punct .gt :: more)
      fun r => ∃ b, r = .inr b ∧ bareArgs b = bareArgs (args ++ [x]) := by
  intro s hs
  obtain ⟨x', t, hRun, hts, hMore, hBare⟩ := hr hx hd (stops_of_head (by decide)) s hs
  refine ⟨.inr (args ++ [x']), t, ?_, hts, hMore, _, rfl, ?_⟩
  · unfold argStep
    rw [bind_of_ok hRun, bind_of_ok (p := pendingGt) rfl]
    split
    next => rfl
    next hPending =>
      have hStops : Stops [.comma] t.ahead := by rw [hMore]; exact stops_of_head (by decide)
      rw [bind_of_ok (accept_of_stops hStops (by decide) (Bool.eq_false_iff.mpr hPending))]
      rfl
  · rw [bareArgs_append, bareArgs_append]
    simp only [bareArgs, hBare]

theorem exists_argStep_next (hr : Rules.ReadsTypes r d) (hx : Spelled (.type x) w)
    (hd : nesting w < d) (args : List TypeRef) (hs : s.ahead = w ++ .punct .comma :: more) :
    ∃ x' t, argStep r args s = .ok (.inl (args ++ [x'])) t ∧ t.rest <:+ s.rest ∧
      t.rest.length < s.rest.length ∧ t.ahead = more ∧ x'.bare = x.bare := by
  obtain ⟨x', m, hRun, hms, hMore, hBare⟩ := hr hx hd (stops_of_head (by decide)) s hs
  obtain ⟨clear, _⟩ := exists_token hMore (by rintro ⟨⟩)
  obtain ⟨t, hAccept, hmt, ht⟩ := exists_accept_drop hMore (by decide)
  refine ⟨x', t, ?_, hmt.suffix.trans hms, Nat.lt_of_lt_of_le hmt.length_lt hms.length_le, ht, hBare⟩
  unfold argStep
  rw [bind_of_ok hRun, bind_of_ok (p := pendingGt) rfl, clear, if_neg Bool.false_ne_true,
    bind_of_ok hAccept]
  rfl

theorem loopsTo_argStep (hr : Rules.ReadsTypes r d) {xs : List TypeRef}
    (hxs : Spelled (.args xs) w) (hd : nesting w < d) (args : List TypeRef) :
    LoopsTo (argStep r) args (·.ahead = w ++ .punct .gt :: more) (.punct .gt :: more)
      (bareArgs · = bareArgs (args ++ xs)) := by
  induction xs generalizing w args with
  | nil => cases hxs
  | cons x xs ih =>
    cases hxs with
    | lastArg hx => exact .last (argStep_last hr hx hd args)
    | moreArgs hx hxs =>
      rw [nesting_append, nesting_cons_of_ne rfl] at hd
      refine .round fun s hs => ?_
      rw [List.append_assoc, List.cons_append] at hs
      obtain ⟨x', t, hRun, hts, hShorter, ht, hBare⟩ :=
        exists_argStep_next hr hx (by omega) args hs
      refine ⟨_, t, hRun, hts, hShorter, (·.ahead = _), ht, ?_⟩
      have hSame : bareArgs (args ++ [x'] ++ xs) = bareArgs (args ++ x :: xs) := by
        simp only [bareArgs_append, bareArgs, hBare, List.append_assoc, List.cons_append,
          List.nil_append]
      rw [← hSame]
      exact ih hxs (by omega) _

theorem typeArgs_consumes (hr : Rules.ReadsTypes r d) {args : List TypeRef}
    (hArgs : Spelled (.argList args) w) (hw : w ≠ []) (hd : nesting w ≤ d) :
    Consumes (typeArgs r) (·.ahead = w ++ more) more (bareArgs · = bareArgs args) := by
  cases hArgs with
  | noList => exact absurd rfl hw
  | list hArgs =>
    rename_i v
    have hd : nesting v < d := by rwa [nesting_list] at hd
    intro s hs
    rw [List.cons_append] at hs
    obtain ⟨a, hOpen, hsa, ha⟩ := exists_expect_drop hs (by decide)
    rw [List.append_assoc] at ha
    obtain ⟨args', b, hLoop, hba, hb, hBare⟩ := (loopsTo_argStep hr hArgs hd []).consumes a ha
    obtain ⟨t, hClose, htb, ht⟩ := exists_expectClosingAngle hb
    refine ⟨args', t, ?_, (htb.trans hba).trans hsa.suffix, ht, hBare⟩
    rw [typeArgs_eq, bind_of_ok hOpen, bind_of_ok hLoop, bind_of_ok hClose]
    rfl

theorem nameEnd_of_stops (path : List String) (args : List TypeRef) (h : Stops [.dot] s.ahead) :
    nameEnd path args s = .ok (.inr (.named path args)) s := by
  have hNot := not_comesNext h (by decide)
  unfold nameEnd
  rw [bind_of_ok (p := pendingGt) rfl, bind_of_ok (p := check .dot) rfl,
    bind_of_ok (p := peekKind 1) rfl, hNot, Bool.false_and, if_neg Bool.false_ne_true]
  rfl

theorem exists_nameEnd_next {name : String} (path : List String) (args : List TypeRef)
    (hs : s.ahead = .punct .dot :: .ident name :: more) :
    ∃ t, nameEnd path args s = .ok (.inl (path ++ [name], [])) t ∧ t.rest <:+ s.rest ∧
      t.rest.length < s.rest.length ∧ t.ahead = more ∧ t.pendingGt = false := by
  obtain ⟨z, a, hAdvance, hsa, ha⟩ := exists_advance_drop hs (by rintro ⟨⟩) rfl
  obtain ⟨t, hName, hat, ht⟩ := exists_expectName_drop ha
  obtain ⟨clear, z, ts, hRest, hz, hts⟩ := exists_token hs (by rintro ⟨⟩)
  obtain ⟨z', ts', rfl, hz', _⟩ := Tokens.exists_cons_of_halves hts (by rintro ⟨⟩)
  have hDot : s.current.kind.isPunct .dot = true := by
    rw [current_of_ahead hs (by rintro ⟨⟩)]
    rfl
  have hIdent : (Tokens.kind (s.rest.drop 1)).isIdent = true := by
    rw [hRest, List.drop_succ_cons, List.drop_zero, Tokens.kind, hz']
    rfl
  refine ⟨t, ?_, hat.suffix.trans hsa.suffix, Nat.lt_trans hat.length_lt hsa.length_lt, ht,
    hat.clear (hsa.clear clear)⟩
  unfold nameEnd
  rw [bind_of_ok (p := pendingGt) rfl, bind_of_ok (p := check .dot) rfl,
    bind_of_ok (p := peekKind 1) rfl, clear, hDot, hIdent, Bool.not_false, Bool.true_and,
    Bool.true_and, if_pos rfl, bind_of_ok hAdvance, bind_of_ok hName]
  rfl

/-- The type arguments behind a part of a name, or nothing. -/
theorem exists_nameEnd (hr : Rules.ReadsTypes r d) {args : List TypeRef}
    (hArgs : Spelled (.argList args) w) (hd : nesting w ≤ d) (hMore : Stops [.lt] more)
    (path : List String) (hs : s.ahead = w ++ more) (clear : s.pendingGt = false) :
    ∃ args' t, nameStep r (path, []) s = nameEnd path args' t ∧ t.rest <:+ s.rest ∧
      t.ahead = more ∧ bareArgs args' = bareArgs args := by
  have hStep : nameStep r (path, []) s = (if s.current.kind.isPunct .lt = true then
      typeArgs r >>= nameEnd path else pure [] >>= nameEnd path) s := rfl
  rw [hStep]
  by_cases hw : w = []
  · subst hw
    have hNot : s.current.kind.isPunct .lt = false := by
      rw [← not_comesNext (s := s) (p := .lt) (by rw [hs]; exact hMore) (by decide), clear]
      rfl
    rw [hNot, if_neg Bool.false_ne_true]
    cases hArgs
    exact ⟨[], s, rfl, List.suffix_rfl, hs, rfl⟩
  · obtain ⟨args', t, hRun, hts, ht, hBare⟩ := typeArgs_consumes hr hArgs hw hd s hs
    have hLt : s.current.kind.isPunct .lt = true := by
      cases hArgs with
      | noList => exact absurd rfl hw
      | list hArgs =>
        rw [current_of_ahead hs (by rintro ⟨⟩)]
        rfl
    rw [hLt, if_pos rfl, bind_of_ok hRun]
    exact ⟨args', t, rfl, hts, ht, hBare⟩

theorem loopsTo_nameStep (hr : Rules.ReadsTypes r d) {start path : List String} {args : List TypeRef}
    (h : Spelled (.tail start path args) w) (hd : nesting w ≤ d) (hMore : Stops namePuncts more) :
    LoopsTo (nameStep r) (start, []) (fun s => s.ahead = w ++ more ∧ s.pendingGt = false) more
      fun kind => ∃ args', kind = .named path args' ∧ bareArgs args' = bareArgs args := by
  generalize hφ : Phrase.tail start path args = φ at h
  induction h generalizing start path args with
  | ends list =>
    cases hφ
    refine .last ?_
    rintro s ⟨hs, clear⟩
    obtain ⟨args', t, hStep, hts, ht, hBare⟩ :=
      exists_nameEnd hr list hd (hMore.mono (by decide)) _ hs clear
    refine ⟨_, t, ?_, hts, ht, _, rfl, args', rfl, hBare⟩
    rw [hStep, nameEnd_of_stops]
    rw [ht]
    exact hMore.mono (by decide)
  | member list _ _ ih =>
    cases hφ
    rw [nesting_append, nesting_cons_of_ne rfl, nesting_cons_of_ne rfl] at hd
    refine .round ?_
    rintro s ⟨hs, clear⟩
    rw [List.append_assoc, List.cons_append, List.cons_append] at hs
    obtain ⟨args', m, hStep, hms, hm, _⟩ :=
      exists_nameEnd hr list (by omega) (stops_of_head (by decide)) _ hs clear
    obtain ⟨t, hEnd, htm, hShorter, ht, hClear⟩ := exists_nameEnd_next _ args' hm
    exact ⟨_, t, hStep.trans hEnd, htm.trans hms, Nat.lt_of_lt_of_le hShorter hms.length_le, _,
      ⟨ht, hClear⟩, ih (by omega) rfl⟩
  | _ => cases hφ

theorem stops_tail {start path : List String} {args : List TypeRef}
    (h : Spelled (.tail start path args) w) (hMore : Stops [.colonColon] more) :
    Stops [.colonColon] (w ++ more) := by
  have hList : ∀ {args w more}, Spelled (.argList args) w → Stops [.colonColon] more →
      Stops [.colonColon] (w ++ more) := by
    rintro _ _ _ (_ | _) hMore
    · exact hMore
    · exact stops_of_head (by decide)
  cases h with
  | ends list => exact hList list hMore
  | member list _ =>
    rw [List.append_assoc]
    exact hList list (stops_of_head (by decide))

theorem namedType_consumes (hr : Rules.ReadsTypes r d) {kind : TypeRefKind TypeRef} {span : Span}
    (h : Spelled (.simple ⟨kind, span⟩) w) (hd : nesting w ≤ d) (hMore : Stops namePuncts more)
    (hIdent : (w.headD .eof).isIdent = true) :
    Consumes (namedType r) (·.ahead = w ++ more) more fun kind' =>
      ∀ place place', bare ⟨kind', place⟩ = bare ⟨kind, place'⟩ := by
  have named : ∀ {path : List String} {args args' : List TypeRef}, bareArgs args' = bareArgs args →
      ∀ place place', bare ⟨.named path args', place⟩ = bare ⟨.named path args, place'⟩ := by
    intro path args args' hBare _ _
    simp only [bare, hBare]
  intro s hs
  rw [namedType_eq]
  cases h with
  | predefined => cases hIdent
  | named _ tail =>
    obtain ⟨a, hName, hsa, ha⟩ := exists_expectName_drop hs
    rw [nesting_cons_of_ne rfl] at hd
    have clear := hsa.clear (exists_token hs (by rintro ⟨⟩)).1
    have hColons : accept .colonColon a = .ok false a := by
      refine accept_of_stops ?_ (by decide) clear
      rw [ha]
      exact stops_tail tail (hMore.mono (by decide))
    obtain ⟨_, t, hLoop, hta, ht, args', rfl, hBare⟩ :=
      (loopsTo_nameStep hr tail hd hMore).consumes a ⟨ha, clear⟩
    refine ⟨_, t, ?_, hta.trans hsa.suffix, ht, named hBare⟩
    rw [bind_of_ok hName, bind_of_ok hColons, if_neg Bool.false_ne_true]
    exact hLoop
  | qualified _ tail =>
    obtain ⟨a, hRoot, hsa, ha⟩ := exists_expectName_drop hs
    obtain ⟨b, hColons, hab, hb⟩ := exists_accept_drop ha (by decide)
    obtain ⟨c, hName, hbc, hc⟩ := exists_expectName_drop hb
    rw [nesting_cons_of_ne rfl, nesting_cons_of_ne rfl, nesting_cons_of_ne rfl] at hd
    have clear := hbc.clear (hab.clear (hsa.clear (exists_token hs (by rintro ⟨⟩)).1))
    obtain ⟨_, t, hLoop, htc, ht, args', rfl, hBare⟩ :=
      (loopsTo_nameStep hr tail hd hMore).consumes c ⟨hc, clear⟩
    refine ⟨_, t, ?_, ((htc.trans hbc.suffix).trans hab.suffix).trans hsa.suffix, ht, named hBare⟩
    rw [bind_of_ok hRoot, bind_of_ok hColons, if_pos rfl, bind_of_ok hName]
    exact hLoop

theorem markStep_of_stops (start : Nat) (x : TypeRef) (h : Stops [.question, .star] s.ahead) :
    markStep start x s = .ok (.inr x) s := by
  unfold markStep
  rw [bind_of_ok (p := pendingGt) rfl]
  split
  next => rfl
  next hPending =>
    have clear := Bool.eq_false_iff.mpr hPending
    rw [bind_of_ok (accept_of_stops (h.mono (by decide)) (by decide) clear),
      if_neg Bool.false_ne_true,
      bind_of_ok (accept_of_stops (h.mono (by decide)) (by decide) clear)]
    rfl

theorem exists_markStep_question (start : Nat) (x : TypeRef)
    (hs : s.ahead = .punct .question :: more) :
    ∃ span t, markStep start x s = .ok (.inl ⟨.nullable x, span⟩) t ∧
      s.Drops (.punct .question) t ∧ t.ahead = more := by
  obtain ⟨clear, _⟩ := exists_token hs (by rintro ⟨⟩)
  obtain ⟨t, hAccept, hst, ht⟩ := exists_accept_drop hs (by decide)
  refine ⟨⟨start, t.prevEnd⟩, t, ?_, hst, ht⟩
  unfold markStep
  rw [bind_of_ok (p := pendingGt) rfl, clear, if_neg Bool.false_ne_true, bind_of_ok hAccept]
  rfl

theorem exists_markStep_star (start : Nat) (x : TypeRef) (hs : s.ahead = .punct .star :: more) :
    ∃ span t, markStep start x s = .ok (.inl ⟨.pointer x, span⟩) t ∧ s.Drops (.punct .star) t ∧
      t.ahead = more := by
  obtain ⟨clear, _⟩ := exists_token hs (by rintro ⟨⟩)
  obtain ⟨t, hAccept, hst, ht⟩ := exists_accept_drop hs (by decide)
  have hQuestion : accept .question s = .ok false s := by
    refine accept_of_stops ?_ (by decide) clear
    rw [hs]
    exact stops_of_head (by decide)
  refine ⟨⟨start, t.prevEnd⟩, t, ?_, hst, ht⟩
  unfold markStep
  rw [bind_of_ok (p := pendingGt) rfl, clear, if_neg Bool.false_ne_true, bind_of_ok hQuestion,
    if_neg Bool.false_ne_true, bind_of_ok hAccept]
  rfl

theorem loopsTo_markStep (h : Spelled (.marks x y) w) (hMore : Stops [.question, .star] more)
    (start : Nat) {z : TypeRef} (hz : z.bare = x.bare) :
    LoopsTo (markStep start) z (·.ahead = w ++ more) more (·.bare = y.bare) := by
  generalize hφ : Phrase.marks x y = φ at h
  induction h generalizing x y z with
  | unmarked =>
    cases hφ
    refine .last fun s hs => ?_
    exact ⟨_, s, markStep_of_stops start z (hs ▸ hMore), List.suffix_rfl, hs, z, rfl, hz⟩
  | nullable _ _ ih =>
    cases hφ
    refine .round fun s hs => ?_
    obtain ⟨span, t, hRun, hst, ht⟩ := exists_markStep_question start z hs
    refine ⟨_, t, hRun, hst.suffix, hst.length_lt, (·.ahead = _), ht, ih ?_ rfl⟩
    simp only [bare, hz]
  | pointer _ _ ih =>
    cases hφ
    refine .round fun s hs => ?_
    obtain ⟨span, t, hRun, hst, ht⟩ := exists_markStep_star start z hs
    refine ⟨_, t, hRun, hst.suffix, hst.length_lt, (·.ahead = _), ht, ih ?_ rfl⟩
    simp only [bare, hz]
  | _ => cases hφ

theorem stops_marks (h : Spelled (.marks x y) w) (hMore : Stops namePuncts more) :
    Stops namePuncts (w ++ more) := by
  cases h with
  | unmarked => exact hMore
  | nullable => exact stops_of_head (by decide)
  | pointer => exact stops_of_head (by decide)

theorem typeMarks_consumes (h : Spelled (.marks x y) w) (hMore : Stops [.question, .star] more)
    (start : Nat) (kind : TypeRefKind TypeRef) (hKind : ∀ span, bare ⟨kind, span⟩ = x.bare) :
    Consumes (do typeMarks start ⟨kind, ← spanFrom start⟩) (·.ahead = w ++ more) more
      (·.bare = y.bare) := fun s =>
  (loopsTo_markStep h hMore start (hKind ⟨start, s.prevEnd⟩)).consumes s

theorem nonArrayType_consumes (hr : Rules.ReadsTypes r d) (h : Spelled (.element x) w)
    (hd : nesting w ≤ d) (hMore : Stops elementPuncts more) :
    Consumes (nonArrayType r) (·.ahead = w ++ more) more (·.bare = x.bare) := by
  cases h with
  | @element y _ w v simple marks =>
  intro s hs
  rw [List.append_assoc] at hs
  rw [nesting_append] at hd
  have hStops : Stops namePuncts (v ++ more) := stops_marks marks (hMore.mono (by decide))
  have marked := typeMarks_consumes marks (hMore.mono (by decide)) s.current.span.start
  unfold nonArrayType
  rw [bind_of_ok (p := currentStart) rfl, bind_of_ok (p := currentKind) rfl]
  have named : ∀ {kind : TypeRefKind TypeRef} {span : Span} {name : String},
      Spelled (.simple ⟨kind, span⟩) w → y = ⟨kind, span⟩ → w.headD .eof = .ident name →
      s.current.kind = .ident name → ∃ x' t, (do
        let kind ← if (← currentKind).isIdent then namedType r else failExpected .type
        typeMarks s.current.span.start ⟨kind, ← spanFrom s.current.span.start⟩) s = .ok x' t ∧
        t.rest <:+ s.rest ∧ t.ahead = more ∧ x'.bare = x.bare := by
    rintro kind span name hSimple rfl hHead hCurrent
    obtain ⟨kind', m, hNamed, hms, hm, hBare⟩ :=
      namedType_consumes hr hSimple (by omega) hStops (by rw [hHead]; rfl) s hs
    obtain ⟨x', t, hMarks, htm, ht⟩ := marked kind' (fun place => hBare place span) m hm
    refine ⟨x', t, ?_, htm.trans hms, ht⟩
    rw [bind_of_ok (p := currentKind) rfl, hCurrent]
    exact (bind_of_ok hNamed).trans hMarks
  cases simple with
  | predefined p span =>
    have hKeyword : (TokenKind.keyword p.keyword).predefined? = some p := p.predefined?_keyword
    rw [current_of_ahead hs (by rintro ⟨⟩), hKeyword]
    obtain ⟨_, m, hRun, hsm, hm⟩ := exists_advance_drop hs (by rintro ⟨⟩) rfl
    obtain ⟨x', t, hMarks, htm, ht⟩ := marked (.predefined p) (fun _ => rfl) m hm
    exact ⟨x', t, (bind_of_ok hRun).trans hMarks, htm.trans hsm.suffix, ht⟩
  | named span tail =>
    have hCurrent := current_of_ahead hs (by rintro ⟨⟩)
    rw [hCurrent]
    exact named (.named span tail) rfl rfl hCurrent
  | qualified span tail =>
    have hCurrent := current_of_ahead hs (by rintro ⟨⟩)
    rw [hCurrent]
    exact named (.qualified span tail) rfl rfl hCurrent

theorem isSome_scanRank {ts : List Token} {n : Nat}
    (h : Tokens.halves ts = List.replicate n (.punct .comma) ++ .punct .rBracket :: more) :
    (Tokens.scanRank ts).isSome = true := by
  induction n generalizing ts with
  | zero =>
    obtain ⟨z, rest, rfl, hz, _⟩ := Tokens.exists_cons_of_halves h (by rintro ⟨⟩)
    rw [Tokens.scanRank, hz]
    rfl
  | succ n ih =>
    obtain ⟨z, rest, rfl, hz, hRest⟩ := Tokens.exists_cons_of_halves h (by rintro ⟨⟩)
    rw [Tokens.scanRank, hz]
    exact ih hRest

theorem countCommas_consumes (n : Nat) :
    Consumes countCommas
      (·.ahead = List.replicate n (.punct .comma) ++ .punct .rBracket :: more)
      (.punct .rBracket :: more) (· = n) := by
  have repeated : ∀ n m, LoopsTo (fun n => do
        if ← accept .comma then return .inl (n + 1) else return .inr n) m
      (·.ahead = List.replicate n (.punct .comma) ++ .punct .rBracket :: more)
      (.punct .rBracket :: more) (· = m + n) := by
    intro n
    induction n with
    | zero =>
      intro m
      refine .last fun s hs => ⟨.inr m, s, ?_, List.suffix_rfl, hs, m, rfl, rfl⟩
      have hComma : accept .comma s = .ok false s := by
        refine accept_of_stops ?_ (by decide) (exists_token hs (by rintro ⟨⟩)).1
        rw [hs]
        exact stops_of_head (by decide)
      rw [bind_of_ok hComma]
      rfl
    | succ n ih =>
      intro m
      refine .round fun s hs => ?_
      obtain ⟨t, hAccept, hst, ht⟩ := exists_accept_drop hs (by decide)
      refine ⟨m + 1, t, ?_, hst.suffix, hst.length_lt, (·.ahead = _), ht, ?_⟩
      · rw [bind_of_ok hAccept]
        rfl
      · rw [Nat.add_comm n, ← Nat.add_assoc]
        exact ih (m + 1)
  have h := (repeated n 0).consumes
  rw [Nat.zero_add] at h
  exact h

theorem rankStep_of_stops (ranks : List Nat) (h : Stops [.lBracket] s.ahead) :
    rankStep ranks s = .ok (.inr ranks) s := by
  have hNot : (!s.pendingGt && (Tokens.scanRankSpecifier s.rest).isSome) = false := by
    cases hPending : s.pendingGt with
    | true => rfl
    | false =>
      have hBracket := not_comesNext h (by decide)
      rw [hPending, Bool.not_false, Bool.true_and, ParseState.current] at hBracket
      cases hRest : s.rest with
      | nil => rfl
      | cons z ts =>
        rw [hRest, List.headD_cons] at hBracket
        rw [Tokens.scanRankSpecifier, hBracket]
        rfl
  unfold rankStep
  rw [bind_of_ok (p := pendingGt) rfl, bind_of_ok (p := remaining) rfl, hNot,
    if_neg Bool.false_ne_true]
  rfl

theorem exists_rankStep_next {n : Nat} (hn : 0 < n) (ranks : List Nat)
    (hs : s.ahead = rankMarks n ++ more) :
    ∃ t, rankStep ranks s = .ok (.inl (ranks ++ [n])) t ∧ t.rest <:+ s.rest ∧
      t.rest.length < s.rest.length ∧ t.ahead = more := by
  rw [rankMarks, List.cons_append, List.append_assoc, List.cons_append, List.nil_append] at hs
  obtain ⟨clear, z, ts, hRest, hz, hts⟩ := exists_token hs (by rintro ⟨⟩)
  have hScan : (Tokens.scanRankSpecifier s.rest).isSome = true := by
    rw [hRest, Tokens.scanRankSpecifier, hz]
    exact isSome_scanRank hts
  obtain ⟨z', a, hAdvance, hsa, ha⟩ := exists_advance_drop hs (by rintro ⟨⟩) rfl
  obtain ⟨_, b, hCommas, hba, hb, rfl⟩ := countCommas_consumes (n - 1) a ha
  obtain ⟨t, hExpect, hbt, ht⟩ := exists_expect_drop hb (by decide)
  refine ⟨t, ?_, (hbt.suffix.trans hba).trans hsa.suffix, ?_, ht⟩
  · unfold rankStep
    rw [bind_of_ok (p := pendingGt) rfl, bind_of_ok (p := remaining) rfl, clear, hScan,
      Bool.not_false, Bool.true_and, if_pos rfl, bind_of_ok hAdvance, bind_of_ok hCommas,
      bind_of_ok hExpect, Nat.sub_add_cancel hn]
    rfl
  · exact Nat.lt_of_le_of_lt (hbt.suffix.trans hba).length_le hsa.length_lt

theorem rankSpecifiers_consumes {ranks : List Nat} (positive : ∀ n ∈ ranks, 0 < n)
    (hMore : Stops [.lBracket] more) :
    Consumes rankSpecifiers (·.ahead = ranks.flatMap rankMarks ++ more) more (· = ranks) := by
  have repeated : ∀ found, LoopsTo rankStep found (·.ahead = ranks.flatMap rankMarks ++ more) more
      (· = found ++ ranks) := by
    induction ranks with
    | nil =>
      intro found
      refine .last fun s hs => ?_
      exact ⟨_, s, rankStep_of_stops found (hs ▸ hMore), List.suffix_rfl, hs, found, rfl,
        (List.append_nil found).symm⟩
    | cons n ranks ih =>
      intro found
      refine .round fun s hs => ?_
      rw [List.flatMap_cons, List.append_assoc] at hs
      obtain ⟨t, hRun, hts, hShorter, ht⟩ :=
        exists_rankStep_next (positive n List.mem_cons_self) found hs
      refine ⟨_, t, hRun, hts, hShorter, (·.ahead = _), ht, ?_⟩
      have h := ih (fun m hm => positive m (List.mem_cons_of_mem n hm)) (found ++ [n])
      rwa [List.append_assoc, List.singleton_append] at h
  exact (repeated []).consumes

/-! ## Types -/

theorem type_consumes_of_element (hr : Rules.ReadsTypes r d) (h : Spelled (.element x) w)
    (hd : nesting w ≤ d) (hMore : Stops typePuncts more) :
    Consumes (Parse.type r) (·.ahead = w ++ more) more (·.bare = x.bare) := by
  intro s hs
  obtain ⟨x', a, hElement, has, ha, hBare⟩ :=
    nonArrayType_consumes hr h hd (hMore.mono (by decide)) s hs
  have noRank : ∀ n ∈ ([] : List Nat), 0 < n := by simp
  obtain ⟨_, t, hRanks, hta, ht, rfl⟩ :=
    rankSpecifiers_consumes noRank (hMore.mono (by decide)) a ha
  refine ⟨x', t, ?_, hta.trans has, ht, hBare⟩
  unfold Parse.type
  rw [bind_of_ok (p := currentStart) rfl, bind_of_ok hElement, bind_of_ok hRanks]
  rfl

/-- Behind an array type: the `?` that makes it nullable, if it is there. -/
def arrayEnd (start : Nat) (array : TypeRef) : Parse TypeRef := do
  if ← pendingGt then return array
  else if ← accept .question then return ⟨.nullable array, ← spanFrom start⟩
  else return array

theorem exists_type_of_ranks (hr : Rules.ReadsTypes r d) (h : Spelled (.element x) w)
    {ranks : List Nat} (hRanks : ranks ≠ []) (positive : ∀ n ∈ ranks, 0 < n) (hd : nesting w ≤ d)
    (hMore : Stops [.lBracket] more) (hs : s.ahead = w ++ (ranks.flatMap rankMarks ++ more)) :
    ∃ x' span t, Parse.type r s = arrayEnd s.current.span.start ⟨.array x' ranks, span⟩ t ∧
      t.rest <:+ s.rest ∧ t.ahead = more ∧ x'.bare = x.bare := by
  have hStops : Stops elementPuncts (ranks.flatMap rankMarks ++ more) := by
    cases ranks with
    | nil => exact absurd rfl hRanks
    | cons n ranks => exact stops_of_head (by decide)
  obtain ⟨x', a, hElement, has, ha, hBare⟩ := nonArrayType_consumes hr h hd hStops s hs
  obtain ⟨_, t, hRun, hta, ht, rfl⟩ := rankSpecifiers_consumes positive hMore a ha
  refine ⟨x', ⟨s.current.span.start, t.prevEnd⟩, t, ?_, hta.trans has, ht, hBare⟩
  unfold Parse.type
  rw [bind_of_ok (p := currentStart) rfl, bind_of_ok hElement, bind_of_ok hRun,
    if_neg (by rwa [List.isEmpty_iff])]
  rfl

theorem nesting_ranks (ranks : List Nat) : nesting (ranks.flatMap rankMarks) = 0 := by
  rw [nesting, List.countP_eq_zero]
  intro k hk
  obtain ⟨n, _, hk⟩ := List.mem_flatMap.mp hk
  simp only [rankMarks, List.mem_cons, List.mem_append, List.mem_replicate, List.not_mem_nil,
    or_false] at hk
  rcases hk with rfl | ⟨_, rfl⟩ | rfl <;> decide

theorem type_consumes_of (hr : Rules.ReadsTypes r d) (h : Spelled (.type x) w) (hd : nesting w ≤ d)
    (hMore : Stops typePuncts more) :
    Consumes (Parse.type r) (·.ahead = w ++ more) more (·.bare = x.bare) := by
  cases h with
  | plain hElement => exact type_consumes_of_element hr hElement hd hMore
  | @array x ranks _ span hElement some positive =>
    intro s hs
    rw [nesting_append, nesting_ranks] at hd
    rw [List.append_assoc] at hs
    obtain ⟨x', place, t, hRun, hts, ht, hBare⟩ :=
      exists_type_of_ranks hr hElement some positive hd (hMore.mono (by decide)) hs
    refine ⟨⟨.array x' ranks, place⟩, t, ?_, hts, ht, by simp only [bare, hBare]⟩
    rw [hRun]
    unfold arrayEnd
    rw [bind_of_ok (p := pendingGt) rfl]
    split
    next => rfl
    next hPending =>
      have hQuestion : Stops [.question] t.ahead := by rw [ht]; exact hMore.mono (by decide)
      rw [bind_of_ok (accept_of_stops hQuestion (by decide) (Bool.eq_false_iff.mpr hPending))]
      rfl
  | @nullableArray x ranks _ inner span hElement some positive =>
    intro s hs
    rw [nesting_append, nesting_append, nesting_ranks] at hd
    rw [List.append_assoc, List.append_assoc] at hs
    obtain ⟨x', place, a, hRun, has, ha, hBare⟩ :=
      exists_type_of_ranks hr hElement some positive (by omega) (stops_of_head (by decide)) hs
    obtain ⟨clear, _⟩ := exists_token ha (by rintro ⟨⟩)
    obtain ⟨t, hAccept, hat, ht⟩ := exists_accept_drop ha (by decide)
    refine ⟨⟨.nullable ⟨.array x' ranks, place⟩, ⟨s.current.span.start, t.prevEnd⟩⟩, t, ?_,
      hat.suffix.trans has, ht, by simp only [bare, hBare]⟩
    rw [hRun]
    unfold arrayEnd
    rw [bind_of_ok (p := pendingGt) rfl, clear, if_neg Bool.false_ne_true, bind_of_ok hAccept]
    rfl

theorem readsTypes_depth (n : Nat) : Rules.ReadsTypes (Rules.depth n) n := by
  induction n with
  | zero =>
    intro x w more _ hd
    exact absurd hd (Nat.not_lt_zero _)
  | succ n ih =>
    intro x w more hx hd hMore
    exact type_consumes_of ih hx (Nat.le_of_lt_succ hd) hMore

/-- Tokens that spell a type are read as that type, if what follows does not go on with it. -/
theorem type_consumes (hx : Spelled (.type x) w) (hd : nesting w ≤ d)
    (hMore : Stops typePuncts more) :
    Consumes (Parse.type (Rules.depth d)) (·.ahead = w ++ more) more (·.bare = x.bare) :=
  type_consumes_of (readsTypes_depth d) hx hd hMore

end Parse

end Stackable
