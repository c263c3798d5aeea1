import Stackable.Proofs.Parser.Angles
import Stackable.Proofs.Types.Acceptance

/-!
# Where a scan commits the parser

Three rules read a type because a scan has found one, and two read type arguments for the same
reason; none of them turns back. The scan passes over tokens that may stand in a type and does not
look at their order, so what it promises is kept exactly where the tokens spell a type.
-/

set_option autoImplicit false

namespace Stackable

namespace Tokens

theorem halves_eq_nil {ts : List Token} (h : halves ts = []) : ts = [] := by
  cases ts with
  | nil => rfl
  | cons x ts =>
    rw [halves_cons] at h
    by_cases hx : x.kind = .punct .gtGt
    · rw [hx] at h
      cases h
    · rw [TokenKind.halves_of_ne hx] at h
      cases h

theorem nesting_halves_le (ts : List Token) : Parse.nesting (halves ts) ≤ ts.length := by
  induction ts with
  | nil => exact Nat.le_refl 0
  | cons x ts ih =>
    rw [halves_cons, Parse.nesting_append, List.length_cons, Nat.add_comm]
    refine Nat.add_le_add ih ?_
    by_cases hx : x.kind = .punct .gtGt
    · rw [hx]
      exact Nat.zero_le 1
    · rw [TokenKind.halves_of_ne hx]
      exact List.countP_le_length

/-- A mark that begins no token with two halves is the first mark ahead as it is the first token. -/
theorem headD_halves {ts : List Token} (h : (kind ts).isPunct .gtGt = false) :
    (halves ts).headD .eof = kind ts := by
  cases ts with
  | nil => rfl
  | cons x ts =>
    have hx : x.kind ≠ .punct .gtGt := by
      intro hx
      rw [kind, hx] at h
      cases h
    rw [halves_cons, TokenKind.halves_of_ne hx]
    rfl

/-- Two ends of one list with the same marks are one. -/
theorem eq_of_halves {whole xs ys : List Token} (hxs : xs <:+ whole) (hys : ys <:+ whole)
    (h : halves xs = halves ys) : xs = ys := by
  rcases List.suffix_or_suffix_of_suffix hxs hys with ⟨front, rfl⟩ | ⟨front, rfl⟩
  · rw [halves_append] at h
    rw [halves_eq_nil (List.self_eq_append_left.mp h), List.nil_append]
  · rw [halves_append] at h
    rw [halves_eq_nil (List.append_left_eq_self.mp h), List.nil_append]

end Tokens

namespace ParseState

variable {s t : ParseState} {read rest : List Token} {φ : Phrase}

theorem Spells.of_halves (h : s.Spells t φ) (clear : s.pendingGt = false)
    (hClear : t.pendingGt = false) :
    ∃ read, s.rest = read ++ t.rest ∧ φ.Spelled (Tokens.halves read) := by
  obtain ⟨⟨read, hRead⟩, w, hw, _, hAhead⟩ := h
  refine ⟨read, hRead.symm, ?_⟩
  have hMarks := hAhead clear
  rw [ahead_of_clear clear, ahead_of_clear hClear, ← hRead, Tokens.halves_append,
    List.append_cancel_right_eq] at hMarks
  rw [hMarks]
  exact hw

/-- Where no `>` comes next, the marks ahead tell the tokens ahead. -/
theorem rest_of_ahead (hst : t.rest <:+ s.rest) (hRest : rest <:+ s.rest)
    (h : t.ahead = Tokens.halves rest) (hGt : (Tokens.kind rest).isPunct .gt = false)
    (hGtGt : (Tokens.kind rest).isPunct .gtGt = false) : t.rest = rest ∧ t.pendingGt = false := by
  cases hPending : t.pendingGt with
  | true =>
    rw [ahead, if_pos hPending] at h
    rw [← Tokens.headD_halves hGtGt, ← h] at hGt
    cases hGt
  | false =>
    rw [ahead_of_clear hPending] at h
    exact ⟨Tokens.eq_of_halves hst hRest h, rfl⟩

end ParseState

namespace Tokens

variable {ts rest : List Token}

/-- A rule reads a type here because a scan has found its end. -/
def commitsToType (ts : List Token) : Bool :=
  startsLocalDecl ts || startsCast ts || startsOutVariable ts

theorem kind_of_commitsToType (hScan : scanType ts = some rest) (h : commitsToType ts = true) :
    (kind rest).isIdent = true ∨ kind rest = .punct .rParen := by
  simp only [commitsToType, startsLocalDecl, startsCast, startsOutVariable, hScan, Bool.or_eq_true,
    Bool.and_eq_true] at h
  rcases h with (⟨hIdent, _⟩ | ⟨hParen, _⟩) | ⟨hIdent, _⟩
  · exact .inl hIdent
  · exact .inr (Parse.kind_of_isPunct hParen)
  · exact .inl hIdent

theorem kind_of_startsGenericArgs (hScan : scanTypeArgs 1 (ts.drop 1) = some rest)
    (h : startsGenericArgs ts = true) :
    kind rest = .punct .lParen ∨ kind rest = .punct .dot := by
  simp only [startsGenericArgs, hScan, Bool.and_eq_true, Bool.or_eq_true] at h
  exact h.2.imp Parse.kind_of_isPunct Parse.kind_of_isPunct

end Tokens

namespace Parse

open ParseState Tokens
open Phrase (Spelled)

variable {α : Type} {n : Nat} {s : ParseState} {rest : List Token}

theorem stops_of_kind {ps : List Punct} (hGtGt : (kind rest).isPunct .gtGt = false)
    (h : ∀ p ∈ ps, (kind rest).isPunct p = false) : Stops ps (halves rest) := by
  intro p hp
  rw [headD_halves hGtGt]
  exact h p hp

theorem isPunct_of_isIdent {k : TokenKind} (h : k.isIdent = true) (p : Punct) :
    k.isPunct p = false := by
  cases k with
  | ident => rfl
  | _ => cases h

/-- Tokens of given kinds. -/
def unplaced (ks : List TokenKind) : List Token := ks.map (⟨·, ⟨0, 0⟩⟩)

/-- A rule whose phrase ends in front of `rest` stops there exactly if the tokens spell it. -/
theorem stops_at_iff {p : Parse α} {φ : α → Phrase}
    (sound : ∀ {a t}, p s = .ok a t → s.Spells t (φ a))
    (complete : ∀ {a w}, (φ a).Spelled w → s.ahead = w ++ halves rest →
      ∃ b t, p s = .ok b t ∧ t.rest <:+ s.rest ∧ t.ahead = halves rest)
    (clear : s.pendingGt = false) (hGt : (kind rest).isPunct .gt = false)
    (hGtGt : (kind rest).isPunct .gtGt = false) :
    (∃ a t, p s = .ok a t ∧ t.rest = rest ∧ t.pendingGt = false) ↔
      ∃ a read, s.rest = read ++ rest ∧ (φ a).Spelled (halves read) := by
  constructor
  · rintro ⟨a, t, hRun, rfl, hClear⟩
    obtain ⟨read, hRead, hSpelled⟩ := (sound hRun).of_halves clear hClear
    exact ⟨a, read, hRead, hSpelled⟩
  · rintro ⟨a, read, hRead, hSpelled⟩
    obtain ⟨b, t, hRun, hts, ht⟩ :=
      complete hSpelled (by rw [ahead_of_clear clear, hRead, halves_append])
    have hRest : rest <:+ s.rest := hRead ▸ List.suffix_append read rest
    exact ⟨b, t, hRun, rest_of_ahead hts hRest ht hGt hGtGt⟩

theorem nesting_le_of_ahead {w : List TokenKind} (hn : s.rest.length ≤ n)
    (clear : s.pendingGt = false) (hs : s.ahead = w ++ halves rest) : nesting w ≤ n := by
  rw [ahead_of_clear clear] at hs
  have hSplit := congrArg nesting hs
  rw [nesting_append] at hSplit
  have := nesting_halves_le s.rest
  omega

/-- The rule for types stops at a name or at `)` exactly if the tokens in front of it spell a type. -/
theorem type_stops_at_iff (hn : s.rest.length ≤ n) (clear : s.pendingGt = false)
    (hRest : (kind rest).isIdent = true ∨ kind rest = .punct .rParen) :
    (∃ x t, Parse.type (Rules.depth n) s = .ok x t ∧ t.rest = rest ∧ t.pendingGt = false) ↔
      ∃ x read, s.rest = read ++ rest ∧ Spelled (.type x) (halves read) := by
  have hPunct : ∀ p, p ≠ .rParen → (kind rest).isPunct p = false := by
    intro p hp
    rcases hRest with hIdent | hParen
    · exact isPunct_of_isIdent hIdent p
    · rw [hParen, TokenKind.isPunct, beq_eq_false_iff_ne]
      exact hp.symm
  refine stops_at_iff type_spells ?_ clear (hPunct .gt (by decide)) (hPunct .gtGt (by decide))
  intro x w hSpelled hs
  have hStops : Stops typePuncts (halves rest) := by
    refine stops_of_kind (hPunct .gtGt (by decide)) fun p hp => hPunct p ?_
    rintro rfl
    exact absurd hp (by decide)
  obtain ⟨x', t, hRun, hts, ht, _⟩ :=
    type_consumes hSpelled (nesting_le_of_ahead hn clear hs) hStops s hs
  exact ⟨x', t, hRun, hts, ht⟩

/-- From `<`, the rule for type arguments stops at `(` or at `.` exactly if the tokens in front of it
spell type arguments. -/
theorem typeArgs_stops_at_iff (hn : s.rest.length ≤ n) (clear : s.pendingGt = false)
    (hOpen : kind s.rest = .punct .lt) (hRest : kind rest = .punct .lParen ∨ kind rest = .punct .dot) :
    (∃ args t, typeArgs (Rules.depth n) s = .ok args t ∧ t.rest = rest ∧ t.pendingGt = false) ↔
      ∃ args read, s.rest = read ++ rest ∧ Spelled (.argList args) (halves read) := by
  have hPunct : ∀ p, p ≠ .lParen → p ≠ .dot → (kind rest).isPunct p = false := by
    intro p hParen hDot
    rcases hRest with hKind | hKind
    · rw [hKind, TokenKind.isPunct, beq_eq_false_iff_ne]
      exact hParen.symm
    · rw [hKind, TokenKind.isPunct, beq_eq_false_iff_ne]
      exact hDot.symm
  have hGtGt := hPunct .gtGt (by decide) (by decide)
  refine stops_at_iff (typeArgs_spells (rulesType_spells n)) ?_ clear
    (hPunct .gt (by decide) (by decide)) hGtGt
  intro args w hSpelled hs
  -- An empty list of tokens spells no arguments, but here the list begins with `<`.
  have hw : w ≠ [] := by
    rintro rfl
    have hHead := congrArg (List.headD · .eof) hs
    rw [ahead_of_clear clear, List.nil_append, headD_halves hGtGt,
      headD_halves (by rw [hOpen]; rfl), hOpen] at hHead
    have hLt := hPunct .lt (by decide) (by decide)
    rw [← hHead] at hLt
    cases hLt
  obtain ⟨args', t, hRun, hts, ht, _⟩ := typeArgs_consumes (readsTypes_depth n) hSpelled hw
    (nesting_le_of_ahead hn clear hs) s hs
  exact ⟨args', t, hRun, hts, ht⟩

/-- What a scan promises is kept exactly where the tokens that it passes over spell a type, or a
list of type arguments. -/
theorem commitment_kept_iff_spelled (hn : s.rest.length ≤ n) (clear : s.pendingGt = false) :
    (commitsToType s.rest = true → scanType s.rest = some rest →
      ((∃ x t, Parse.type (Rules.depth n) s = .ok x t ∧ t.rest = rest ∧ t.pendingGt = false) ↔
        ∃ x read, s.rest = read ++ rest ∧ Spelled (.type x) (halves read))) ∧
    (startsGenericArgs s.rest = true → scanTypeArgs 1 (s.rest.drop 1) = some rest →
      ((∃ args t, typeArgs (Rules.depth n) s = .ok args t ∧ t.rest = rest ∧ t.pendingGt = false) ↔
        ∃ args read, s.rest = read ++ rest ∧ Spelled (.argList args) (halves read))) := by
  constructor
  · intro hCommits hScan
    exact type_stops_at_iff hn clear (kind_of_commitsToType hScan hCommits)
  · intro hCommits hScan
    refine typeArgs_stops_at_iff hn clear ?_ (kind_of_startsGenericArgs hScan hCommits)
    rw [startsGenericArgs, Bool.and_eq_true] at hCommits
    exact kind_of_isPunct hCommits.1

/-- `int x;` and `<int>(`, without their places. -/
theorem commitment_kept_at_int :
    (∃ x t, Parse.type (Rules.depth 3)
        (.ofTokens (unplaced [.keyword .intKw, .ident "x", .punct .semi])) = .ok x t ∧
      t.rest = unplaced [.ident "x", .punct .semi] ∧ t.pendingGt = false) ∧
    (∃ args t, typeArgs (Rules.depth 4)
        (.ofTokens (unplaced [.punct .lt, .keyword .intKw, .punct .gt, .punct .lParen])) = .ok args t ∧
      t.rest = unplaced [.punct .lParen] ∧ t.pendingGt = false) := by
  have hInt : Spelled (.type ⟨.predefined .int, ⟨0, 0⟩⟩) [.keyword .intKw] :=
    .plain (.element (.predefined .int ⟨0, 0⟩) (.unmarked _))
  constructor
  · have hScan : scanType (unplaced [.keyword .intKw, .ident "x", .punct .semi]) =
        some (unplaced [.ident "x", .punct .semi]) := by
      have hKeyword : (TokenKind.keyword .intKw).isPredefined = true := rfl
      simp [unplaced, scanType, scanTypeMarks, hKeyword]
    exact ((commitment_kept_iff_spelled (n := 3) (by decide) rfl).1 (by decide +kernel) hScan).mpr
      ⟨_, unplaced [.keyword .intKw], rfl, hInt⟩
  · have hScan : scanTypeArgs 1 (unplaced [.keyword .intKw, .punct .gt, .punct .lParen]) =
        some (unplaced [.punct .lParen]) := rfl
    exact ((commitment_kept_iff_spelled (n := 4) (s := .ofTokens (unplaced
      [.punct .lt, .keyword .intKw, .punct .gt, .punct .lParen])) (by decide) rfl).2
        (by decide +kernel) hScan).mpr
      ⟨_, unplaced [.punct .lt, .keyword .intKw, .punct .gt], rfl, .list (.lastArg hInt)⟩

/-- How many tokens a rule leaves, if it succeeds. -/
def leaves? (p : Parse α) (s : ParseState) : Option Nat :=
  match p s with
  | .ok _ t => some t.rest.length
  | .error _ _ => none

/-- In `int[]?[] x;` the scan sees a type and a name, and the rule for types stops at the second `[`.
In `<b[i], c>(d)` it sees type arguments where two comparisons stand. -/
theorem exists_commitment_broken :
    (commitsToType (stateOf "int[]?[] x;").rest = true ∧
      (scanType (stateOf "int[]?[] x;").rest).map (·.length) = some 3 ∧
      leaves? (Parse.type (Rules.depth 9)) (stateOf "int[]?[] x;") = some 5) ∧
    (startsGenericArgs (stateOf "<b[i], c>(d)").rest = true ∧
      (scanTypeArgs 1 ((stateOf "<b[i], c>(d)").rest.drop 1)).map (·.length) = some 4 ∧
      leaves? (typeArgs (Rules.depth 12)) (stateOf "<b[i], c>(d)") = none) := by
  decide +kernel

end Parse

end Stackable
