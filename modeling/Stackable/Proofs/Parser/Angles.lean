import Stackable.Proofs.Parser.Decl

/-!
# The angle brackets of a type

A `>>` behind a type argument closes two lists. The first half is read with the mark, and a flag
remembers the second one. What is still open, less the half that is remembered, is the same before
and after every rule for types; so a type that starts without a half to spare leaves one behind
exactly if its tokens close one list more than they open.
-/

set_option autoImplicit false

namespace Stackable

namespace Tokens

/-- Lists of type arguments that tokens open. -/
def opened (ts : List Token) : Nat := ts.countP (·.kind.isPunct .lt)

/-- Lists of type arguments that tokens close. -/
def closed (ts : List Token) : Nat :=
  ts.countP (·.kind.isPunct .gt) + 2 * ts.countP (·.kind.isPunct .gtGt)

def surplus (ts : List Token) : Int := opened ts - closed ts

theorem surplus_append (front back : List Token) :
    surplus (front ++ back) = surplus front + surplus back := by
  simp only [surplus, opened, closed, List.countP_append]
  omega

end Tokens

/-- Lists that a mark opens, less those that it closes. -/
def TokenKind.angle : TokenKind → Int
  | .punct .lt => 1
  | .punct .gt => -1
  | .punct .gtGt => -2
  | _ => 0

theorem TokenKind.angle_eq (k : TokenKind) :
    k.angle = (if k.isPunct .lt then 1 else 0) - (if k.isPunct .gt then 1 else 0) -
      2 * if k.isPunct .gtGt then 1 else 0 := by
  cases k with
  | punct p => cases p <;> rfl
  | _ => rfl

theorem Tokens.surplus_cons (x : Token) (ts : List Token) :
    surplus (x :: ts) = x.kind.angle + surplus ts := by
  simp only [surplus, opened, closed, List.countP_cons, x.kind.angle_eq]
  split <;> split <;> split <;> omega

/-- What the remaining tokens leave open; half of a `>>` that is still to be read closes one. -/
def ParseState.angles (s : ParseState) : Int :=
  Tokens.surplus s.rest - if s.pendingGt then 1 else 0

namespace Parse

variable {α β : Type} {s : ParseState}

/-- A result leaves as much open as there was. -/
def Level (p : Parse α) : Prop := ∀ s, Ends p s fun _ t => t.angles = s.angles

theorem Level.pure {a : α} : Level (pure a) := fun _ => .pure rfl

theorem Level.bind {p : Parse α} {f : α → Parse β} (hp : Level p) (hf : ∀ a, Level (f a)) :
    Level (p >>= f) := by
  intro s
  apply (hp s).bind
  intro a t ht
  apply (hf a t).mono
  intro _ u hu
  exact hu.trans ht

theorem Level.ite {c : Prop} [Decidable c] {p q : Parse α} (hp : Level p) (hq : Level q) :
    Level (if c then p else q) := by
  split
  · exact hp
  · exact hq

theorem Level.join {c : Prop} [Decidable c] {p q : Parse α} {k : α → Parse β} (hp : Level p)
    (hq : Level q) (hk : ∀ a, Level (k a)) : Level (if c then p >>= k else q >>= k) :=
  .ite (hp.bind hk) (hq.bind hk)

theorem Level.loop {body : α → Parse (α ⊕ β)} {a : α} (step : ∀ a, Level (body a)) :
    Level (loop body a) := by
  intro s
  apply loop_ends (fun _ t => t.angles = s.angles) rfl
  intro a t ht
  apply (step a t).mono
  rintro (next | result) u hu
  · exact hu.trans ht
  · exact hu.trans ht

/-- What is read off the state leaves it as it is. -/
theorem Level.read {p : Parse α} (h : ∀ s, ∃ a, p s = .ok a s) : Level p := by
  intro s
  obtain ⟨a, hRun⟩ := h s
  exact (ends_of_ok hRun).mpr ⟨.refl s, rfl⟩

theorem failExpected_level (what : Expected) : Level (failExpected what : Parse α) :=
  fun _ => failExpected_ends what

theorem advance_angles (s : ParseState) : Ends advance s fun _ t =>
    t.angles = s.angles - s.current.kind.angle ∧ t.pendingGt = s.pendingGt := by
  rcases advance_cases s with ⟨hEof, hRun⟩ | ⟨x, l, hRest, _, hRun⟩
  · refine (ends_of_ok hRun).mpr ⟨((ends_of_ok hRun).mp (advance_ends s)).1, ?_, rfl⟩
    cases hk : s.current.kind <;> simp_all [TokenKind.angle, TokenKind.isEof]
  · refine (ends_of_ok hRun).mpr ⟨((ends_of_ok hRun).mp (advance_ends s)).1, ?_, rfl⟩
    simp only [ParseState.angles, ParseState.current, hRest, List.headD_cons, Tokens.surplus_cons]
    omega

theorem angle_of_isPunct {k : TokenKind} {p : Punct} (h : k.isPunct p = true) :
    k.angle = (TokenKind.punct p).angle := by
  cases k with
  | punct q =>
    obtain rfl : q = p := by simpa [TokenKind.isPunct] using h
    rfl
  | _ => cases h

theorem accept_angles (p : Punct) (s : ParseState) : Ends (accept p) s fun b t =>
    t.angles = s.angles - (if b then (TokenKind.punct p).angle else 0) ∧
      t.pendingGt = s.pendingGt := by
  unfold accept
  rw [ends_check]
  apply Ends.ite
  · intro h
    apply (advance_angles s).bind
    rintro _ t ⟨hAngles, hPending⟩
    rw [angle_of_isPunct h] at hAngles
    exact .pure ⟨hAngles, hPending⟩
  · intro _
    exact .pure ⟨by simp, rfl⟩

theorem expect_angles (p : Punct) (s : ParseState) :
    Ends (expect p) s fun _ t => t.angles = s.angles - (TokenKind.punct p).angle := by
  unfold expect
  apply (accept_angles p s).bind
  rintro b t ⟨hAngles, _⟩
  apply Ends.ite
  · intro hb
    rw [hb] at hAngles
    exact .pure hAngles
  · intro _
    exact failExpected_ends _

theorem accept_level {p : Punct} (h : (TokenKind.punct p).angle = 0) : Level (accept p) := by
  intro s
  apply (accept_angles p s).mono
  rintro b t ⟨hAngles, _⟩
  rw [hAngles, h]
  simp

theorem expect_level {p : Punct} (h : (TokenKind.punct p).angle = 0) : Level (expect p) := by
  intro s
  apply (expect_angles p s).mono
  intro _ t hAngles
  rw [hAngles, h]
  simp

/-- Reading a token that is no angle bracket, and what follows it. -/
theorem advance_bind_level {f : Token → Parse β} (h : s.current.kind.angle = 0)
    (hf : ∀ x, Level (f x)) : Ends (advance >>= f) s fun _ t => t.angles = s.angles := by
  apply (advance_angles s).bind
  rintro x t ⟨hAngles, _⟩
  rw [h, Int.sub_zero] at hAngles
  apply (hf x t).mono
  intro _ u hu
  exact hu.trans hAngles

theorem expectName_level : Level expectName := by
  intro s
  unfold expectName
  rw [ends_currentKind]
  split
  · rename_i name h
    apply advance_bind_level
    · rw [h]
      rfl
    · intro _
      exact .pure
  · exact failExpected_ends _

theorem setPendingGt_angles (b : Bool) (s : ParseState) : Ends (setPendingGt b) s fun _ t =>
    t.angles = s.angles + (if s.pendingGt then 1 else 0) - (if b then 1 else 0) := by
  have hEnds := setPendingGt_ends b s
  refine ⟨hEnds.1, ?_⟩
  simp only [ParseState.angles]
  omega

/-- A list is closed by a `>`, by half of a `>>`, or by the other half. -/
theorem expectClosingAngle_angles (s : ParseState) :
    Ends expectClosingAngle s fun _ t => t.angles = s.angles + 1 := by
  unfold expectClosingAngle
  rw [ends_pendingGt]
  apply Ends.ite
  · intro hs
    apply (setPendingGt_angles false s).mono
    intro _ t ht
    simpa [hs] using ht
  intro hs
  apply (accept_angles .gt s).bind
  rintro b t ⟨ht, hPending⟩
  apply Ends.ite
  · intro hb
    rw [hb] at ht
    exact .pure (by simpa [TokenKind.angle] using ht)
  intro hb
  apply (accept_angles .gtGt t).bind
  rintro b' u ⟨hu, hPending'⟩
  apply Ends.ite
  · -- The mark closes two lists and the flag takes one of them back.
    intro hb'
    apply (setPendingGt_angles true u).mono
    intro _ v hv
    rw [hPending', hPending] at hv
    simp only [hb, hb', hs, TokenKind.angle] at ht hu hv
    simp at ht hu hv
    omega
  · intro _
    exact failExpected_ends _

theorem countCommas_level : Level countCommas :=
  .loop fun _ => (accept_level rfl).bind fun _ => .ite .pure .pure

theorem typeArgs_level {r : Rules} (hr : Level r.type) : Level (typeArgs r) := by
  intro s
  unfold typeArgs
  apply (expect_angles .lt s).bind
  intro _ t ht
  have items : ∀ args : List TypeRef, Level (do
      let args := args ++ [← r.type]
      if ← pendingGt then return .inr args
      else if ← accept .comma then return .inl args
      else return (.inr args : List TypeRef ⊕ List TypeRef)) := by
    intro args
    apply hr.bind
    intro x
    apply (Level.read fun _ => ⟨_, rfl⟩ : Level pendingGt).bind
    intro b
    exact .ite .pure ((accept_level rfl).bind fun _ => .ite .pure .pure)
  apply (Level.loop items t).bind
  intro args u hu
  apply (expectClosingAngle_angles u).bind
  intro _ v hv
  apply Ends.pure
  simp only [TokenKind.angle] at ht
  omega

theorem namedType_level {r : Rules} (hr : Level r.type) : Level (namedType r) := by
  apply expectName_level.bind
  intro first
  apply (accept_level rfl).bind
  intro b
  apply Level.join expectName_level .pure
  intro first
  apply Level.loop
  rintro ⟨path, args⟩ s
  rw [ends_check]
  apply Ends.join (P := fun _ t => t.angles = s.angles)
  · intro _
    exact typeArgs_level hr s
  · intro _
    exact .pure rfl
  intro args t ht
  simp only [ends_pendingGt, ends_check, ends_peekKind]
  apply Ends.ite
  · intro h
    simp only [Bool.and_eq_true] at h
    apply (advance_bind_level (angle_of_isPunct h.1.2) fun _ =>
      expectName_level.bind fun _ => .pure).mono
    intro _ u hu
    exact hu.trans ht
  · intro _
    exact .pure ht

theorem typeMarks_level (start : Nat) (type : TypeRef) : Level (typeMarks start type) := by
  apply Level.loop
  intro type
  have marked : ∀ kind : TypeRefKind TypeRef, Level (do
      return (.inl ⟨kind, ← spanFrom start⟩ : TypeRef ⊕ TypeRef)) := fun kind =>
    (Level.read fun _ => ⟨_, rfl⟩ : Level (spanFrom start)).bind fun _ => .pure
  apply (Level.read fun _ => ⟨_, rfl⟩ : Level pendingGt).bind
  intro b
  apply Level.ite .pure
  apply (accept_level rfl).bind
  intro b
  apply Level.ite (marked _)
  apply (accept_level rfl).bind
  intro b
  exact .ite (marked _) .pure

theorem angle_of_predefined? {k : TokenKind} {p : PredefinedType} (h : k.predefined? = some p) :
    k.angle = 0 := by
  cases k with
  | punct p => cases h
  | _ => rfl

theorem nonArrayType_level {r : Rules} (hr : Level r.type) : Level (nonArrayType r) := by
  intro s
  unfold nonArrayType
  simp only [ends_currentStart, ends_currentKind]
  have rest : ∀ kind, Level (do
      typeMarks s.current.span.start ⟨kind, ← spanFrom s.current.span.start⟩) := fun kind =>
    (Level.read fun _ => ⟨_, rfl⟩ : Level (spanFrom _)).bind fun _ => typeMarks_level _ _
  split
  · rename_i p h
    exact advance_bind_level (angle_of_predefined? h) fun _ => Level.pure.bind rest
  · simp only [ends_currentKind]
    apply Ends.ite
    · intro _
      exact (namedType_level hr).bind rest s
    · intro _
      exact (failExpected_level _).bind rest s

theorem angle_of_scanRankSpecifier {s : ParseState}
    (h : (Tokens.scanRankSpecifier s.rest).isSome = true) : s.current.kind.angle = 0 := by
  unfold ParseState.current
  cases hRest : s.rest with
  | nil => rfl
  | cons x xs =>
    rw [hRest, Tokens.scanRankSpecifier] at h
    split at h
    · rename_i hx
      exact angle_of_isPunct hx
    · cases h

theorem rankSpecifiers_level : Level rankSpecifiers := by
  apply Level.loop
  intro ranks s
  simp only [ends_pendingGt, ends_remaining]
  apply Ends.ite
  · intro h
    simp only [Bool.and_eq_true] at h
    apply advance_bind_level (angle_of_scanRankSpecifier h.2)
    intro _
    apply countCommas_level.bind
    intro commas
    exact (expect_level rfl).bind fun _ => .pure
  · intro _
    exact .pure rfl

theorem type_level {r : Rules} (hr : Level r.type) : Level (type r) := by
  apply (Level.read fun _ => ⟨_, rfl⟩ : Level currentStart).bind
  intro start
  have span : Level (spanFrom start) := .read fun _ => ⟨_, rfl⟩
  apply (nonArrayType_level hr).bind
  intro element
  apply rankSpecifiers_level.bind
  intro ranks
  apply Level.ite .pure
  apply span.bind
  intro _
  apply (Level.read fun _ => ⟨_, rfl⟩ : Level pendingGt).bind
  intro b
  apply Level.ite .pure
  apply (accept_level rfl).bind
  intro b
  exact .ite (span.bind fun _ => .pure) .pure

theorem type_depth_level (n : Nat) : Level (Rules.depth n).type := by
  induction n with
  | zero =>
    intro s
    exact ParseState.LeadsTo.refl s
  | succ n ih => exact type_level ih

end Parse

open Parse

/-- Where a type starts with no half of a `>>` to spare, its tokens close as many lists as they
open, and then none is left to spare, or one more, and then one is. -/
theorem pendingGt_iff_unbalanced (n : Nat) (s t : ParseState) (x : TypeRef)
    (clear : s.pendingGt = false) (run : Parse.type (Rules.depth n) s = .ok x t) :
    ∃ read, s.rest = read ++ t.rest ∧
      (t.pendingGt = false ↔ Tokens.closed read = Tokens.opened read) ∧
      (t.pendingGt = true ↔ Tokens.closed read = Tokens.opened read + 1) := by
  have level := type_level (type_depth_level n) s
  unfold Ends at level
  rw [run] at level
  obtain ⟨lead, hAngles⟩ := level
  obtain ⟨read, hRead, _⟩ := lead.read
  refine ⟨read, hRead, ?_⟩
  simp only [ParseState.angles, hRead, Tokens.surplus_append, clear] at hAngles
  unfold Tokens.surplus at hAngles
  cases ht : t.pendingGt with
  | false =>
    simp only [ht, Bool.false_eq_true, if_false] at hAngles
    constructor <;> simp <;> omega
  | true =>
    simp only [ht, Bool.false_eq_true, if_false, if_true] at hAngles
    constructor <;> simp <;> omega

/-- The tokens of a text, none of them read. -/
def stateOf (text : String) : ParseState := .ofTokens (Lexer.tokenize text.toList).tokens

/-- Whether the type in front of a text leaves half of a `>>` to spare. -/
def leavesHalf? (text : String) : Option Bool :=
  match Parse.type (Rules.depth 9) (stateOf text) with
  | .ok _ t => some t.pendingGt
  | .error _ _ => none

theorem leavesHalf?_eq_some (text : String) {b : Bool} (h : leavesHalf? text = some b) :
    ∃ x t, Parse.type (Rules.depth 9) (stateOf text) = .ok x t ∧ t.pendingGt = b := by
  unfold leavesHalf? at h
  split at h
  · rename_i x t hRun
    exact ⟨x, t, hRun, Option.some.inj h⟩
  · cases h

theorem pendingGt_clear_behind_nested : ∃ x t, (stateOf "A<B<int>> x").pendingGt = false ∧
    Parse.type (Rules.depth 9) (stateOf "A<B<int>> x") = .ok x t ∧ t.pendingGt = false ∧
    ∃ read, (stateOf "A<B<int>> x").rest = read ++ t.rest ∧
      Tokens.closed read = Tokens.opened read := by
  obtain ⟨x, t, hRun, ht⟩ := leavesHalf?_eq_some "A<B<int>> x" (b := false)
    (by decide +kernel)
  obtain ⟨read, hRead, hBalanced, _⟩ := pendingGt_iff_unbalanced 9 _ t x rfl hRun
  exact ⟨x, t, rfl, hRun, ht, read, hRead, hBalanced.mp ht⟩

/-- A field whose type closes one list too many leaves half of its `>>` to the type of the next
field, which lacks a `>`, and both are read without an error. -/
theorem exists_type_leaving_pendingGt :
    (∃ x t, (stateOf "List<int>> x;").pendingGt = false ∧
      Parse.type (Rules.depth 9) (stateOf "List<int>> x;") = .ok x t ∧ t.pendingGt = true) ∧
    (parseSource "class C{List<int>> x;List<int y;}".toList).2 = [] := by
  obtain ⟨x, t, hRun, ht⟩ := leavesHalf?_eq_some "List<int>> x;" (b := true)
    (by decide +kernel)
  exact ⟨⟨x, t, rfl, hRun, ht⟩, by decide +kernel⟩

end Stackable
