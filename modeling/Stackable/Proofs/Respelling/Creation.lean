import Stackable.Proofs.Parser.Numbering
import Stackable.Proofs.Respelling.Expr

/-!
# The initial value that the word creates

A run of the grammar that gives an array creation of one dimension as an initial value has read
nothing but the creation: the `new`, an element type, one pair of brackets and perhaps elements in
braces. Behind the word a creation on the stack is read in the same steps. So the rule for initial
values follows itself also where the word is respelled, if it finds such a creation.
-/

set_option autoImplicit false

namespace Stackable

open ParseState Parse

namespace Parse

variable {α β : Type} {s t u : ParseState}

/-- A repetition that adds to its list, at least `d` items at a time, ends with so many more. -/
theorem length_le_of_iterate {body : List α → Parse (List α ⊕ List α)} {d : Nat}
    (step : ∀ l s r t, body l s = .ok r t →
      l.length + d ≤ (Sum.elim (fun l => l) (fun l => l) r).length) {n : Nat} {l out : List α}
    (h : iterate body n l s = .ok out u) : l.length + d ≤ out.length := by
  induction n generalizing l s with
  | zero => cases h
  | succ n ih =>
    rcases iterate_succ_eq_ok.mp h with ⟨next, t, hBody, hRest⟩ | hBody
    · have hNext := step l s _ t hBody
      have hOut := ih hRest
      simp only [Sum.elim_inl] at hNext
      omega
    · exact step l s _ u hBody

theorem commaSeparated_singleton {item : Parse α} {x : α}
    (h : commaSeparated item s = .ok [x] t) :
    item s = .ok x t ∧ t.current.kind.isPunct .comma = false := by
  have step : ∀ l s r t, (do
      let items := l ++ [← item]
      if ← accept .comma then return .inl items else return .inr items : Parse (List α ⊕ List α)) s =
        .ok r t → l.length + 1 ≤ (Sum.elim (fun l => l) (fun l => l) r).length := by
    intro l s r t hBody
    obtain ⟨y, v, _, hBody⟩ := bind_eq_ok.mp hBody
    obtain ⟨b, w, _, hBody⟩ := bind_eq_ok.mp hBody
    cases b <;> cases hBody <;> simp
  unfold commaSeparated at h
  rw [loop, remaining_bind_eq_ok] at h
  rcases iterate_succ_eq_ok.mp h with ⟨next, v, hBody, hRest⟩ | hBody
  · -- a comma was read, and with it a second item
    have hNext := step [] s _ v hBody
    have hOut := length_le_of_iterate step hRest
    simp only [Sum.elim_inl, List.length_nil, List.length_singleton] at hNext hOut
    omega
  · obtain ⟨y, v, hItem, hBody⟩ := bind_eq_ok.mp hBody
    obtain ⟨b, w, hAccept, hBody⟩ := bind_eq_ok.mp hBody
    obtain ⟨hb, hSame⟩ := accept_eq_ok hAccept
    cases b with
    | true => cases hBody
    | false =>
      cases hBody
      obtain rfl := hSame rfl
      exact ⟨hItem, hb.symm⟩

theorem ranksStep_cases {r : Rules} {l : List (RankSpecifier Expr)}
    {out : List (RankSpecifier Expr) ⊕ List (RankSpecifier Expr)}
    (h : (do
      if ← check .lBracket then return .inl (l ++ [← sizedRank r]) else return .inr l :
        Parse (List (RankSpecifier Expr) ⊕ List (RankSpecifier Expr))) s = .ok out t) :
    (∃ rank, sizedRank r s = .ok rank t ∧ out = .inl (l ++ [rank])) ∨ (out = .inr l ∧ t = s) := by
  rw [check_bind_eq_ok] at h
  split at h
  · obtain ⟨rank, v, hRank, h⟩ := bind_eq_ok.mp h
    cases h
    exact .inl ⟨rank, hRank, rfl⟩
  · cases h
    exact .inr ⟨rfl, rfl⟩

theorem sizedRanks_singleton {r : Rules} {rank : RankSpecifier Expr}
    (h : sizedRanks r s = .ok [rank] t) : sizedRank r s = .ok rank t := by
  unfold sizedRanks at h
  rw [loop, remaining_bind_eq_ok] at h
  rcases iterate_succ_eq_ok.mp h with ⟨next, v, hBody, hRest⟩ | hBody
  · rcases ranksStep_cases hBody with ⟨first, hFirst, hNext⟩ | ⟨hNext, _⟩
    · cases hNext
      cases hLength : s.rest.length with
      | zero =>
        rw [hLength] at hRest
        cases hRest
      | succ n =>
        rw [hLength] at hRest
        rcases iterate_succ_eq_ok.mp hRest with ⟨more, w, hBody, hRest⟩ | hBody
        · rcases ranksStep_cases hBody with ⟨second, _, hMore⟩ | ⟨hMore, _⟩
          · cases hMore
            have hOut := length_le_of_iterate (d := 0) (fun l s out t hBody => by
              rcases ranksStep_cases hBody with ⟨_, _, rfl⟩ | ⟨rfl, _⟩ <;> simp) hRest
            simp at hOut
          · cases hMore
        · rcases ranksStep_cases hBody with ⟨second, _, hMore⟩ | ⟨hMore, rfl⟩
          · cases hMore
          · cases hMore
            exact hFirst
    · cases hNext
  · rcases ranksStep_cases hBody with ⟨first, _, hNext⟩ | ⟨hNext, _⟩
    · cases hNext
    · cases hNext

variable {r : Rules} {start : Nat} {e : Expr}

/-- One size or none, without a comma behind it. -/
theorem sizedRank_singleton {size : Option Expr} {span : Span}
    (h : sizedRank r s = .ok ⟨[size], span⟩ t) :
    ∃ v w, expect .lBracket s = .ok () v ∧
      (if v.current.kind.isPunct .rBracket then pure none else some <$> r.expr : Parse (Option Expr))
        v = .ok size w ∧ expect .rBracket w = .ok () t := by
  unfold sizedRank at h
  rw [currentStart_bind_eq_ok] at h
  obtain ⟨_, v, hOpen, h⟩ := bind_eq_ok.mp h
  obtain ⟨sizes, w, hSizes, h⟩ := bind_eq_ok.mp h
  obtain ⟨_, x, hClose, h⟩ := bind_eq_ok.mp h
  obtain ⟨_, _, hSpan, h⟩ := bind_eq_ok.mp h
  cases hSpan
  cases h
  obtain ⟨hItem, hComma⟩ := commaSeparated_singleton hSizes
  refine ⟨v, w, hOpen, ?_, hClose⟩
  rw [check_bind_eq_ok, check_bind_eq_ok] at hItem
  split at hItem
  next hEmpty =>
    cases hItem
    rw [hComma, Bool.false_or] at hEmpty
    rw [if_pos hEmpty]
    rfl
  next hFilled =>
    rw [Bool.or_eq_true, not_or] at hFilled
    rw [if_neg hFilled.2, map_eq_ok]
    obtain ⟨x, _, hExpr, hItem⟩ := bind_eq_ok.mp hItem
    cases hItem
    exact ⟨x, hExpr, rfl⟩

theorem arrayCreation_eq_ok {element : TypeRef} (h : arrayCreation r start element s = .ok e t) :
    ∃ ranks init v w, sizedRanks r s = .ok ranks v ∧ optionalInitializer r v = .ok init w ∧
      finishExpr start (.arrayCreation element ranks init) w = .ok e t := by
  unfold arrayCreation at h
  obtain ⟨ranks, v, hRanks, h⟩ := bind_eq_ok.mp h
  obtain ⟨init, w, hInit, h⟩ := bind_eq_ok.mp h
  split at h
  · rw [currentKind_bind_eq_ok] at h
    obtain ⟨_, _, _, h⟩ := bind_eq_ok.mp h
    cases h
  · exact ⟨ranks, init, v, w, hRanks, hInit, h⟩

/-- A `new` that creates an array is followed by a type and brackets. -/
theorem newExpr_eq_ok {element : TypeRef} {ranks : List (RankSpecifier Expr)}
    {init : Option (List Expr)} (hKind : e.kind = .arrayCreation element ranks init)
    (h : newExpr r start s = .ok e t) :
    ∃ v w, expectWord .newKw s = .ok () v ∧ v.current.kind.isPunct .lBracket = false ∧
      nonArrayType r v = .ok element w ∧ arrayCreation r start element w = .ok e t := by
  unfold newExpr at h
  obtain ⟨_, v, hNew, h⟩ := bind_eq_ok.mp h
  rw [check_bind_eq_ok] at h
  split at h
  · unfold implicitArrayCreation at h
    obtain ⟨_, _, _, h⟩ := bind_eq_ok.mp h
    obtain ⟨_, _, _, h⟩ := bind_eq_ok.mp h
    obtain ⟨_, _, _, h⟩ := bind_eq_ok.mp h
    obtain ⟨_, _, _, h⟩ := bind_eq_ok.mp h
    cases hKind.symm.trans (kind_of_finishExpr h)
  next hBracket =>
    rw [check_bind_eq_ok] at h
    split at h
    · obtain ⟨_, _, _, h⟩ := bind_eq_ok.mp h
      obtain ⟨_, _, _, h⟩ := bind_eq_ok.mp h
      cases hKind.symm.trans (kind_of_finishExpr h)
    · obtain ⟨type, w, hType, h⟩ := bind_eq_ok.mp h
      rw [check_bind_eq_ok] at h
      split at h
      · obtain ⟨_, _, _, _, _, _, hFinish⟩ := arrayCreation_eq_ok h
        cases hKind.symm.trans (kind_of_finishExpr hFinish)
        exact ⟨v, w, hNew, Bool.eq_false_iff.mpr hBracket, hType, h⟩
      · unfold objectCreation at h
        rw [check_bind_eq_ok] at h
        split at h
        all_goals
          obtain ⟨_, _, _, h⟩ := bind_eq_ok.mp h
          obtain ⟨_, _, _, h⟩ := bind_eq_ok.mp h
          split at h
          · cases h
          · cases hKind.symm.trans (kind_of_finishExpr h)

/-- Behind the word, what creates an array of one dimension creates one on the stack. -/
theorem stackAllocTail_of_newExpr {element : TypeRef} {size : Option Expr} {span : Span}
    {init : Option (List Expr)}
    (hKind : e.kind = .arrayCreation element [⟨[size], span⟩] init)
    (h : newExpr r start s = .ok e t) :
    ∃ v, expectWord .newKw s = .ok () v ∧ e.span.start = start ∧
      RespelledText.stackAllocTail r start v =
        .ok ⟨e.id, .stackAlloc (some element) size init, e.span⟩ t := by
  obtain ⟨v, w, hNew, hBracket, hType, hCreation⟩ := newExpr_eq_ok hKind h
  obtain ⟨ranks, init', x, y, hRanks, hInit, hFinish⟩ := arrayCreation_eq_ok hCreation
  cases hKind.symm.trans (kind_of_finishExpr hFinish)
  obtain ⟨rfl, rfl⟩ := finishExpr_eq_ok.mp hFinish
  obtain ⟨v', w', hOpen, hSize, hClose⟩ := sizedRank_singleton (sizedRanks_singleton hRanks)
  refine ⟨v, hNew, rfl, ?_⟩
  unfold RespelledText.stackAllocTail
  rw [check_bind_eq_ok, if_neg (Bool.eq_false_iff.mp hBracket), bind_eq_ok]
  refine ⟨some element, w, map_eq_ok.mpr ⟨element, hType, rfl⟩, ?_⟩
  refine bind_eq_ok.mpr ⟨(), v', hOpen, ?_⟩
  rw [check_bind_eq_ok]
  have hRest : (expect .rBracket >>= fun _ => optionalInitializer r >>= fun init =>
      finishExpr start (.stackAlloc (some element) size init)) w' =
        .ok ⟨y.nextId, .stackAlloc (some element) size init, ⟨start, y.prevEnd⟩⟩
          { y with nextId := y.nextId + 1 } :=
    bind_eq_ok.mpr ⟨(), x, hClose, bind_eq_ok.mpr ⟨init, y, hInit, rfl⟩⟩
  split at hSize
  next hEmpty =>
    rw [if_pos hEmpty, bind_eq_ok]
    exact ⟨size, w', hSize, hRest⟩
  next hFilled =>
    rw [if_neg hFilled, bind_eq_ok]
    exact ⟨size, w', hSize, hRest⟩

/-- The rule gives no array creation. -/
def GivesOther (p : Parse Expr) : Prop :=
  ∀ s e t, p s = .ok e t → ∀ element ranks init, e.kind ≠ .arrayCreation element ranks init

theorem GivesOther.bind {p : Parse α} {f : α → Parse Expr} (h : ∀ a, GivesOther (f a)) :
    GivesOther (p >>= f) := by
  intro s e t hRun
  obtain ⟨a, u, _, hf⟩ := bind_eq_ok.mp hRun
  exact h a u e t hf

theorem GivesOther.ite {cond : Prop} [Decidable cond] {p q : Parse Expr} (yes : GivesOther p)
    (no : GivesOther q) : GivesOther (if cond then p else q) := by
  split
  · exact yes
  · exact no

theorem finishExpr_other {kind : ExprKind Expr}
    (h : ∀ element ranks init, kind ≠ .arrayCreation element ranks init) :
    GivesOther (finishExpr start kind) := by
  intro s e t hRun
  rw [kind_of_finishExpr hRun]
  exact h

theorem leaf_other {kind : ExprKind Expr}
    (h : ∀ element ranks init, kind ≠ .arrayCreation element ranks init) :
    GivesOther (leaf start kind) :=
  .bind fun _ => finishExpr_other h

theorem postfixExpr_other (lhs : Expr) : GivesOther (postfixExpr r start lhs) := by
  refine .bind fun k => ?_
  split
  · exact .bind fun _ => finishExpr_other (by simp)
  · exact .bind fun _ => .bind fun _ => .bind fun _ => finishExpr_other (by simp)
  · exact leaf_other (by simp)
  · exact leaf_other (by simp)
  · refine .bind fun _ => .bind fun _ => .bind fun _ => .bind fun _ => ?_
    exact .ite (.bind fun _ => finishExpr_other (by simp)) (finishExpr_other (by simp))

theorem typeTest_other (lhs : Expr) : GivesOther (typeTest r start lhs) := by
  refine .bind fun b => .ite (.bind fun _ => finishExpr_other (by simp)) ?_
  have tested : ∀ negated, GivesOther (do
      if ← checkWord .nullKw then nullTest start lhs negated
      else
        let t ← type r
        let name ← designation
        finishExpr start (.isType lhs t name)) := by
    intro negated
    refine .bind fun _ => .ite ?_ (.bind fun _ => .bind fun _ => finishExpr_other (by simp))
    exact .bind fun _ => .bind fun _ => finishExpr_other (by simp)
  refine .bind fun _ => .bind fun _ => .bind fun _ => .ite ?_ (tested _)
  exact .bind fun _ => tested _

theorem conditionalExpr_other (cond : Expr) : GivesOther (conditionalExpr r start cond) :=
  .bind fun _ => .bind fun _ => .bind fun _ => .bind fun _ => finishExpr_other (by simp)

/-- Nothing that continues an operand. -/
def TokenKind.EndsOperand (k : TokenKind) : Prop :=
  k.isPostfix = false ∧ (k.isKeyword .isKw || k.isKeyword .asKw) = false ∧
    k.isPunct .question = false ∧ k.binary? = none

theorem extend_eq_ok {lhs : Expr} {out : Expr ⊕ Expr} (h : extend r start 0 lhs s = .ok out t) :
    (∃ x, out = .inl x ∧ ∀ element ranks init, x.kind ≠ .arrayCreation element ranks init) ∨
      (out = .inr lhs ∧ t = s ∧ TokenKind.EndsOperand s.current.kind) := by
  have extended : ∀ {p : Parse Expr}, GivesOther p → (Sum.inl <$> p : Parse (Expr ⊕ Expr)) s =
      .ok out t → ∃ x, out = .inl x ∧
        ∀ element ranks init, x.kind ≠ .arrayCreation element ranks init := by
    intro p hp hRun
    obtain ⟨x, hx, rfl⟩ := map_eq_ok.mp hRun
    exact ⟨x, rfl, hp s x t hx⟩
  unfold extend at h
  rw [currentKind_bind_eq_ok] at h
  split at h
  · rw [if_neg (Nat.not_lt_zero _), bind_pure_comp] at h
    exact .inl (extended (postfixExpr_other lhs) h)
  next hPostfix =>
    split at h
    · rw [if_neg (Nat.not_lt_zero _), bind_pure_comp] at h
      exact .inl (extended (typeTest_other lhs) h)
    next hTest =>
      split at h
      · rw [if_neg (Nat.not_lt_zero _), bind_pure_comp] at h
        exact .inl (extended (conditionalExpr_other lhs) h)
      next hQuestion =>
        cases hBinary : s.current.kind.binary? with
        | some found =>
          obtain ⟨op, left, right⟩ := found
          simp only [hBinary, Nat.not_lt_zero, if_false] at h
          obtain ⟨_, _, _, h⟩ := bind_eq_ok.mp h
          obtain ⟨rhs, _, _, h⟩ := bind_eq_ok.mp h
          obtain ⟨x, _, hx, h⟩ := bind_eq_ok.mp h
          cases h
          exact .inl ⟨x, rfl, finishExpr_other (by simp) _ _ _ hx⟩
        | none =>
          simp only [hBinary] at h
          cases h
          exact .inr ⟨rfl, rfl, Bool.eq_false_iff.mpr hPostfix, Bool.eq_false_iff.mpr hTest,
            Bool.eq_false_iff.mpr hQuestion, hBinary⟩

theorem extend_of_endsOperand (lhs : Expr) (h : TokenKind.EndsOperand s.current.kind) :
    extend r start 0 lhs s = .ok (.inr lhs) s := by
  obtain ⟨hPostfix, hTest, hQuestion, hBinary⟩ := h
  unfold extend
  rw [currentKind_bind_eq_ok]
  simp only [hPostfix, hTest, hQuestion, hBinary, Bool.false_eq_true, if_false]
  rfl

theorem iterate_extend_eq_ok {n : Nat} {lhs : Expr} {element : TypeRef}
    {ranks : List (RankSpecifier Expr)} {init : Option (List Expr)}
    (hKind : e.kind = .arrayCreation element ranks init)
    (h : iterate (extend r start 0) n lhs s = .ok e t) :
    e = lhs ∧ t = s ∧ TokenKind.EndsOperand s.current.kind := by
  induction n generalizing lhs s with
  | zero => cases h
  | succ n ih =>
    rcases iterate_succ_eq_ok.mp h with ⟨next, u, hBody, hRest⟩ | hBody
    · rcases extend_eq_ok hBody with ⟨x, hx, hOther⟩ | ⟨hx, _⟩
      · cases hx
        obtain ⟨rfl, _⟩ := ih hRest
        exact absurd hKind (hOther _ _ _)
      · cases hx
    · rcases extend_eq_ok hBody with ⟨x, hx, _⟩ | ⟨hx, rfl, hEnds⟩
      · cases hx
      · cases hx
        exact ⟨rfl, rfl, hEnds⟩

theorem failExpected_other (what : Expected) : GivesOther (failExpected what) := by
  intro s e t h
  cases h

theorem keywordExpr_other {w : Keyword} (h : w ≠ .newKw) :
    GivesOther (keywordExpr r start w) := by
  unfold keywordExpr
  split
  · exact leaf_other (by simp)
  · split
    · exact leaf_other (by simp)
    · exact leaf_other (by simp)
    · exact leaf_other (by simp)
    · exact absurd rfl h
    · refine .bind fun _ => .bind fun _ => .ite ?_ ?_
      all_goals
        refine .bind fun _ => .bind fun _ => .bind fun _ => .ite ?_ ?_
        all_goals exact .bind fun _ => .bind fun _ => .bind fun _ => finishExpr_other (by simp)
    · exact .bind fun _ => .bind fun _ => finishExpr_other (by simp)
    · exact .bind fun _ => .bind fun _ => finishExpr_other (by simp)
    · refine .bind fun _ => .bind fun _ => .bind fun _ => .ite ?_ (finishExpr_other (by simp))
      exact .bind fun _ => finishExpr_other (by simp)
    · exact failExpected_other _

theorem operand_eq_ok {element : TypeRef} {ranks : List (RankSpecifier Expr)}
    {init : Option (List Expr)} (hKind : e.kind = .arrayCreation element ranks init)
    (h : operand r s = .ok e t) :
    s.current.kind = .keyword .newKw ∧ newExpr r s.current.span.start s = .ok e t := by
  have other : ∀ {p : Parse Expr}, GivesOther p → p s = .ok e t → False :=
    fun hp hRun => hp s e t hRun _ _ _ hKind
  unfold operand at h
  rw [currentStart_bind_eq_ok, currentKind_bind_eq_ok] at h
  generalize s.current.kind = k at h ⊢
  split at h
  next => exact (other (leaf_other (by simp)) h).elim
  next => exact (other (leaf_other (by simp)) h).elim
  next => exact (other (leaf_other (by simp)) h).elim
  next => exact (other (leaf_other (by simp)) h).elim
  next => exact (other (leaf_other (by simp)) h).elim
  next name _ =>
    refine (other (.bind fun _ => .ite ?_ ?_) h).elim
    · exact .bind fun _ => .bind fun _ => finishExpr_other (by simp)
    · refine .bind fun _ => .bind fun _ => .ite ?_ (finishExpr_other (by simp))
      exact .bind fun _ => finishExpr_other (by simp)
  next w =>
    by_cases hw : w = .newKw
    · subst hw
      exact ⟨rfl, h⟩
    · exact (other (keywordExpr_other hw) h).elim
  next =>
    refine (other (.bind fun _ => .ite ?_ ?_) h).elim
    · exact .bind fun _ => .bind fun _ => .bind fun _ => .bind fun _ => finishExpr_other (by simp)
    · exact .bind fun _ => .bind fun _ => .bind fun _ => finishExpr_other (by simp)
  next =>
    refine (other ?_ h).elim
    split
    · exact .bind fun _ => .bind fun _ => finishExpr_other (by simp)
    · exact failExpected_other _
  next => exact (other (failExpected_other _) h).elim

/-- An array creation as an initial value is read as an operand with nothing behind it. -/
theorem varInitializer_eq_ok {element : TypeRef} {ranks : List (RankSpecifier Expr)}
    {init : Option (List Expr)} (hKind : e.kind = .arrayCreation element ranks init)
    (h : varInitializer r s = .ok e t) :
    s.current.kind = .keyword .newKw ∧ newExpr r s.current.span.start s = .ok e t ∧
      TokenKind.EndsOperand t.current.kind ∧ t.current.kind.assign? = none := by
  unfold varInitializer at h
  rw [check_bind_eq_ok] at h
  split at h
  · rw [currentStart_bind_eq_ok] at h
    obtain ⟨_, _, _, h⟩ := bind_eq_ok.mp h
    cases hKind.symm.trans (kind_of_finishExpr h)
  · unfold expr at h
    rw [currentStart_bind_eq_ok] at h
    obtain ⟨target, u, hTarget, h⟩ := bind_eq_ok.mp h
    rw [currentKind_bind_eq_ok] at h
    cases hAssign : u.current.kind.assign? with
    | some op =>
      simp only [hAssign] at h
      obtain ⟨_, _, _, h⟩ := bind_eq_ok.mp h
      obtain ⟨_, _, _, h⟩ := bind_eq_ok.mp h
      cases hKind.symm.trans (kind_of_finishExpr h)
    | none =>
      simp only [hAssign] at h
      cases h
      unfold exprAbove at hTarget
      rw [currentStart_bind_eq_ok] at hTarget
      obtain ⟨lhs, v, hLhs, hLoop⟩ := bind_eq_ok.mp hTarget
      rw [loop, remaining_bind_eq_ok] at hLoop
      obtain ⟨rfl, rfl, hEnds⟩ := iterate_extend_eq_ok hKind hLoop
      obtain ⟨hNew, hRun⟩ := operand_eq_ok hKind hLhs
      exact ⟨hNew, hRun, hEnds, hAssign⟩

theorem varInitializer_of_operand (hBrace : s.current.kind.isPunct .lBrace = false)
    (h : operand r s = .ok e t) (hEnds : TokenKind.EndsOperand t.current.kind)
    (hAssign : t.current.kind.assign? = none) : varInitializer r s = .ok e t := by
  unfold varInitializer
  rw [check_bind_eq_ok, if_neg (Bool.eq_false_iff.mp hBrace)]
  unfold expr
  rw [currentStart_bind_eq_ok, bind_eq_ok]
  refine ⟨e, t, ?_, ?_⟩
  · unfold exprAbove
    rw [currentStart_bind_eq_ok, bind_eq_ok]
    refine ⟨e, t, h, ?_⟩
    rw [loop, remaining_bind_eq_ok, iterate_succ_eq_ok]
    exact .inr (extend_of_endsOperand e hEnds)
  · rw [currentKind_bind_eq_ok]
    simp only [hAssign]
    rfl

end Parse

/-! ## Where the word creates the initial value -/

namespace RespelledText

variable {c : RespelledText} {r : Rules} {s t : ParseState}

theorem endsOperand_token (x : Token) (h : TokenKind.EndsOperand x.kind) :
    TokenKind.EndsOperand (c.token x).kind := by
  unfold TokenKind.EndsOperand
  rw [c.isPostfix_token, c.isKeyword_token _ (by decide) (by decide),
    c.isKeyword_token _ (by decide) (by decide), c.isPunct_token, c.binary?_token]
  exact h

theorem expr_created {e : Expr} {element : TypeRef} {size : Option Expr} {span : Span}
    {init : Option (List Expr)} (hStart : e.span.start = c.word)
    (hKind : e.kind = .arrayCreation element [⟨[size], span⟩] init) :
    c.expr e = c.expr ⟨e.id, .stackAlloc (some element) size init, e.span⟩ := by
  obtain ⟨id, kind, span'⟩ := e
  subst hKind
  change span'.start = c.word at hStart
  simp [Respelling.expr, Respelling.exprKind, Respelling.rankSpecifier, Respelling.creation, hStart]

/-- What an array creation consists of is read behind its first token. -/
theorem start_ne_of_newExpr (hr : r.Orderly) (hs : s.rest <:+ c.tokens) {e : Expr} {start : Nat}
    {element : TypeRef} {ranks : List (RankSpecifier Expr)} {init : Option (List Expr)}
    (hKind : e.kind = .arrayCreation element ranks init) (h : newExpr r start s = .ok e t)
    (hWord : s.current.span.start = c.word) :
    ∀ n ∈ (Node.expr e).descendants, n.span.start ≠ c.word := by
  obtain ⟨v, w, hNew, _, hType, hCreation⟩ := newExpr_eq_ok hKind h
  obtain ⟨ranks', init', x, y, hRanks, hInit, hFinish⟩ := arrayCreation_eq_ok hCreation
  cases hKind.symm.trans (kind_of_finishExpr hFinish)
  obtain ⟨hLead, takes⟩ := (ends_of_ok hNew).mp (expectWord_ends .newKw s)
  obtain ⟨hLeadType, passes⟩ := (ends_of_ok hType).mp (nonArrayType_ends hr v)
  obtain ⟨_, yields⟩ := (ends_of_ok hRanks).mp (sizedRanks_ends hr w)
  obtain ⟨_, yieldsInit⟩ := (ends_of_ok hInit).mp (optionalInitializer_ends hr x)
  have laid := (yields.append yieldsInit).laid
  rw [← List.map_append] at laid
  intro n hn hStart
  have hn : n ∈ ((ExprKind.arrayCreation element ranks init).operands.map Node.expr).flatMap
      Node.descend := by
    rw [← hKind]
    exact (Node.expr e).descendants_eq ▸ hn
  obtain ⟨start, rest, place, hSuffix, _⟩ := laid.placed n hn
  obtain ⟨read, first, last, hRead, _, hFirst, _, hSpan⟩ := place.span
  have hLater : start.rest.length < s.rest.length := Nat.lt_of_le_of_lt
    (Nat.le_trans hSuffix.length_le hLeadType.length_le) takes.moves
  have hTokens : start.rest <:+ c.tokens :=
    ((hSuffix.trans hLeadType.suffix).trans hLead.suffix).trans hs
  cases read with
  | nil => cases hFirst
  | cons z l =>
    cases hFirst
    rw [hRead, List.cons_append] at hLater hTokens
    have hLeft := left_of_word hs hWord (Nat.zero_lt_of_lt hLater)
    rw [hSpan] at hStart
    have hHere := (c.position _ _ hTokens).mp hStart
    rw [List.length_cons] at hLater
    omega

theorem operand_of_stackAlloc {e : Expr} (h : s.current.kind = .keyword .stackallocKw) :
    operand r s = .ok e t ↔ stackAlloc r s.current.span.start s = .ok e t := by
  unfold operand
  rw [currentStart_bind_eq_ok, currentKind_bind_eq_ok, h]
  rfl

theorem varInitializer_word (hr : r.Tracked c) (hs : s.rest <:+ c.tokens) (fits : c.Fits) {e : Expr}
    {mark : Span} (h : varInitializer r s = .ok e t) (hSame : t.errors = s.errors)
    (hCreates : c.Creates ⟨mark, e⟩) :
    varInitializer r (c.state s) = .ok (c.expr e) (c.state t) := by
  obtain ⟨hInitial, element, size, span, init, hKind⟩ := hCreates
  obtain rfl : e = c.created := congrArg Initializer.value hInitial
  obtain ⟨hNew, hRun, hEnds, hAssign⟩ := varInitializer_eq_ok hKind h
  obtain ⟨u, hWord, hSpan, hTail⟩ := stackAllocTail_of_newExpr hKind hRun
  obtain ⟨_, x, hAdvance⟩ := expectWord_inv hWord
  have hStart : s.current.span.start = c.word := hSpan.symm
  have hStackKind : (c.state s).current.kind = .keyword .stackallocKw := by
    rw [c.current_state, Respelling.token, Respelling.kind, hNew, if_pos ⟨hStart, rfl⟩]
  obtain ⟨hLead, takes⟩ := (ends_of_ok hWord).mp (expectWord_ends .newKw s)
  -- behind the word the rest is read as elsewhere
  have hTail' : stackAllocTail r (c.shift s.current.span.start) (c.state u) =
      .ok (c.expr c.created) (c.state t) := by
    rw [expr_created rfl hKind]
    refine (stackAllocTail_tracks hr _ u).follow (hLead.suffix.trans hs) hTail ?_ fits ?_
    · rw [hSame, takes.sameErrors]
    · intro hIn
      have hLeft := left_of_word hs hStart (Nat.zero_lt_of_lt takes.moves)
      exact absurd hIn.2 (Nat.not_le.mpr (hLeft ▸ takes.moves))
  refine varInitializer_of_operand ?_ ?_ ?_ ?_
  · rw [hStackKind]
    rfl
  · rw [operand_of_stackAlloc hStackKind, c.current_state]
    refine bind_eq_ok.mpr ⟨(), c.state u, ?_, hTail'⟩
    exact expectWord_eq_ok (by rw [hStackKind]; rfl) (advance_state hAdvance)
  · rw [c.current_state]
    exact endsOperand_token _ hEnds
  · rw [c.current_state, c.assign?_token]
    exact hAssign

/-- Behind a `=` the word is read as what it has become. -/
theorem initialValue_tracks (hr : r.Tracked c) {mark : Token} (hMark : mark.kind = .punct .eq)
    (hs : (mark :: s.rest) <:+ c.tokens) :
    c.Tracks (varInitializer r) (varInitializer r) s c.expr fun e => c.Creates ⟨mark.span, e⟩ := by
  intro hTokens
  have plain := varInitializer_tracks hr s hTokens
  have hEnds := (varInitializer_ends hr.orderly s).mono fun _ _ h => h.moves
  split
  next e t hRun =>
    have moves := ((ends_of_ok hRun).mp hEnds).2
    rw [hRun] at plain
    refine ⟨plain.1, fun same => ⟨fun hCreates => ?_, fun fits found => ?_⟩⟩
    · obtain ⟨hInitial, element, size, span, init, hKind⟩ := hCreates
      obtain rfl : e = c.created := congrArg Initializer.value hInitial
      obtain ⟨hNew, hCreation, _⟩ := varInitializer_eq_ok hKind hRun
      obtain ⟨_, _, hSpan, _⟩ := stackAllocTail_of_newExpr hKind hCreation
      have hWord : s.current.span.start = c.word := hSpan.symm
      have hBelow := start_ne_of_newExpr hr.orderly hTokens hKind hCreation hWord
      have hLeft := left_of_word hTokens hWord (Nat.zero_lt_of_lt moves)
      refine ⟨⟨hLeft ▸ moves, Nat.le_of_eq hLeft⟩, ?_⟩
      cases hRest : s.rest with
      | nil => simp [hRest] at moves
      | cons y l =>
        rw [hRest] at hs
        rw [ParseState.current, hRest] at hNew hWord
        exact ⟨⟨mark, y, l, hs, hMark, congrArg Initializer.mark hInitial, hNew, hWord⟩, hBelow⟩
    · by_cases hIn : c.Within s t
      · exact varInitializer_word hr hTokens fits hRun same (found hIn)
      · exact (plain.2 same).2 fits hIn
  next => trivial

end RespelledText

end Stackable
