import Mathlib.Data.List.Pairwise
import Stackable.Proofs.Parser.Numbering

/-!
# The order of numbers over several calls

One parser may be asked for units and for expressions, again and again, whether it met errors or
not. The numbers it hands out never start again, so the trees of all calls together have no number
twice, a node comes after all that is below it, and what is below a child comes after what is below
the children in front of it.
-/

set_option autoImplicit false

namespace Stackable

open ParseState Parse

/-- What a parser may be asked for. -/
inductive Call where
  | unit
  | expression
deriving Repr, DecidableEq

/-- The roots that a call returns, and the parser behind it. A call that fails returns none. -/
def Call.run (s : ParseState) : Call → List Node × ParseState
  | .unit =>
    match compilationUnit s with
    | .ok (u, _) t => (u.decls.map .decl, t)
    | .error _ t => ([], t)
  | .expression =>
    match Parse.expression s with
    | .ok e t => ([.expr e], t)
    | .error _ t => ([], t)

/-- The roots that calls of one parser return, one call after the other. -/
def Call.roots (s : ParseState) : List Call → List Node
  | [] => []
  | c :: cs => (c.run s).1 ++ roots (c.run s).2 cs

/-- All numbers at or below the first node come before all at or below the second. -/
def Node.Precedes (n m : Node) : Prop := ∀ x ∈ n.descend, ∀ y ∈ m.descend, x.id < y.id

namespace Laid

variable {faulty : Prop} {loose : Bool} {a b : Mark} {ns : List Node}

theorem pairwise_precedes (h : Laid faulty loose a b ns) : ns.Pairwise Node.Precedes := by
  induction h with
  | nil => exact .nil
  | @node _ a b d c n ns gap span origin below next _ ihNext =>
    refine .cons (fun m hm x hx y hy => ?_) ihNext
    have hy : n.id + 1 ≤ y.id := (next.mem_between y (List.mem_flatMap.mpr ⟨m, hm, hy⟩)).1
    rcases Node.mem_descend_iff.mp hx with rfl | hx
    · exact hy
    · exact Nat.lt_trans (below.mem_between x (n.descendants_eq ▸ hx)).2 hy
  | filter _ _ _ _ _ ihNext => exact ihNext

theorem ordered (h : Laid faulty loose a b ns) : ∀ n ∈ ns.flatMap Node.descend,
    (∀ x ∈ n.descendants, x.id < n.id) ∧ n.children.Pairwise Node.Precedes := by
  intro n hn
  obtain ⟨start, rest, place, _⟩ := h.placed n hn
  constructor
  · intro x hx
    exact (place.below.mem_between x (n.descendants_eq ▸ hx)).2
  · exact place.below.pairwise_precedes

end Laid

/-- The roots of a call are laid out between the parser before it and the one behind it; what they
leave out does not matter. -/
theorem Call.laid_run (s : ParseState) (c : Call) :
    Laid True true s.mark (c.run s).2.mark (c.run s).1 := by
  have failed : ∀ t, s.LeadsTo t → Laid True true s.mark t.mark [] := fun t h =>
    .nil (h.before (.inl trivial))
  cases c with
  | unit =>
    have read := namespaceBody_withRules_ends s
    unfold run
    rcases compilationUnit_cases s with ⟨list, t, hRun, h⟩ | ⟨e, t, hRun, h⟩
    · rw [h]
      exact ((ends_of_ok hRun).mp read).2.laid.mono (fun _ => trivial) fun _ => rfl
    · rw [h]
      exact failed t ((ends_of_error hRun).mp read)
  | expression =>
    have read : Ends Parse.expression s fun e t => s.Yields false t [.expr e] := by
      unfold Parse.expression withRules
      simp only [ends_remaining]
      exact (Rules.orderly _).expr s
    unfold run
    cases h : Parse.expression s with
    | ok e t => exact ((ends_of_ok h).mp read).2.laid.mono (fun _ => trivial) fun _ => rfl
    | error e t => exact failed t ((ends_of_error h).mp read)

theorem Call.exists_laid_roots (s : ParseState) (calls : List Call) :
    ∃ b, Laid True true s.mark b (roots s calls) := by
  induction calls generalizing s with
  | nil => exact ⟨s.mark, .nil (.refl _ _)⟩
  | cons c cs ih =>
    obtain ⟨b, hb⟩ := ih (c.run s).2
    exact ⟨b, (c.laid_run s).append hb⟩

/-- Whatever one parser is asked for, no number is handed out twice among the trees it returns, each
node has a greater number than all below it, and below the children of a node numbers grow from
each child to the next. -/
theorem calls_number_in_order (tokens : List Token) (calls : List Call) :
    (numbersOf (Call.roots (.ofTokens tokens) calls)).Nodup ∧
    (∀ n ∈ (Call.roots (.ofTokens tokens) calls).flatMap Node.descend,
      (∀ x ∈ n.descendants, x.id < n.id) ∧ n.children.Pairwise Node.Precedes) ∧
    (Call.roots (.ofTokens tokens) calls).Pairwise Node.Precedes := by
  obtain ⟨b, h⟩ := Call.exists_laid_roots (.ofTokens tokens) calls
  exact ⟨h.nodup, h.ordered, h.pairwise_precedes⟩

end Stackable
