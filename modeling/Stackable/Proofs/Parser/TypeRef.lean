import Stackable.Proofs.Parser.Layout

/-!
# Types make no nodes

What the rules of the grammar promise to each other, and the rules for types: they read a token
and hand out no number.
-/

set_option autoImplicit false

namespace Stackable

open ParseState Parse

/-- Each rule lays out the node it gives, between where it starts and where it ends. -/
structure Rules.Orderly (r : Rules) : Prop where
  depth : ∃ n, r = Rules.depth n
  type : ∀ s, Ends r.type s fun _ t => s.Takes t
  expr : ∀ s, Ends r.expr s fun e t => s.Yields false t [.expr e]
  exprAbove : ∀ least s, Ends (r.exprAbove least) s fun e t => s.Yields false t [.expr e]
  varInitializer : ∀ s, Ends r.varInitializer s fun e t => s.Yields false t [.expr e]
  stmt : ∀ s, Ends r.stmt s fun x t => s.Yields false t [.stmt x]
  member : ∀ typeName s, Ends (r.member typeName) s fun m t => s.Yields false t [.member m]
  decl : ∀ s, Ends r.decl s fun d t => s.Yields false t [.decl d]

namespace Parse

variable {r : Rules}

theorem typeArgs_ends (hr : r.Orderly) (s : ParseState) :
    Ends (typeArgs r) s fun _ t => s.Takes t := by
  unfold typeArgs
  refine (expect_ends .lt s).bind fun _ t hst => ?_
  refine (loop_ends (fun _ u => s.Takes u) hst fun args u hsu => ?_ :
    Ends _ t fun _ u => s.Takes u).bind fun args u hsu => ?_
  · refine (hr.type u).bind fun x v huv => ?_
    simp only [ends_pendingGt]
    refine .ite (fun _ => .pure (hsu.trans huv)) fun _ => ?_
    refine (accept_passes .comma v).bind fun b w hvw => ?_
    have hsw := (hsu.trans huv).passes hvw
    exact .ite (fun _ => .pure hsw) fun _ => .pure hsw
  · exact (expectClosingAngle_ends u).bind fun _ v huv => .pure (hsu.passes huv)

theorem namedType_ends (hr : r.Orderly) (s : ParseState) :
    Ends (namedType r) s fun _ t => s.Takes t := by
  unfold namedType
  refine (expectName_ends s).bind fun first t hst => ?_
  refine (accept_passes .colonColon t).bind fun b u htu => ?_
  have hsu := hst.passes htu
  refine .join (P := fun _ v => s.Takes v)
    (fun _ => (expectName_ends u).mono fun _ v huv => hsu.trans huv)
    (fun _ => .pure hsu) fun first v hsv => ?_
  refine loop_ends (fun _ w => s.Takes w) hsv fun found w hsw => ?_
  obtain ⟨path, args⟩ := found
  simp only [ends_check]
  refine .join (P := fun _ x => s.Takes x)
    (fun _ => (typeArgs_ends hr w).mono fun _ x hwx => hsw.trans hwx)
    (fun _ => .pure hsw) fun args x hsx => ?_
  simp only [ends_pendingGt, ends_check, ends_peekKind]
  refine .ite (fun _ => ?_) fun _ => .pure hsx
  refine (advance_passes x).bind fun _ y hxy => ?_
  exact (expectName_ends y).bind fun _ z hyz => .pure ((hsx.passes hxy).trans hyz)

theorem typeMarks_ends (start : Nat) (type : TypeRef) (s : ParseState) :
    Ends (typeMarks start type) s fun _ t => s.Passes t := by
  refine loop_ends (fun _ t => s.Passes t) (.refl s) fun type t hst => ?_
  simp only [ends_pendingGt]
  refine .ite (fun _ => .pure hst) fun _ => ?_
  refine (accept_passes .question t).bind fun b u htu => ?_
  refine .ite (fun _ => ?_) fun _ => ?_
  · simp only [ends_spanFrom]
    exact .pure (hst.trans htu)
  refine (accept_passes .star u).bind fun b v huv => ?_
  refine .ite (fun _ => ?_) fun _ => .pure ((hst.trans htu).trans huv)
  simp only [ends_spanFrom]
  exact .pure ((hst.trans htu).trans huv)

theorem isEof_of_predefined? {k : TokenKind} {p : PredefinedType} (h : k.predefined? = some p) :
    k.isEof = false := by
  cases k <;> simp_all [TokenKind.predefined?, TokenKind.isEof]

theorem nonArrayType_ends (hr : r.Orderly) (s : ParseState) :
    Ends (nonArrayType r) s fun _ t => s.Takes t := by
  unfold nonArrayType
  simp only [ends_currentStart, ends_currentKind]
  have rest : ∀ kind t, s.Takes t → Ends (do
      typeMarks s.current.span.start ⟨kind, ← spanFrom s.current.span.start⟩) t
        fun _ t => s.Takes t := by
    intro kind t hst
    simp only [ends_spanFrom]
    exact (typeMarks_ends _ _ t).mono fun _ u htu => hst.passes htu
  split
  · rename_i p h
    refine (advance_ends s).bind fun _ t hRead => ?_
    obtain ⟨_, _, takes⟩ := hRead
    exact Ends.bind (P := fun _ t => s.Takes t) (.pure (takes (isEof_of_predefined? h))) rest
  · simp only [ends_currentKind]
    exact .ite (fun _ => (namedType_ends hr s).bind rest) fun _ => (failExpected_ends _).bind rest

theorem rankSpecifiers_ends (s : ParseState) : Ends rankSpecifiers s fun _ t => s.Passes t := by
  refine loop_ends (fun _ t => s.Passes t) (.refl s) fun ranks t hst => ?_
  simp only [ends_pendingGt, ends_remaining]
  refine .ite (fun _ => ?_) fun _ => .pure hst
  refine (advance_passes t).bind fun _ u htu => ?_
  refine (countCommas_ends u).bind fun _ v huv => ?_
  exact (expect_ends .rBracket v).bind fun _ w hvw =>
    .pure (((hst.trans htu).trans huv).trans hvw.toPasses)

theorem type_ends (hr : r.Orderly) (s : ParseState) : Ends (type r) s fun _ t => s.Takes t := by
  unfold type
  simp only [ends_currentStart]
  refine (nonArrayType_ends hr s).bind fun element t hst => ?_
  refine (rankSpecifiers_ends t).bind fun ranks u htu => ?_
  refine .ite (fun _ => .pure (hst.passes htu)) fun _ => ?_
  simp only [ends_spanFrom, ends_pendingGt]
  refine .ite (fun _ => .pure (hst.passes htu)) fun _ => ?_
  refine (accept_passes .question u).bind fun b v huv => ?_
  refine .ite (fun _ => ?_) fun _ => .pure ((hst.passes htu).passes huv)
  simp only [ends_spanFrom]
  exact .pure ((hst.passes htu).passes huv)

end Parse

end Stackable
