import Stackable.Proofs.Parser.Run
import Stackable.Syntax.Node

/-!
# How a forest is laid out by the parser

`Laid` relates a list of nodes to the two points of a run between which they were read. Each node
covers the tokens from its first to its last one, its children are laid out inside it, and the
numbers below a node come before its own. Numbers are left out in three places only: where an
error was met, in front of the members of a declaration, and where an exception filter was read.
-/

set_option autoImplicit false

namespace Stackable

/-- A point of a run: the next number and the tokens that remain. -/
structure Mark where
  id : NodeId
  rest : List Token

def ParseState.mark (s : ParseState) : Mark := ⟨s.nextId, s.rest⟩

/-- From `a` on to `b`, without a number in between unless there may be gaps. -/
structure Mark.Before (gap : Prop) (a b : Mark) : Prop where
  ids : a.id ≤ b.id
  tight : gap ∨ b.id = a.id
  rest : b.rest <:+ a.rest

theorem Mark.Before.refl (gap : Prop) (a : Mark) : a.Before gap a :=
  ⟨Nat.le_refl _, .inr rfl, List.suffix_rfl⟩

theorem Mark.Before.trans {gap : Prop} {a b c : Mark} (h : a.Before gap b) (k : b.Before gap c) :
    a.Before gap c := by
  refine ⟨Nat.le_trans h.ids k.ids, ?_, k.rest.trans h.rest⟩
  rcases h.tight with hg | hab
  · exact .inl hg
  · rcases k.tight with hg | hbc
    · exact .inl hg
    · exact .inr (hbc.trans hab)

theorem Mark.Before.mono {gap gap' : Prop} {a b : Mark} (h : a.Before gap b) (hg : gap → gap') :
    a.Before gap' b :=
  ⟨h.ids, h.tight.imp_left hg, h.rest⟩

/-- The span from the first to the last of the tokens that were read from `p` on up to `q`. -/
def Covers (p q : List Token) (span : Span) : Prop :=
  ∃ read first last, p = read ++ q ∧ Tokens.Inner read ∧ read.head? = some first ∧
    read.getLast? = some last ∧ span = ⟨first.span.start, last.span.stop⟩

theorem Covers.length_lt {p q : List Token} {span : Span} (h : Covers p q span) :
    q.length < p.length := by
  obtain ⟨read, first, last, rfl, _, hFirst, _, _⟩ := h
  cases read with
  | nil => simp at hFirst
  | cons x xs =>
    simp only [List.cons_append, List.length_cons, List.length_append]
    omega

theorem Covers.suffix {p q : List Token} {span : Span} (h : Covers p q span) : q <:+ p := by
  obtain ⟨read, first, last, rfl, _⟩ := h
  exact List.suffix_append read q

/-- From where a rule starts to where it ends, if it reads anything at all. -/
theorem ParseState.LeadsTo.covers {s t : ParseState} (h : s.LeadsTo t)
    (moves : t.rest.length < s.rest.length) :
    Covers s.rest t.rest ⟨s.current.span.start, t.prevEnd⟩ := by
  obtain ⟨read, hRead, hInner, hEnd⟩ := h.read
  cases read with
  | nil =>
    rw [hRead] at moves
    simp at moves
  | cons x xs =>
    have hCurrent := Parse.current_of_cons hRead
    obtain ⟨last, hLast⟩ : ∃ last, (x :: xs).getLast? = some last :=
      ⟨_, List.getLast?_eq_some_getLast (List.cons_ne_nil x xs)⟩
    refine ⟨x :: xs, x, last, hRead, hInner, rfl, hLast, ?_⟩
    rw [hCurrent, hEnd, hLast]
    rfl

def MemberKind.isType : MemberKind Member → Bool
  | .typeDecl _ => true
  | _ => false

/-- Declarations, and types among the members: a header in front of what they hold may be read
and left out. -/
def Node.holdsMembers : Node → Bool
  | .decl _ => true
  | .member m => m.kind.isType
  | _ => false

/-- The rule for members read `m` from `a` on up to `b`. -/
def MemberRun (faulty : Prop) (a b : Mark) (m : Member) : Prop :=
  ∃ depth typeName s t, Parse.member (Rules.depth depth) typeName s = .ok m t ∧ s.mark = a ∧
    t.mark = b ∧ (¬faulty → t.errors = s.errors)

theorem MemberRun.mono {faulty faulty' : Prop} {a b : Mark} {m : Member} (h : MemberRun faulty a b m)
    (hf : faulty → faulty') : MemberRun faulty' a b m := by
  obtain ⟨depth, typeName, s, t, run, hs, ht, same⟩ := h
  exact ⟨depth, typeName, s, t, run, hs, ht, fun hn => same fun h => hn (hf h)⟩

/-- The rule for exception filters read `e` from `a` on up to `b`. -/
def FilterRun (a b : Mark) (e : Expr) : Prop :=
  ∃ depth s t, Parse.catchFilter (Rules.depth depth) s = .ok (some e) t ∧ s.mark = a ∧ t.mark = b

inductive Laid (faulty : Prop) : Bool → Mark → Mark → List Node → Prop where
  | nil {loose : Bool} {a b : Mark} (gap : a.Before (faulty ∨ loose) b) : Laid faulty loose a b []
  | node {loose : Bool} {a b d : Mark} {c : List Token} {n : Node} {ns : List Node}
      (gap : a.Before (faulty ∨ loose) b) (span : Covers b.rest c n.span)
      (origin : ∀ m, n = .member m → m.function?.isSome →
        ∃ o, o.rest <:+ a.rest ∧ o.Before False b ∧ MemberRun faulty o ⟨n.id + 1, c⟩ m)
      (below : Laid faulty n.holdsMembers b ⟨n.id, c⟩ n.children)
      (next : Laid faulty loose ⟨n.id + 1, c⟩ d ns) : Laid faulty loose a d (n :: ns)
  | filter {loose : Bool} {a b c d : Mark} {e : Expr} {ns : List Node}
      (gap : a.Before (faulty ∨ loose) b) (run : FilterRun b c e)
      (below : Laid faulty false b c [.expr e]) (next : Laid faulty loose c d ns) :
      Laid faulty loose a d ns

namespace Laid

variable {faulty : Prop} {loose : Bool} {a b c : Mark} {xs ys : List Node}

theorem before_left (h : Laid faulty loose b c xs) (hab : a.Before (faulty ∨ loose) b) :
    Laid faulty loose a c xs := by
  cases h with
  | nil gap => exact .nil (hab.trans gap)
  | node gap span origin below next =>
    refine .node (hab.trans gap) span (fun m hm hf => ?_) below next
    obtain ⟨o, ho, hob, run⟩ := origin m hm hf
    exact ⟨o, ho.trans hab.rest, hob, run⟩
  | filter gap run below next => exact .filter (hab.trans gap) run below next

theorem append (h : Laid faulty loose a b xs) (k : Laid faulty loose b c ys) :
    Laid faulty loose a c (xs ++ ys) := by
  induction h with
  | nil gap => exact k.before_left gap
  | node gap span origin below next _ ih => exact .node gap span origin below (ih k)
  | filter gap run below next _ ih => exact .filter gap run below (ih k)

theorem mono {faulty' : Prop} {loose' : Bool} (h : Laid faulty loose a b xs)
    (hf : faulty → faulty') (hl : loose → loose') : Laid faulty' loose' a b xs := by
  induction h generalizing loose' with
  | nil gap => exact .nil (gap.mono (Or.imp hf hl))
  | node gap span origin below next ihBelow ihNext =>
    refine .node (gap.mono (Or.imp hf hl)) span (fun m hm hm' => ?_) (ihBelow id) (ihNext hl)
    obtain ⟨o, ho, hob, run⟩ := origin m hm hm'
    exact ⟨o, ho, hob, run.mono hf⟩
  | filter gap run below next ihBelow ihNext =>
    exact .filter (gap.mono (Or.imp hf hl)) run (ihBelow id) (ihNext hl)

theorem split (h : Laid faulty loose a c (xs ++ ys)) :
    ∃ b, Laid faulty loose a b xs ∧ Laid faulty loose b c ys := by
  generalize hzs : xs ++ ys = zs at h
  induction h generalizing xs with
  | @nil _ a b gap =>
    obtain ⟨rfl, rfl⟩ := List.append_eq_nil_iff.mp hzs
    exact ⟨a, .nil (.refl _ a), .nil gap⟩
  | @node _ a b d c n ns gap span origin below next ihBelow ihNext =>
    cases xs with
    | nil =>
      subst hzs
      exact ⟨a, .nil (.refl _ a), .node gap span origin below next⟩
    | cons x xs =>
      obtain ⟨rfl, rfl⟩ := List.cons.inj hzs
      obtain ⟨m, hxs, hys⟩ := ihNext rfl
      exact ⟨m, .node gap span origin below hxs, hys⟩
  | filter gap run below next ihBelow ihNext =>
    obtain ⟨m, hxs, hys⟩ := ihNext hzs
    exact ⟨m, .filter gap run below hxs, hys⟩

theorem before (h : Laid faulty loose a b xs) : a.id ≤ b.id ∧ b.rest <:+ a.rest := by
  induction h with
  | nil gap => exact ⟨gap.ids, gap.rest⟩
  | node gap span origin below next ihBelow ihNext =>
    refine ⟨?_, (ihNext.2.trans span.suffix).trans gap.rest⟩
    exact Nat.le_trans gap.ids (Nat.le_trans ihBelow.1 (Nat.le_trans (Nat.le_succ _) ihNext.1))
  | filter gap run below next ihBelow ihNext =>
    exact ⟨Nat.le_trans gap.ids (Nat.le_trans ihBelow.1 ihNext.1),
      (ihNext.2.trans ihBelow.2).trans gap.rest⟩

theorem length_lt (h : Laid faulty loose a b xs) (hxs : xs ≠ []) :
    b.rest.length < a.rest.length := by
  induction h with
  | nil gap => exact absurd rfl hxs
  | node gap span origin below next _ _ =>
    exact Nat.lt_of_le_of_lt next.before.2.length_le
      (Nat.lt_of_lt_of_le span.length_lt gap.rest.length_le)
  | filter gap run below next _ ihNext =>
    exact Nat.lt_of_lt_of_le (ihNext hxs) (below.before.2.trans gap.rest).length_le

end Laid

namespace ParseState

/-- The nodes were read on the way from `s` to `t`. -/
structure Yields (loose : Bool) (s t : ParseState) (ns : List Node) : Prop where
  leadsTo : s.LeadsTo t
  laid : Laid (t.errors ≠ s.errors) loose s.mark t.mark ns

theorem LeadsTo.ne_of_ne_left {s t u : ParseState} (h : s.LeadsTo t) (k : t.LeadsTo u)
    (hst : t.errors ≠ s.errors) : u.errors ≠ s.errors := by
  intro hsu
  have hts : t.errors <+: s.errors := hsu ▸ k.errors
  exact hst (hts.eq_of_length_le h.errors.length_le)

theorem LeadsTo.ne_of_ne_right {s t u : ParseState} (h : s.LeadsTo t) (k : t.LeadsTo u)
    (htu : u.errors ≠ t.errors) : u.errors ≠ s.errors := by
  intro hsu
  have hut : u.errors <+: t.errors := hsu ▸ h.errors
  exact htu (hut.eq_of_length_le k.errors.length_le)

theorem Passes.before {s t : ParseState} (h : s.Passes t) (gap : Prop) :
    s.mark.Before gap t.mark :=
  ⟨h.ids, .inr h.nextId, h.toLeadsTo.suffix⟩

theorem LeadsTo.before {s t : ParseState} (h : s.LeadsTo t) {gap : Prop} (hgap : gap) :
    s.mark.Before gap t.mark :=
  ⟨h.ids, .inl hgap, h.suffix⟩

namespace Yields

variable {loose : Bool} {s t u : ParseState} {xs ys : List Node}

theorem ofPasses (h : s.Passes t) : s.Yields loose t [] := ⟨h.toLeadsTo, .nil (h.before _)⟩

theorem refl (s : ParseState) : s.Yields loose s [] := ofPasses (.refl s)

theorem append (h : s.Yields loose t xs) (k : t.Yields loose u ys) :
    s.Yields loose u (xs ++ ys) :=
  ⟨h.leadsTo.trans k.leadsTo,
    (h.laid.mono (h.leadsTo.ne_of_ne_left k.leadsTo) id).append
      (k.laid.mono (h.leadsTo.ne_of_ne_right k.leadsTo) id)⟩

theorem passes (h : s.Yields loose t xs) (k : t.Passes u) : s.Yields loose u xs := by
  have := h.append (ofPasses k)
  rwa [List.append_nil] at this

theorem after (h : s.Passes t) (k : t.Yields loose u xs) : s.Yields loose u xs :=
  (ofPasses h).append k

theorem loosen (h : s.Yields loose t xs) : s.Yields true t xs :=
  ⟨h.leadsTo, h.laid.mono id fun _ => rfl⟩

/-- Where numbers may be left out, so may whole nodes. -/
theorem skipped (h : s.LeadsTo t) : s.Yields true t [] := ⟨h, .nil (h.before (.inr rfl))⟩

theorem faulty (h : s.LeadsTo t) (hne : t.errors ≠ s.errors) : s.Yields loose t [] :=
  ⟨h, .nil (h.before (.inl hne))⟩

theorem moves {n : Node} (h : s.Yields loose t (n :: xs)) : t.rest.length < s.rest.length :=
  h.laid.length_lt (List.cons_ne_nil n xs)

end Yields

/-- As `Yields`, over one token at least. -/
structure Reads (loose : Bool) (s t : ParseState) (ns : List Node) : Prop
    extends s.Yields loose t ns where
  moves : t.rest.length < s.rest.length

namespace Reads

variable {loose : Bool} {s t u : ParseState} {xs ys : List Node}

theorem append (h : s.Reads loose t xs) (k : t.Yields loose u ys) : s.Reads loose u (xs ++ ys) :=
  ⟨h.toYields.append k, Nat.lt_of_le_of_lt k.leadsTo.length_le h.moves⟩

theorem passes (h : s.Reads loose t xs) (k : t.Passes u) : s.Reads loose u xs := by
  have := h.append (.ofPasses k)
  rwa [List.append_nil] at this

theorem after (h : s.Passes t) (k : t.Reads loose u xs) : s.Reads loose u xs :=
  ⟨k.toYields.after h, Nat.lt_of_lt_of_le k.moves h.toLeadsTo.length_le⟩

end Reads

theorem Takes.reads {loose : Bool} {s t : ParseState} (h : s.Takes t) : s.Reads loose t [] :=
  ⟨.ofPasses h.toPasses, h.moves⟩

namespace Yields

variable {loose : Bool} {s t u : ParseState} {xs : List Node}

theorem reads {n : Node} (h : s.Yields loose t (n :: xs)) : s.Reads loose t (n :: xs) :=
  ⟨h, h.moves⟩

theorem behind (h : s.Takes t) (k : t.Yields loose u xs) : s.Reads loose u xs :=
  ⟨k.after h.toPasses, Nat.lt_of_le_of_lt k.leadsTo.length_le h.moves⟩

theorem takes (h : s.Yields loose t xs) (k : t.Takes u) : s.Reads loose u xs :=
  ⟨h.passes k.toPasses, Nat.lt_of_lt_of_le k.moves h.leadsTo.length_le⟩

/-- A node that takes the next number once all below it is read. -/
theorem node {o : ParseState} {n : Node} (hos : o.Passes s)
    (below : s.Reads n.holdsMembers t n.children) (hid : n.id = t.nextId)
    (hspan : n.span = ⟨s.current.span.start, t.prevEnd⟩)
    (origin : ∀ m, n = .member m → m.function?.isSome →
      MemberRun (t.errors ≠ o.errors) o.mark ⟨t.nextId + 1, t.rest⟩ m) :
    o.Yields loose { t with nextId := t.nextId + 1 } [n] := by
  have lead : t.LeadsTo { t with nextId := t.nextId + 1 } :=
    ⟨(LeadsTo.refl t).read, Nat.le_succ _, List.prefix_rfl, rfl⟩
  refine ⟨(hos.toLeadsTo.trans below.leadsTo).trans lead, ?_⟩
  have hBelow : Laid (t.errors ≠ o.errors) n.holdsMembers s.mark ⟨n.id, t.rest⟩ n.children := by
    rw [hid]
    exact below.laid.mono (hos.toLeadsTo.ne_of_ne_right below.leadsTo) id
  refine .node (hos.before _) ?_ (fun m hm hf => ⟨o.mark, List.suffix_rfl, hos.before _, ?_⟩)
    hBelow (.nil ?_)
  · rw [hspan]
    exact below.leadsTo.covers below.moves
  · rw [hid]
    exact origin m hm hf
  · rw [hid]
    exact .refl _ _

end Yields

end ParseState

open ParseState

namespace Parse

variable {α : Type} {s t : ParseState}

/-- The end of a rule that makes a node: its number, and the span up to here. -/
theorem fresh_ends {start : Nat} {mk : NodeId → Span → α} {Q : α → ParseState → Prop}
    (h : Q (mk t.nextId ⟨start, t.prevEnd⟩) { t with nextId := t.nextId + 1 }) :
    Ends (freshId >>= fun id => spanFrom start >>= fun span => pure (mk id span)) t Q :=
  ⟨⟨(LeadsTo.refl t).read, Nat.le_succ _, List.prefix_rfl, rfl⟩, h⟩

theorem finishExpr_ends {kind : ExprKind Expr} (below : s.Reads false t (kind.operands.map .expr)) :
    Ends (finishExpr s.current.span.start kind) t fun e u => s.Yields false u [.expr e] :=
  fresh_ends (.node (.refl s) below rfl rfl fun _ h => by cases h)

theorem finishStmt_ends {kind : StmtKind Stmt} (below : s.Reads false t kind.nodes) :
    Ends (finishStmt s.current.span.start kind) t fun x u => s.Yields false u [.stmt x] :=
  fresh_ends (.node (.refl s) below rfl rfl fun _ h => by cases h)

end Parse

end Stackable
