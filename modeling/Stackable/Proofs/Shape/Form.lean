import Stackable.Proofs.Parser.Numbering
import Stackable.Proofs.Parser.RecoveryGrammar
import Stackable.Proofs.Token.Kinds

/-!
# What the types of the tree leave open

An array creation that was read has brackets, each pair with a dimension in it, and tells how long
the array is; its element type is not an array, since brackets behind it belong to the creation. It
starts in front of its sizes and elements, as a name does in front of its `=` and this in front of
the value. An integer that was read fits in 64 bits. `Gives` says of a rule that what it makes of
the tokens of a text is of some form.
-/

set_option autoImplicit false

namespace Stackable

def TypeRefKind.IsSimple (kind : TypeRefKind TypeRef) : Prop :=
  ∀ element ranks, kind ≠ .array element ranks

/-- The parts of an array creation that was read from the offset `start` on. -/
structure CreationForm (start : Nat) (element : TypeRef) (ranks : List (RankSpecifier Expr))
    (initializer : Option (List Expr)) : Prop where
  simple : element.kind.IsSimple
  bracketed : ranks ≠ []
  dimensions : ∀ rank ∈ ranks, rank.sizes ≠ []
  counted : initializer = none → Parse.isSized ranks = true
  behind : ∀ x ∈ (ExprKind.arrayCreation element ranks initializer).operands, start < x.span.start

/-- A layer of an expression that was read from the offset `start` on. -/
def ExprKind.Formed (start : Nat) : ExprKind Expr → Prop
  | .int value _ => value < Nat.pow 2 64
  | .arrayCreation element ranks initializer => CreationForm start element ranks initializer
  | _ => True

/-- The name comes first, then the `=`, then the value. -/
def Declarator.Marked (d : Declarator) : Prop :=
  ∀ i ∈ d.init, d.span.start < i.mark.start ∧ i.mark.start < i.value.span.start

/-- The layer at the node is of the form of one that was read. -/
def Node.HasForm : Node → Prop
  | .expr e => e.kind.Formed e.span.start
  | .declarator d => d.Marked
  | _ => True

/-- Every node at or below this one has the form of one that was read. -/
def Node.Formed (n : Node) : Prop := ∀ x ∈ n.descend, x.HasForm

def Expr.Formed (e : Expr) : Prop := (Node.expr e).Formed

def Stmt.Formed (s : Stmt) : Prop := (Node.stmt s).Formed

def Declarator.Formed (d : Declarator) : Prop := (Node.declarator d).Formed

def Accessor.Formed (a : Accessor) : Prop := (Node.accessor a).Formed

def Member.Formed (m : Member) : Prop := (Node.member m).Formed

def Decl.Formed (d : Decl) : Prop := (Node.decl d).Formed

theorem Node.formed_iff {n : Node} : n.Formed ↔ n.HasForm ∧ ∀ c ∈ n.children, c.Formed := by
  unfold Formed
  rw [descend_eq, List.forall_mem_cons]
  simp only [descendants_eq, List.forall_mem_flatMap]

theorem Node.Formed.below {n : Node} (h : n.Formed) {x : Node} (hx : x ∈ n.descend) : x.Formed :=
  descend_induct h (fun _ c hm hc => (formed_iff.mp hm).2 c hc) x hx

theorem Expr.formed_iff {e : Expr} :
    e.Formed ↔ e.kind.Formed e.span.start ∧ ∀ x ∈ e.kind.operands, x.Formed := by
  unfold Expr.Formed
  rw [Node.formed_iff]
  simp [Node.children, Node.HasForm]

@[simp] theorem Node.formed_expr {e : Expr} : (Node.expr e).Formed ↔ e.Formed := .rfl

@[simp] theorem Node.formed_stmt {s : Stmt} : (Node.stmt s).Formed ↔ s.Formed := .rfl

@[simp] theorem Node.formed_declarator {d : Declarator} : (Node.declarator d).Formed ↔ d.Formed := .rfl

@[simp] theorem Node.formed_member {m : Member} : (Node.member m).Formed ↔ m.Formed := .rfl

def StmtKind.Formed (kind : StmtKind Stmt) : Prop := ∀ n ∈ kind.nodes, n.Formed

def MemberKind.Formed (kind : MemberKind Member) : Prop := ∀ n ∈ kind.nodes, n.Formed

def Initializer.Formed (init : Option Initializer) : Prop := ∀ i ∈ init, i.value.Formed

def FnBody.Formed (body : Option FnBody) : Prop := ∀ n ∈ (body.map FnBody.nodes).getD [], n.Formed

/-- Most nodes have no form of their own. -/
theorem Node.formed_of_children {n : Node} (h : n.HasForm) (below : ∀ c ∈ n.children, c.Formed) :
    n.Formed :=
  formed_iff.mpr ⟨h, below⟩

theorem Declarator.formed {d : Declarator} (marked : d.Marked) (h : Initializer.Formed d.init) :
    d.Formed := by
  apply Node.formed_of_children (n := .declarator d) marked
  simpa [Node.children, Initializer.Formed] using h

namespace ParseState

/-- The tokens that remain are as those of a text, one behind the other. -/
structure Sound (s : ParseState) : Prop where
  wellFormed : ∀ x ∈ s.rest, x.kind.WellFormed
  sorted : s.rest.Pairwise fun x y => x.span.start < y.span.start

theorem current_mem {s : ParseState} (h : s.current.kind.isEof = false) : s.current ∈ s.rest := by
  rw [← Parse.kind_rest] at h
  cases hRest : s.rest with
  | nil =>
    rw [hRest] at h
    cases h
  | cons x xs =>
    rw [Parse.current_of_cons hRest]
    exact List.mem_cons_self

theorem Sound.current {s : ParseState} (h : s.Sound) : s.current.kind.WellFormed := by
  cases hEof : s.current.kind.isEof with
  | false => exact h.wellFormed _ (current_mem hEof)
  | true =>
    revert hEof
    cases s.current.kind <;> simp [TokenKind.isEof, TokenKind.WellFormed]

theorem Reaches.suffix {s t : ParseState} (h : s.Reaches t) : t.rest <:+ s.rest := by
  induction h with
  | pass rest errors => exact rest
  | keep e room => exact List.suffix_rfl
  | giveUp opens inside e full ih =>
    obtain ⟨x, _, hRest, _⟩ := opens
    rw [hRest]
    exact ih.trans (List.suffix_cons x _)
  | trans first next ihFirst ihNext => exact ihNext.trans ihFirst

theorem Sound.mono {s t : ParseState} (h : s.Sound) (hRest : t.rest <:+ s.rest) : t.Sound :=
  ⟨fun x hx => h.wellFormed x (hRest.subset hx), h.sorted.sublist hRest.sublist⟩

/-- All that remains starts behind an offset. -/
def Beyond (s : ParseState) (offset : Nat) : Prop := ∀ x ∈ s.rest, offset < x.span.start

theorem Beyond.leadsTo {s t : ParseState} {offset : Nat} (h : s.Beyond offset)
    (hst : s.LeadsTo t) : t.Beyond offset :=
  fun x hx => h x (hst.suffix.subset hx)

theorem Takes.beyond {s t : ParseState} (h : s.Takes t) (hs : s.Sound) :
    t.Beyond s.current.span.start := by
  obtain ⟨read, hRead, _⟩ := h.read
  have hMoves := h.moves
  have hSorted := hs.sorted
  rw [hRead] at hMoves hSorted
  cases read with
  | nil => simp at hMoves
  | cons x read =>
    intro y hy
    rw [Parse.current_of_cons hRead]
    exact (List.pairwise_cons.mp hSorted).1 y (List.mem_append_right read hy)

/-- A node starts where a token does. -/
theorem Yields.beyond {loose : Bool} {s t : ParseState} {ns : List Node} {offset : Nat}
    (h : s.Yields loose t ns) (hs : s.Beyond offset) : ∀ n ∈ ns, offset < n.span.start := by
  intro n hn
  obtain ⟨start, rest, place, hStart, _⟩ :=
    h.laid.placed n (List.mem_flatMap.mpr ⟨n, hn, n.mem_descend_self⟩)
  obtain ⟨read, first, last, hRead, _, hFirst, _, hSpan⟩ := place.span
  rw [hSpan]
  apply hs first
  apply hStart.subset
  rw [hRead]
  exact List.mem_append_left rest (List.mem_of_mem_head? hFirst)

end ParseState

namespace Parse

open ParseState

variable {α β : Type} {P : α → Prop} {Q : β → Prop} {s : ParseState}

/-- However `p` ends at `s`, sound tokens are left, and a result of `p` is one of `P`. -/
def GivesAt (p : Parse α) (s : ParseState) (P : α → Prop) : Prop :=
  match p s with
  | .ok a t => P a ∧ t.Sound
  | .error _ t => t.Sound

def Gives (p : Parse α) (P : α → Prop) : Prop := ∀ s, s.Sound → GivesAt p s P

theorem givesAt_of_ok {p : Parse α} {a : α} {t : ParseState} (h : p s = .ok a t) :
    GivesAt p s P ↔ P a ∧ t.Sound := by
  unfold GivesAt
  rw [h]

theorem givesAt_of_error {p : Parse α} {e : ParseError} {t : ParseState} (h : p s = .error e t) :
    GivesAt p s P ↔ t.Sound := by
  unfold GivesAt
  rw [h]

theorem givesAt_bind_of_ok {p : Parse α} {a : α} {f : α → Parse β} {t : ParseState}
    (h : p s = .ok a t) : GivesAt (p >>= f) s Q ↔ GivesAt (f a) t Q := by
  unfold GivesAt
  rw [bind_of_ok h]

theorem Gives.pure {a : α} (h : P a) : Gives (pure a) P := fun _ hs => ⟨h, hs⟩

/-- Of a steady rule nothing is known but what it leaves. -/
theorem Gives.of_steady {p : Parse α} [hp : Steady p] : Gives p fun _ => True := by
  intro s hs
  have hEnd := hs.mono (hp.reaches s).suffix
  unfold outcome at hEnd
  cases hRun : p s with
  | ok a t =>
    rw [hRun] at hEnd
    exact (givesAt_of_ok hRun).mpr ⟨trivial, hEnd⟩
  | error e t =>
    rw [hRun] at hEnd
    exact (givesAt_of_error hRun).mpr hEnd

theorem GivesAt.bind_run {p : Parse α} {f : α → Parse β} (hp : GivesAt p s P)
    (hf : ∀ a t, p s = .ok a t → P a → t.Sound → GivesAt (f a) t Q) : GivesAt (p >>= f) s Q := by
  cases hRun : p s with
  | ok a t =>
    obtain ⟨ha, ht⟩ := (givesAt_of_ok hRun).mp hp
    exact (givesAt_bind_of_ok hRun).mpr (hf a t hRun ha ht)
  | error e t => exact (givesAt_of_error (bind_of_error hRun)).mpr ((givesAt_of_error hRun).mp hp)

theorem GivesAt.bind {p : Parse α} {f : α → Parse β} (hp : GivesAt p s P)
    (hf : ∀ a, P a → Gives (f a) Q) : GivesAt (p >>= f) s Q :=
  hp.bind_run fun a t _ ha ht => hf a ha t ht

/-- What follows may count on where `p` ends. -/
theorem GivesAt.bind_ends {p : Parse α} {f : α → Parse β} {R : α → ParseState → Prop}
    (hp : GivesAt p s P) (he : Ends p s R)
    (hf : ∀ a t, P a → R a t → s.LeadsTo t → t.Sound → GivesAt (f a) t Q) :
    GivesAt (p >>= f) s Q := by
  refine hp.bind_run fun a t hRun ha ht => ?_
  obtain ⟨hst, h⟩ := (ends_of_ok hRun).mp he
  exact hf a t ha h hst ht

theorem GivesAt.mono {p : Parse α} {R : α → Prop} (hp : GivesAt p s P) (h : ∀ a, P a → R a) :
    GivesAt p s R := by
  cases hRun : p s with
  | ok a t =>
    obtain ⟨ha, ht⟩ := (givesAt_of_ok hRun).mp hp
    exact (givesAt_of_ok hRun).mpr ⟨h a ha, ht⟩
  | error e t => exact (givesAt_of_error hRun).mpr ((givesAt_of_error hRun).mp hp)

theorem GivesAt.of_read {p : Parse α} {a : α} {f : α → Parse β} (h : p s = .ok a s)
    (hf : GivesAt (f a) s Q) : GivesAt (p >>= f) s Q :=
  (givesAt_bind_of_ok h).mpr hf

theorem Gives.bind {p : Parse α} {f : α → Parse β} (hp : Gives p P)
    (hf : ∀ a, P a → Gives (f a) Q) : Gives (p >>= f) Q :=
  fun s hs => (hp s hs).bind hf

/-- What comes first does not matter to the form of the result. -/
theorem Gives.skip {p : Parse α} [Steady p] {f : α → Parse β} (hf : ∀ a, Gives (f a) Q) :
    Gives (p >>= f) Q :=
  Gives.of_steady.bind fun a _ => hf a

theorem Gives.map {p : Parse α} {f : α → β} (hp : Gives p P) (hf : ∀ a, P a → Q (f a)) :
    Gives (f <$> p) Q := by
  rw [← bind_pure_comp]
  exact hp.bind fun a ha => .pure (hf a ha)

theorem Gives.some {p : Parse α} (hp : Gives p P) : Gives (Option.some <$> p) fun o => ∀ x ∈ o, P x :=
  hp.map fun a ha => by simpa using ha

theorem Gives.none : Gives (Pure.pure Option.none) fun o => ∀ x ∈ o, P x := .pure (by simp)

theorem Gives.ite {c : Prop} [Decidable c] {p q : Parse α} (hp : Gives p P) (hq : Gives q P) :
    Gives (if c then p else q) P := by
  split
  · exact hp
  · exact hq

/-- Both branches go on alike with what they give. -/
theorem Gives.join {c : Prop} [Decidable c] {p q : Parse α} {k : α → Parse β} (hp : Gives p P)
    (hq : Gives q P) (hk : ∀ a, P a → Gives (k a) Q) : Gives (if c then p >>= k else q >>= k) Q :=
  .ite (hp.bind hk) (hq.bind hk)

/-- One branch does something first, and both go on with `k`. -/
theorem Gives.optional {c : Prop} [Decidable c] {p k : Parse α} (hk : Gives k P)
    (hp : Gives k P → Gives p P) : Gives (if c then p else k) P :=
  .ite (hp hk) hk

theorem Gives.failAt {cause : ParseError.Cause} {span : Span} :
    Gives (Parse.failAt cause span : Parse α) P := fun _ hs => hs

theorem Gives.failExpected {what : Expected} : Gives (Parse.failExpected what : Parse α) P :=
  .skip fun _ => .failAt

theorem Gives.currentKind : Gives Parse.currentKind TokenKind.WellFormed :=
  fun _ hs => ⟨hs.current, hs⟩

theorem Gives.iterate {body : α → Parse (α ⊕ β)} (step : ∀ a, P a → Gives (body a) (Sum.elim P Q))
    (n : Nat) {a : α} (ha : P a) : Gives (Parse.iterate body n a) Q := by
  induction n generalizing a with
  | zero => exact .skip fun _ => .failAt
  | succ n ih =>
    refine (step a ha).bind ?_
    rintro (next | result) h
    · exact ih h
    · exact .pure h

theorem Gives.loop {body : α → Parse (α ⊕ β)} (step : ∀ a, P a → Gives (body a) (Sum.elim P Q))
    {a : α} (ha : P a) : Gives (Parse.loop body a) Q :=
  .skip fun _ => .iterate step _ ha

theorem forall_mem_concat {l : List α} {a : α} (hl : ∀ x ∈ l, P x) (ha : P a) :
    ∀ x ∈ l ++ [a], P x :=
  List.forall_mem_append.mpr ⟨hl, List.forall_mem_singleton.mpr ha⟩

/-- A list is gathered item by item. -/
theorem Gives.gather {body : List α → Parse (List α ⊕ List α)}
    (step : ∀ l, (∀ x ∈ l, P x) →
      Gives (body l) (Sum.elim (fun l => ∀ x ∈ l, P x) fun l => ∀ x ∈ l, P x)) :
    Gives (Parse.loop body []) fun l => ∀ x ∈ l, P x :=
  .loop step (by simp)

/-- At least one item is read. -/
theorem Gives.items {item : Parse α} (h : Gives item P) :
    Gives (commaSeparated item) fun l => l ≠ [] ∧ ∀ x ∈ l, P x := by
  refine .loop (P := fun l => ∀ x ∈ l, P x) (fun l hl => h.bind fun a ha => ?_) (by simp)
  refine .skip fun _ => .ite (.pure ?_) (.pure ?_)
  · exact forall_mem_concat hl ha
  · exact ⟨by simp, forall_mem_concat hl ha⟩

theorem Gives.commaSeparated {item : Parse α} (h : Gives item P) :
    Gives (Parse.commaSeparated item) fun l => ∀ x ∈ l, P x := by
  intro s hs
  exact (h.items s hs).mono fun _ hl => hl.2

theorem Gives.attempt {p : Parse α} {f : Except ParseError α → Parse β} (hp : Gives p P)
    (ok : ∀ a, P a → Gives (f (.ok a)) Q) (error : ∀ e, Gives (f (.error e)) Q) :
    Gives (Parse.attempt p >>= f) Q := by
  intro s hs
  have hps := hp s hs
  cases hRun : p s with
  | ok a t =>
    obtain ⟨ha, ht⟩ := (givesAt_of_ok hRun).mp hps
    exact (givesAt_bind_of_ok (attempt_of_ok hRun)).mpr (ok a ha t ht)
  | error e t =>
    have ht := (givesAt_of_error hRun).mp hps
    exact (givesAt_bind_of_ok (attempt_of_error hRun)).mpr (error e t ht)

theorem Gives.recordError {e : ParseError} {f : Bool → Parse β} (hf : ∀ b, Gives (f b) Q) :
    Gives (Parse.recordError e >>= f) Q := by
  have kept : Gives (Parse.recordError e) fun _ => True :=
    fun _ hs => ⟨trivial, hs.mono List.suffix_rfl⟩
  exact kept.bind fun b _ => hf b

theorem finishExpr_formed {start : Nat} {kind : ExprKind Expr} (h : kind.Formed start)
    (operands : ∀ x ∈ kind.operands, x.Formed) : Gives (finishExpr start kind) Expr.Formed :=
  .skip fun _ _ hs => .of_read (p := spanFrom start) rfl ⟨Expr.formed_iff.mpr ⟨h, operands⟩, hs⟩

end Parse

/-- The rules give what is of the form. -/
class Rules.Formed (r : Rules) : Prop where
  steady : r.Steady
  orderly : r.Orderly
  expr : Parse.Gives r.expr Expr.Formed
  exprAbove : ∀ least, Parse.Gives (r.exprAbove least) Expr.Formed
  varInitializer : Parse.Gives r.varInitializer Expr.Formed
  stmt : Parse.Gives r.stmt Stmt.Formed
  member : ∀ typeName, Parse.Gives (r.member typeName) Member.Formed
  decl : Parse.Gives r.decl Decl.Formed

attribute [instance] Rules.Formed.steady

end Stackable
