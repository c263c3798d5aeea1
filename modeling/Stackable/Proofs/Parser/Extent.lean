import Mathlib.Data.List.Pairwise
import Stackable.Proofs.Parser.Numbering
import Stackable.Proofs.Token.Offsets

/-!
# The spans of nodes

Every node of a source covers some text, which can be cut out. A node covers what is below it, and
of two children of a node the first ends before the second starts.
-/

set_option autoImplicit false

namespace Stackable

namespace Tokens.Ordered

variable {source : List Char} {p q p' q' read : List Token}

theorem suffix (h : Ordered source p) (hq : q <:+ p) : Ordered source q :=
  ⟨fun t ht => h.bounds t (hq.subset ht), fun t ht => h.width t (hq.subset ht),
    h.sorted.sublist hq.sublist⟩

theorem left (h : Ordered source (read ++ q)) : Ordered source read :=
  ⟨fun t ht => h.bounds t (List.mem_append_left q ht),
    fun t ht => h.width t (List.mem_append_left q ht), (List.pairwise_append.mp h.sorted).1⟩

theorem start_le (h : Ordered source read) (hInner : Inner read) {first t : Token}
    (hFirst : read.head? = some first) (ht : t ∈ read) : first.span.start ≤ t.span.start := by
  cases read with
  | nil => simp at ht
  | cons x xs =>
    obtain rfl : x = first := by simpa using hFirst
    rcases List.mem_cons.mp ht with rfl | ht
    · exact Nat.le_refl _
    · have hWidth := h.width x List.mem_cons_self (hInner x List.mem_cons_self)
      have hNext := (List.pairwise_cons.mp h.sorted).1 t ht
      omega

theorem stop_le (h : Ordered source read) (hInner : Inner read) {last t : Token}
    (hLast : read.getLast? = some last) (ht : t ∈ read) : t.span.stop ≤ last.span.stop := by
  obtain ⟨init, rfl⟩ : ∃ init, read = init ++ [last] := List.getLast?_eq_some_iff.mp hLast
  have hMem : last ∈ init ++ [last] := by simp
  rcases List.mem_append.mp ht with ht | ht
  · have hWidth := h.width last hMem (hInner last hMem)
    have hNext := (List.pairwise_append.mp h.sorted).2.2 t ht last (by simp)
    omega
  · obtain rfl := List.mem_singleton.mp ht
    exact Nat.le_refl _

end Tokens.Ordered

namespace Covers

variable {source : List Char} {p q p' q' : List Token} {span span' : Span}

theorem bounds (h : Covers p q span) (hp : Tokens.Ordered source p) :
    Text.Boundary source span.start ∧ Text.Boundary source span.stop ∧ span.start < span.stop := by
  obtain ⟨read, first, last, rfl, hInner, hFirst, hLast, rfl⟩ := h
  have hMemFirst := List.mem_of_mem_head? hFirst
  have hMemLast := List.mem_of_mem_getLast? hLast
  have hRead := hp.left
  refine ⟨(hRead.bounds first hMemFirst).1, (hRead.bounds last hMemLast).2, ?_⟩
  exact Nat.lt_of_le_of_lt (hRead.start_le hInner hFirst hMemLast)
    (hRead.width last hMemLast (hInner last hMemLast))

theorem before (h : Covers p q span) (k : Covers p' q' span') (hp : Tokens.Ordered source p)
    (hq : p' <:+ q) : span.stop ≤ span'.start := by
  obtain ⟨read, first, last, rfl, _, _, hLast, rfl⟩ := h
  obtain ⟨read', first', last', rfl, _, hFirst', _, rfl⟩ := k
  have hMem : first' ∈ q := hq.subset (List.mem_append_left _ (List.mem_of_mem_head? hFirst'))
  exact (List.pairwise_append.mp hp.sorted).2.2 last (List.mem_of_mem_getLast? hLast) first' hMem

theorem inside (h : Covers p q span) (k : Covers p' q' span') (hp : Tokens.Ordered source p)
    (hStart : p' <:+ p) (hStop : q <:+ q') : span.start ≤ span'.start ∧ span'.stop ≤ span.stop := by
  obtain ⟨read, first, last, rfl, hInner, hFirst, hLast, rfl⟩ := h
  obtain ⟨read', first', last', rfl, _, hFirst', hLast', rfl⟩ := k
  obtain ⟨front, hFront⟩ := hStart
  obtain ⟨back, rfl⟩ := hStop
  have hRead : read = front ++ (read' ++ back) := by
    refine (List.append_left_inj q).mp ?_
    rw [← hFront]
    simp only [List.append_assoc]
  have sub : ∀ t ∈ read', t ∈ read := by
    intro t ht
    rw [hRead]
    exact List.mem_append_right _ (List.mem_append_left _ ht)
  exact ⟨hp.left.start_le hInner hFirst (sub _ (List.mem_of_mem_head? hFirst')),
    hp.left.stop_le hInner hLast (sub _ (List.mem_of_mem_getLast? hLast'))⟩

end Covers

/-- What is in one tree ends before what is in the trees behind it starts. -/
theorem Covers.stop_le_start {faulty : Prop} {loose : Bool} {source : List Char} {b d : Mark}
    {c : List Token} {n : Node} {ns : List Node} (span : Covers b.rest c n.span)
    (below : Laid faulty n.holdsMembers b ⟨n.id, c⟩ n.children)
    (next : Laid faulty loose ⟨n.id + 1, c⟩ d ns) (hb : Tokens.Ordered source b.rest) :
    ∀ x ∈ n.descend, ∀ y ∈ ns.flatMap Node.descend, x.span.stop ≤ y.span.start := by
  intro x hx y hy
  obtain ⟨start, rest, place, hStart, _⟩ := next.placed y hy
  rcases Node.mem_descend_iff.mp hx with rfl | hx
  · exact span.before place.span hb hStart
  · obtain ⟨start', rest', place', hStart', hRest'⟩ := below.placed x (n.descendants_eq ▸ hx)
    exact place'.span.before place.span (hb.suffix hStart') (hStart.trans hRest')

/-- The second node is the first one or below it, or starts where this has ended. -/
def Node.BelowOrBehind (x y : Node) : Prop := y ∈ x.descend ∨ x.span.stop ≤ y.span.start

theorem Laid.belowOrBehind {faulty : Prop} {loose : Bool} {a b : Mark} {ns : List Node}
    {source : List Char} (h : Laid faulty loose a b ns) (ho : Tokens.Ordered source a.rest) :
    (ns.flatMap Node.descend).Pairwise Node.BelowOrBehind := by
  induction h with
  | nil gap => exact .nil
  | @node loose a b d c n ns gap span origin below next ihBelow ihNext =>
    have hb := ho.suffix gap.rest
    have hc := hb.suffix span.suffix
    rw [List.flatMap_cons]
    apply List.pairwise_append.mpr
    refine ⟨?_, ihNext hc, fun x hx y hy => .inr (span.stop_le_start below next hb x hx y hy)⟩
    rw [Node.descend_eq]
    refine .cons (fun y hy => .inl (Node.mem_descend_iff.mpr (.inr hy))) ?_
    rw [n.descendants_eq]
    exact ihBelow hb
  | filter gap run below next _ ihNext =>
    exact ihNext ((ho.suffix gap.rest).suffix below.before.2)

/-- One of two nodes is the other or below it, or one ends before the other starts. -/
def Node.NestedOrApart (x y : Node) : Prop :=
  (y ∈ x.descend ∨ x ∈ y.descend) ∨ x.span.stop ≤ y.span.start ∨ y.span.stop ≤ x.span.start

instance : Std.Symm Node.NestedOrApart := ⟨fun _ _ h => h.imp Or.symm Or.symm⟩

theorem Node.BelowOrBehind.nestedOrApart {x y : Node} (h : x.BelowOrBehind y) : x.NestedOrApart y :=
  h.imp .inl .inl

section Source

variable {source : List Char} {n x : Node}

theorem placed_of_mem_source (hn : n ∈ (SyntaxTree.ofUnit (parseSource source).1).walk) :
    ∃ faulty tokens start rest, Placed faulty tokens n start rest ∧
      Tokens.Ordered source start.rest := by
  obtain ⟨start, rest, place, hStart⟩ := placed_of_mem_walk hn
  exact ⟨_, _, start, rest, place, (Lexer.ordered_tokenize source).suffix hStart⟩

theorem span_start_lt_stop (hn : n ∈ (SyntaxTree.ofUnit (parseSource source).1).walk) :
    n.span.start < n.span.stop := by
  obtain ⟨_, _, start, rest, place, hOrdered⟩ := placed_of_mem_source hn
  exact (place.span.bounds hOrdered).2.2

theorem isSome_text? (hn : n ∈ (SyntaxTree.ofUnit (parseSource source).1).walk) :
    (n.span.text? source).isSome := by
  obtain ⟨_, _, start, rest, place, hOrdered⟩ := placed_of_mem_source hn
  obtain ⟨hStart, hStop, hlt⟩ := place.span.bounds hOrdered
  exact Text.isSome_slice? hStart hStop (Nat.le_of_lt hlt)

theorem span_of_mem_descend (hn : n ∈ (SyntaxTree.ofUnit (parseSource source).1).walk)
    (hx : x ∈ n.descend) : n.span.start ≤ x.span.start ∧ x.span.stop ≤ n.span.stop := by
  rcases Node.mem_descend_iff.mp hx with rfl | hx
  · exact ⟨Nat.le_refl _, Nat.le_refl _⟩
  obtain ⟨_, _, start, rest, place, hOrdered⟩ := placed_of_mem_source hn
  obtain ⟨start', rest', place', hStart, hRest⟩ := place.below.placed x (n.descendants_eq ▸ hx)
  exact place.span.inside place'.span hOrdered hStart hRest

theorem pairwise_belowOrBehind (source : List Char) :
    (SyntaxTree.ofUnit (parseSource source).1).walk.Pairwise Node.BelowOrBehind := by
  obtain ⟨b, h⟩ := laid_parseTokens (Lexer.tokenize source).tokens
  rw [SyntaxTree.walk_ofUnit, ← List.flatMap_map]
  exact h.belowOrBehind (Lexer.ordered_tokenize source)

theorem nestedOrApart_of_mem_walk (hn : n ∈ (SyntaxTree.ofUnit (parseSource source).1).walk)
    (hx : x ∈ (SyntaxTree.ofUnit (parseSource source).1).walk) : n.NestedOrApart x := by
  have pairs := (pairwise_belowOrBehind source).imp Node.BelowOrBehind.nestedOrApart
  exact pairs.forall_of_forall (fun x _ => .inl (.inl x.mem_descend_self)) hn hx

/-- Children are written one behind the other. -/
theorem span_children (hn : n ∈ (SyntaxTree.ofUnit (parseSource source).1).walk)
    {xs ys : List Node} (h : n.children = xs ++ ys) {c d : Node} (hc : c ∈ xs) (hd : d ∈ ys) :
    c.span.stop ≤ d.span.start := by
  obtain ⟨_, _, start, rest, place, hOrdered⟩ := placed_of_mem_source hn
  have below := place.below
  rw [h] at below
  obtain ⟨between, left, right⟩ := below.split
  obtain ⟨p, q, placeC, hp, hq⟩ := left.placed c (List.mem_flatMap.mpr ⟨c, hc, c.mem_descend_self⟩)
  obtain ⟨p', q', placeD, hp', _⟩ := right.placed d (List.mem_flatMap.mpr ⟨d, hd, d.mem_descend_self⟩)
  exact placeC.span.before placeD.span (hOrdered.suffix hp) (hp'.trans hq)

end Source

end Stackable
