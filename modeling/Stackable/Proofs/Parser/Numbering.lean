import Mathlib.Data.List.Nodup
import Mathlib.Data.List.Perm.Basic
import Stackable.Proofs.Parser.Decl
import Stackable.Proofs.Syntax.Lineage

/-!
# The numbers of nodes

A forest that was laid out between two points has the numbers in between, none of them twice.
Inside a method or a constructor that was read without errors none is left out, those of exception
filters apart: their nodes take numbers and are then dropped.
-/

set_option autoImplicit false

namespace Stackable

namespace Laid

variable {faulty : Prop} {loose : Bool} {a b : Mark} {ns : List Node}

theorem mem_between (h : Laid faulty loose a b ns) :
    ∀ x ∈ ns.flatMap Node.descend, a.id ≤ x.id ∧ x.id < b.id := by
  induction h with
  | nil gap => simp
  | @node _ a b d c n ns gap span origin below next ihBelow ihNext =>
    intro x hx
    have hab := gap.ids
    have hbn := below.before.1
    have hnd := next.before.1
    rw [List.flatMap_cons, Node.descend_eq_cons, List.cons_append] at hx
    rcases List.mem_cons.mp hx with rfl | hx
    · exact ⟨Nat.le_trans hab hbn, hnd⟩
    · rcases List.mem_append.mp hx with hx | hx
      · obtain ⟨hbx, hxn⟩ := ihBelow x hx
        exact ⟨Nat.le_trans hab hbx, Nat.lt_of_lt_of_le hxn (Nat.le_of_succ_le hnd)⟩
      · obtain ⟨hnx, hxd⟩ := ihNext x hx
        exact ⟨Nat.le_trans hab (Nat.le_trans hbn (Nat.le_of_succ_le hnx)), hxd⟩
  | filter gap run below next _ ihNext =>
    intro x hx
    obtain ⟨hcx, hxd⟩ := ihNext x hx
    exact ⟨Nat.le_trans gap.ids (Nat.le_trans below.before.1 hcx), hxd⟩

theorem nodup (h : Laid faulty loose a b ns) : ((ns.flatMap Node.descend).map Node.id).Nodup := by
  induction h with
  | nil gap => simp
  | @node _ a b d c n ns gap span origin below next ihBelow ihNext =>
    have hBelow := below.mem_between
    have hNext := next.mem_between
    rw [List.flatMap_cons, Node.descend_eq_cons, List.cons_append, List.map_cons, List.map_append,
      List.nodup_cons, List.nodup_append]
    refine ⟨?_, ihBelow, ihNext, ?_⟩
    · rw [List.mem_append, List.mem_map, List.mem_map]
      rintro (⟨x, hx, hxn⟩ | ⟨x, hx, hxn⟩)
      · exact Nat.lt_irrefl _ (hxn ▸ (hBelow x hx).2)
      · exact Nat.lt_irrefl _ (hxn ▸ (hNext x hx).1)
    · intro i hi j hj hij
      obtain ⟨x, hx, rfl⟩ := List.mem_map.mp hi
      obtain ⟨y, hy, rfl⟩ := List.mem_map.mp hj
      have hxn : x.id < n.id := (hBelow x hx).2
      have hny : n.id + 1 ≤ y.id := (hNext y hy).1
      exact absurd hij (Nat.ne_of_lt (Nat.lt_of_lt_of_le hxn (Nat.le_of_succ_le hny)))
  | filter gap run below next _ ihNext => exact ihNext

end Laid

/-- The node was read from `start` on up to `rest`, the text as a whole being `tokens`. -/
structure Placed (faulty : Prop) (tokens : List Token) (n : Node) (start : Mark)
    (rest : List Token) : Prop where
  span : Covers start.rest rest n.span
  below : Laid faulty n.holdsMembers start ⟨n.id, rest⟩ n.children
  origin : ∀ m, n = .member m → m.function?.isSome →
    ∃ o, o.rest <:+ tokens ∧ o.Before False start ∧ MemberRun faulty o ⟨n.id + 1, rest⟩ m

theorem Placed.mono {faulty : Prop} {tokens tokens' rest : List Token} {n : Node} {start : Mark}
    (h : Placed faulty tokens n start rest) (hTokens : tokens <:+ tokens') :
    Placed faulty tokens' n start rest := by
  refine ⟨h.span, h.below, fun m hm hf => ?_⟩
  obtain ⟨o, ho, run⟩ := h.origin m hm hf
  exact ⟨o, ho.trans hTokens, run⟩

theorem Laid.placed {faulty : Prop} {loose : Bool} {a b : Mark} {ns : List Node}
    (h : Laid faulty loose a b ns) : ∀ x ∈ ns.flatMap Node.descend, ∃ start rest,
      Placed faulty a.rest x start rest ∧ start.rest <:+ a.rest ∧ b.rest <:+ rest := by
  induction h with
  | nil gap => simp
  | @node _ a b d c n ns gap span origin below next ihBelow ihNext =>
    intro x hx
    rw [List.flatMap_cons, Node.descend_eq_cons, List.cons_append] at hx
    rcases List.mem_cons.mp hx with rfl | hx
    · exact ⟨b, c, ⟨span, below, origin⟩, gap.rest, next.before.2⟩
    · rcases List.mem_append.mp hx with hx | hx
      · obtain ⟨start, rest, place, hStart, hRest⟩ := ihBelow x hx
        exact ⟨start, rest, place.mono gap.rest, hStart.trans gap.rest, next.before.2.trans hRest⟩
      · obtain ⟨start, rest, place, hStart, hRest⟩ := ihNext x hx
        have hc := span.suffix.trans gap.rest
        exact ⟨start, rest, place.mono hc, hStart.trans hc, hRest⟩
  | filter gap run below next _ ihNext =>
    intro x hx
    obtain ⟨start, rest, place, hStart, hRest⟩ := ihNext x hx
    have hc := below.before.2.trans gap.rest
    exact ⟨start, rest, place.mono hc, hStart.trans hc, hRest⟩

/-- Exception filters that were read on the way from `a` to `b`. -/
def FiltersRead (a b : Mark) (filters : List Expr) : Prop :=
  ∀ e ∈ filters, ∃ p q, FilterRun p q e ∧ p.rest <:+ a.rest ∧ b.rest <:+ q.rest

theorem FiltersRead.widen {a b c d : Mark} {filters : List Expr} (h : FiltersRead b c filters)
    (hab : b.rest <:+ a.rest) (hcd : d.rest <:+ c.rest) : FiltersRead a d filters := by
  intro e he
  obtain ⟨p, q, run, hp, hq⟩ := h e he
  exact ⟨p, q, run, hp.trans hab, hcd.trans hq⟩

theorem FiltersRead.append {a b : Mark} {xs ys : List Expr} (hx : FiltersRead a b xs)
    (hy : FiltersRead a b ys) : FiltersRead a b (xs ++ ys) := by
  intro e he
  rcases List.mem_append.mp he with he | he
  · exact hx e he
  · exact hy e he

/-- The numbers of some nodes and all below them. -/
def numbersOf (ns : List Node) : List NodeId := (ns.flatMap Node.descend).map Node.id

theorem numbersOf_append (xs ys : List Node) : numbersOf (xs ++ ys) = numbersOf xs ++ numbersOf ys := by
  simp [numbersOf]

theorem numbersOf_cons (n : Node) (ns : List Node) :
    numbersOf (n :: ns) = n.id :: (numbersOf n.children ++ numbersOf ns) := by
  simp [numbersOf, Node.descend_eq_cons]

theorem numbersOf_flatMap {α : Type} (f : α → List Node) (l : List α) :
    numbersOf (l.flatMap f) = l.flatMap fun a => numbersOf (f a) := by
  simp only [numbersOf, List.flatMap_assoc, List.map_flatMap]

theorem range'_split {a m b : Nat} (ham : a ≤ m) (hmb : m ≤ b) :
    List.range' a (b - a) = List.range' a (m - a) ++ List.range' m (b - m) := by
  have h := List.range'_append_1 (s := a) (m := m - a) (n := b - m)
  rw [Nat.add_sub_cancel' ham] at h
  rw [h]
  congr 1
  omega

theorem Node.holdsMembers_of_isCode {n : Node} (h : n.isCode = true) : n.holdsMembers = false := by
  cases n with
  | decl | member | accessor => simp [isCode] at h
  | declarator | stmt | expr => rfl

theorem Mark.Before.id_eq {loose : Bool} {a b : Mark} (h : a.Before (False ∨ loose) b)
    (hl : loose = false) : b.id = a.id := by
  simpa [hl] using h.tight

/-- Without errors, and where no declaration may drop its header, the numbers in between are those
of the forest and of the exception filters that were read. -/
theorem Laid.exists_filters {a b : Mark} {ns : List Node} {loose : Bool}
    (h : Laid False loose a b ns) (hl : loose = false)
    (hc : ∀ n ∈ ns.flatMap Node.descend, n.holdsMembers = false) :
    ∃ filters, FiltersRead a b filters ∧
      (numbersOf (ns ++ filters.map .expr)).Perm (List.range' a.id (b.id - a.id)) := by
  induction h with
  | nil gap =>
    have hab := gap.id_eq hl
    exact ⟨[], by simp [FiltersRead], by simp [numbersOf, hab]⟩
  | @node _ a b d c n ns gap span origin below next ihBelow ihNext =>
    rw [List.flatMap_cons, Node.descend_eq_cons, List.cons_append] at hc
    obtain ⟨hn, hc⟩ := List.forall_mem_cons.mp hc
    obtain ⟨hcBelow, hcNext⟩ := List.forall_mem_append.mp hc
    obtain ⟨xs, hxs, permBelow⟩ := ihBelow hn hcBelow
    obtain ⟨ys, hys, permNext⟩ := ihNext hl hcNext
    have hab := gap.id_eq hl
    have hbn : b.id ≤ n.id := below.before.1
    have hnd : n.id + 1 ≤ d.id := next.before.1
    refine ⟨xs ++ ys, (hxs.widen gap.rest next.before.2).append
      (hys.widen (span.suffix.trans gap.rest) List.suffix_rfl), ?_⟩
    rw [hab] at permBelow hbn
    rw [range'_split hbn (Nat.le_of_succ_le hnd), range'_split (Nat.le_succ n.id) hnd,
      Nat.succ_sub (Nat.le_refl _), Nat.sub_self]
    rw [numbersOf_append] at permBelow permNext
    refine .trans ?_ (permBelow.append (permNext.cons n.id))
    rw [List.map_append, List.cons_append, numbersOf_cons, numbersOf_append, numbersOf_append]
    refine List.perm_iff_count.mpr fun i => ?_
    simp only [List.count_cons, List.count_append]
    omega
  | @filter _ a b c d e ns gap run below next ihBelow ihNext =>
    have hcBelow : ∀ n ∈ [Node.expr e].flatMap Node.descend, n.holdsMembers = false := by
      intro n hn
      rw [List.flatMap_singleton] at hn
      exact Node.holdsMembers_of_isCode (Node.isCode_of_mem_descend (Node.isCode_expr e) hn)
    obtain ⟨xs, hxs, permBelow⟩ := ihBelow rfl hcBelow
    obtain ⟨ys, hys, permNext⟩ := ihNext hl hc
    have hab := gap.id_eq hl
    have hbc := below.before
    have hcd := next.before
    have he : FiltersRead a d [e] := by
      intro x hx
      obtain rfl := List.mem_singleton.mp hx
      exact ⟨b, c, run, gap.rest, hcd.2⟩
    refine ⟨[e] ++ (xs ++ ys), he.append ((hxs.widen gap.rest hcd.2).append
      (hys.widen (hbc.2.trans gap.rest) List.suffix_rfl)), ?_⟩
    rw [hab] at permBelow hbc
    rw [range'_split hbc.1 hcd.1]
    rw [numbersOf_append] at permBelow permNext
    refine .trans ?_ (permBelow.append permNext)
    simp only [List.map_append, List.map_cons, List.map_nil, numbersOf_append]
    refine List.perm_iff_count.mpr fun i => ?_
    simp only [List.count_append]
    omega

theorem numbered_parseTokens (tokens : List Token) : (parseTokens tokens).1.Numbered := by
  obtain ⟨b, h⟩ := laid_parseTokens tokens
  have := h.nodup
  unfold CompilationUnit.Numbered
  rwa [SyntaxTree.walk_ofUnit, ← List.flatMap_map]

theorem numbered_parseSource (source : List Char) : (parseSource source).1.Numbered :=
  numbered_parseTokens _

theorem placed_of_mem_walk {tokens : List Token} {n : Node}
    (hn : n ∈ (SyntaxTree.ofUnit (parseTokens tokens).1).walk) : ∃ start rest,
      Placed ((parseTokens tokens).2 ≠ []) tokens n start rest ∧ start.rest <:+ tokens := by
  obtain ⟨b, h⟩ := laid_parseTokens tokens
  rw [SyntaxTree.walk_ofUnit, ← List.flatMap_map] at hn
  obtain ⟨start, rest, place, hStart, _⟩ := h.placed n hn
  exact ⟨start, rest, place, hStart⟩

theorem Member.holdsMembers_of_function {m : Member} (hm : m.function?.isSome) :
    ∀ n ∈ [Node.member m].flatMap Node.descend, n.holdsMembers = false := by
  intro n hn
  rw [List.flatMap_singleton] at hn
  rcases Node.mem_descend_iff.mp hn with rfl | hn
  · obtain ⟨id, kind, span⟩ := m
    cases kind with
    | typeDecl => cases hm
    | _ => rfl
  · exact Node.holdsMembers_of_isCode (m.isCode_of_mem_descendants hm hn)

/-- A run of the rule for members that gave `m` and met no error. -/
def ReadsMember (m : Member) (s t : ParseState) : Prop :=
  ∃ depth typeName, Parse.member (Rules.depth depth) typeName s = .ok m t ∧ t.errors = s.errors

/-- Every number handed out between two states is that of the member or of a node below it. -/
def Member.HoldsNumbers (m : Member) (s t : ParseState) : Prop :=
  ∀ id, s.nextId ≤ id → id < t.nextId → ∃ n ∈ (Node.member m).descend, n.id = id

theorem ReadsMember.laid {m : Member} {s t : ParseState} (h : ReadsMember m s t) :
    Laid False false s.mark t.mark [.member m] := by
  obtain ⟨depth, typeName, run, same⟩ := h
  obtain ⟨_, yields⟩ := (Parse.ends_of_ok run).mp (Parse.member_ends (Rules.orderly depth) typeName s)
  exact yields.laid.mono (fun h => h same) id

theorem exists_readsMember {tokens : List Token} (h : (parseTokens tokens).2 = []) {m : Member}
    (hm : .member m ∈ (SyntaxTree.ofUnit (parseTokens tokens).1).walk) (hf : m.function?.isSome) :
    ∃ s t, ReadsMember m s t ∧ s.rest <:+ tokens := by
  obtain ⟨start, rest, place, _⟩ := placed_of_mem_walk hm
  obtain ⟨o, ho, _, depth, typeName, s, t, run, hs, _, same⟩ := place.origin m rfl hf
  refine ⟨s, t, ⟨depth, typeName, run, same fun hne => hne h⟩, ?_⟩
  rw [← hs] at ho
  exact ho

/-- The numbers handed out while a method or constructor is read are its own, those of the nodes
below it and those of exception filters. -/
theorem numbersOf_member_perm {m : Member} {s t : ParseState} (h : ReadsMember m s t)
    (hf : m.function?.isSome) : ∃ filters, FiltersRead s.mark t.mark filters ∧
      (numbersOf (.member m :: filters.map .expr)).Perm
        (List.range' s.nextId (t.nextId - s.nextId)) :=
  h.laid.exists_filters rfl (m.holdsMembers_of_function hf)

theorem holdsNumbers_iff_of_perm {m : Member} {s t : ParseState} {filters : List Expr}
    (perm : (numbersOf (.member m :: filters.map .expr)).Perm
      (List.range' s.nextId (t.nextId - s.nextId))) : m.HoldsNumbers s t ↔ filters = [] := by
  have mem : ∀ id, id ∈ numbersOf (.member m :: filters.map .expr) ↔
      s.nextId ≤ id ∧ id < t.nextId := by
    intro id
    have bounds : ∀ a b i : Nat, a ≤ i ∧ i < a + (b - a) ↔ a ≤ i ∧ i < b := by omega
    rw [perm.mem_iff, List.mem_range'_1]
    exact bounds _ _ _
  constructor
  · intro hm
    cases filters with
    | nil => rfl
    | cons e es =>
      -- the number of the filter would have to be that of a node of the member as well
      have nodup := perm.nodup_iff.mpr List.nodup_range'
      have he : e.id ∈ numbersOf ((e :: es).map .expr) := by
        rw [List.map_cons, numbersOf_cons]
        exact List.mem_cons_self
      rw [← List.singleton_append, numbersOf_append] at nodup mem
      obtain ⟨hle, hlt⟩ := (mem e.id).mp (List.mem_append_right _ he)
      obtain ⟨n, hn, hid⟩ := hm e.id hle hlt
      have hn' : e.id ∈ numbersOf [.member m] := by
        unfold numbersOf
        rw [List.flatMap_singleton]
        exact List.mem_map.mpr ⟨n, hn, hid⟩
      exact absurd rfl ((List.nodup_append.mp nodup).2.2 _ hn' _ he)
  · rintro rfl id hle hlt
    obtain ⟨n, hn, hid⟩ := List.mem_map.mp ((mem id).mpr ⟨hle, hlt⟩)
    rw [List.map_nil, List.flatMap_singleton] at hn
    exact ⟨n, hn, hid⟩

/-- Every method or constructor of a source without errors was read by a run of the rule for
members, and in each such run the member and the nodes below it have all numbers handed out, unless
an exception filter was read: the nodes of filters have the numbers that are missing. -/
theorem function_holds_numbers_iff_no_filter (source : List Char)
    (h : (parseSource source).2 = []) (m : Member)
    (hm : .member m ∈ (SyntaxTree.ofUnit (parseSource source).1).walk)
    (hf : m.function?.isSome) :
    (∃ s t, ReadsMember m s t ∧ s.rest <:+ (Lexer.tokenize source).tokens) ∧
    ∀ s t, ReadsMember m s t → ∃ filters, FiltersRead s.mark t.mark filters ∧
      (numbersOf (.member m :: filters.map .expr)).Perm
        (List.range' s.nextId (t.nextId - s.nextId)) ∧
      (m.HoldsNumbers s t ↔ filters = []) := by
  have hParse := List.map_eq_nil_iff.mp (List.append_eq_nil_iff.mp h).2
  refine ⟨exists_readsMember hParse hm hf, fun s t read => ?_⟩
  obtain ⟨filters, hRead, perm⟩ := numbersOf_member_perm read hf
  exact ⟨filters, hRead, perm, holdsNumbers_iff_of_perm perm⟩

theorem exists_function_of_any (ns : List Node) (P : Node → Bool)
    (h : ns.any (fun n => n.function?.isSome && P n) = true) :
    ∃ m, .member m ∈ ns ∧ m.function?.isSome ∧ P (.member m) = true := by
  obtain ⟨n, hn, h⟩ := List.any_eq_true.mp h
  rw [Bool.and_eq_true] at h
  cases n with
  | member m => exact ⟨m, hn, h⟩
  | _ => exact absurd h.1 (by simp [Node.function?])

def handlerWithoutFilter : List Char :=
  "class C{C(int x=1):this(x,2){try{F(x);}catch(E e){G(e);}}}".toList

set_option maxRecDepth 10000 in
theorem function_holds_numbers_of_handler : ∃ m,
    .member m ∈ (SyntaxTree.ofUnit (parseSource handlerWithoutFilter).1).walk ∧
    m.function?.isSome ∧ ∃ s t filters, ReadsMember m s t ∧ FiltersRead s.mark t.mark filters ∧
      (m.HoldsNumbers s t ↔ filters = []) := by
  obtain ⟨m, hm, hf, _⟩ := exists_function_of_any
    (SyntaxTree.ofUnit (parseSource handlerWithoutFilter).1).walk (fun _ => true)
    (by decide +kernel)
  obtain ⟨⟨s, t, read, _⟩, numbers⟩ :=
    function_holds_numbers_iff_no_filter handlerWithoutFilter (by decide +kernel) m hm hf
  obtain ⟨filters, hRead, _, holds⟩ := numbers s t read
  exact ⟨m, hm, hf, s, t, filters, read, hRead, holds⟩

/-- A member has lost a number if the one behind that of a node below it is missing. -/
theorem ReadsMember.not_holdsNumbers {m : Member} {s t : ParseState} (h : ReadsMember m s t)
    {x : Node} (hx : x ∈ (Node.member m).descend) (hlt : x.id < m.id)
    (missing : ∀ n ∈ (Node.member m).descend, n.id ≠ x.id + 1) : ¬m.HoldsNumbers s t := by
  intro hm
  have between := h.laid.mem_between
  rw [List.flatMap_singleton] at between
  have hTop := (between _ (Node.member m).mem_descend_self).2
  obtain ⟨n, hn, hid⟩ := hm (x.id + 1) (Nat.le_succ_of_le (between x hx).1)
    (Nat.lt_of_le_of_lt hlt hTop)
  exact missing n hn hid

def useInFilter : List Char :=
  "class C{void M(){var b=new byte[3];try{}catch(E e)when(F(b)){}}}".toList

set_option maxRecDepth 10000 in
/-- The filter of a handler is read and dropped, so that a use in it is no node of the method. -/
theorem exists_function_without_number : (parseSource useInFilter).2 = [] ∧ ∃ m s t,
    .member m ∈ (SyntaxTree.ofUnit (parseSource useInFilter).1).walk ∧
    m.function?.isSome ∧ ReadsMember m s t ∧ ¬m.HoldsNumbers s t := by
  have hErrors : (parseSource useInFilter).2 = [] := by decide +kernel
  obtain ⟨m, hm, hf, gap⟩ := exists_function_of_any
    (SyntaxTree.ofUnit (parseSource useInFilter).1).walk
    (fun n => n.descend.any fun x => decide (x.id < n.id) && n.descend.all (·.id != x.id + 1))
    (by decide +kernel)
  obtain ⟨s, t, read, _⟩ :=
    exists_readsMember (List.map_eq_nil_iff.mp (List.append_eq_nil_iff.mp hErrors).2) hm hf
  obtain ⟨x, hx, gap⟩ := List.any_eq_true.mp gap
  rw [Bool.and_eq_true, decide_eq_true_iff, List.all_eq_true] at gap
  exact ⟨hErrors, m, s, t, hm, hf, read,
    read.not_holdsNumbers hx gap.1 fun n hn => by simpa using gap.2 n hn⟩

end Stackable
