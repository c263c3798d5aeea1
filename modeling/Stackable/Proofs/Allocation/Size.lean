import Stackable.Proofs.Allocation.Findings
import Stackable.Proofs.Shape.Decl

/-!
# What the verdict on a size means

A creation that was read has brackets, and so its type is known. Each verdict on its size is met by
a property of what is written: the brackets, the number between them and the width of the element
type. The product of width and number counts as a natural number, so that it never wraps.
-/

set_option autoImplicit false

namespace Stackable

/-- The number that a written size stands for: an integer, or a constant with an integer that can
be counted or a character as its value. -/
inductive Model.Denotes (m : Model) : Expr → Nat → Prop where
  | literal {id : NodeId} {n : Nat} {suffix : Option IntSuffix} {span : Span} :
      m.Denotes ⟨id, .int n suffix, span⟩ n
  | constInt {size : Expr} {n : Nat} (ref : m.isConstantReference size = true)
      (value : m.constantValue? size = some (.int n)) (bound : n < Nat.pow 2 64) : m.Denotes size n
  | constChar {size : Expr} {c : Char} (ref : m.isConstantReference size = true)
      (value : m.constantValue? size = some (.char c)) : m.Denotes size c.toNat

namespace Site

/-- More than one pair of brackets, or more than one dimension in the first pair. -/
def HasDimensions (s : Site) : Prop := 1 < s.ranks.length ∨ 1 < s.rank

/-- The number of elements: as written, or else that of the initializer. -/
inductive HasCount (m : Model) (s : Site) : Nat → Prop where
  | written {size : Expr} {n : Nat} (written : sizeExpr? s.ranks = some size)
      (denotes : m.Denotes size n) : s.HasCount m n
  | listed {elements : List Expr} (omitted : sizeExpr? s.ranks = none)
      (initializer : s.initializer = some elements) : s.HasCount m elements.length

/-- The verdict on the size of a site, one case after the other. -/
structure SizeMeaning (m : Model) (s : Site) : Prop where
  resolved : s.size m ≠ .indeterminate .unresolved
  rank : s.size m = .indeterminate .rank ↔ s.HasDimensions
  nonConstantCount : s.size m = .indeterminate .nonConstantCount ↔
    ¬ s.HasDimensions ∧ ∃ size, sizeExpr? s.ranks = some size ∧ ∀ n, ¬ m.Denotes size n
  sized : ∀ bytes, s.size m = .sized bytes ↔
    ¬ s.HasDimensions ∧ ∃ count, s.HasCount m count ∧ ∃ width,
      (m.resolveType s.element).width? = some width ∧ bytes = width * count ∧ bytes ≤ sizeThreshold
  exceeds : (∃ bytes, s.size m = .exceeds bytes) ↔
    ¬ s.HasDimensions ∧ ∃ count, s.HasCount m count ∧
      ∀ width, (m.resolveType s.element).width? = some width → sizeThreshold < width * count

end Site

theorem TypeSymbol.isArray_arrays {t : TypeSymbol} (h : t.isArray = false) (ranks : List Nat) :
    (arrays t ranks).isArray = true ↔ ranks ≠ [] := by
  cases ranks with
  | nil => simp [arrays, h]
  | cons => simp [arrays, isArray]

theorem Model.isArray_resolveType (m : Model) {t : TypeRef} (h : t.kind.IsSimple) :
    (m.resolveType t).isArray = false := by
  obtain ⟨kind, span⟩ := t
  cases kind with
  | array element ranks => exact absurd rfl (h element ranks)
  | named path args =>
    rw [resolveType, resolveName]
    split
    · rfl
    · split <;> rfl
  | predefined | pointer | nullable => rfl

theorem Expr.Formed.unparenthesized {e : Expr} (h : e.Formed) : e.unparenthesized.Formed := by
  obtain ⟨id, kind, span⟩ := e
  cases kind with
  | paren inner =>
    have hInner : inner.Formed := (Expr.formed_iff.mp h).2 inner List.mem_cons_self
    exact hInner.unparenthesized
  | _ => exact h

theorem Expr.unparenthesized_of_int {e : Expr} {v : Nat} {suffix : Option IntSuffix}
    (h : e.kind = .int v suffix) : e.unparenthesized = e := by
  obtain ⟨id, kind, span⟩ := e
  cases h
  rfl

/-- A number names nothing. -/
theorem Model.isConstantReference_of_int (m : Model) {e : Expr} {v : Nat} {suffix : Option IntSuffix}
    (h : e.kind = .int v suffix) : m.isConstantReference e = false := by
  unfold isConstantReference bind
  simp only [Expr.unparenthesized_of_int h, h]

theorem Site.countOf?_eq_some {v : Int} {n : Nat} :
    countOf? v = some n ↔ v = n ∧ n < Nat.pow 2 64 := by
  unfold countOf? unboundedWidth
  rw [show Nat.pow 2 64 = 18446744073709551616 from rfl]
  split
  · rw [Option.some.injEq]
    omega
  · simp only [reduceCtorEq, false_iff]
    omega

theorem Model.denotes_of_int (m : Model) {size : Expr} {v n : Nat} {suffix : Option IntSuffix}
    (h : size.kind = .int v suffix) : m.Denotes size n ↔ n = v := by
  have named := m.isConstantReference_of_int h
  constructor
  · rintro (_ | ⟨ref, _, _⟩ | ⟨ref, _⟩)
    · cases h
      rfl
    · exact absurd ref (by simp [named])
    · exact absurd ref (by simp [named])
  · rintro rfl
    obtain ⟨id, kind, span⟩ := size
    cases h
    exact .literal

theorem ConstValue.int?_eq_some {v : ConstValue} {i : Int} :
    v.int? = some i ↔ v = .int i ∨ ∃ c : Char, v = .char c ∧ i = c.toNat := by
  cases v <;> simp [int?, eq_comm]

theorem Char.toNat_lt_two_pow (c : Char) : c.toNat < Nat.pow 2 64 :=
  Nat.lt_trans c.val.toNat_lt (by decide)

theorem Model.denotes_of_name (m : Model) {size : Expr} {n : Nat}
    (h : ∀ v suffix, size.kind ≠ .int v suffix) :
    m.Denotes size n ↔ m.isConstantReference size = true ∧
      ∃ v i, m.constantValue? size = some v ∧ v.int? = some i ∧ Site.countOf? i = some n := by
  simp only [ConstValue.int?_eq_some, Site.countOf?_eq_some]
  constructor
  · rintro (_ | ⟨ref, value, bound⟩ | @⟨_, c, ref, value⟩)
    · exact absurd rfl (h _ _)
    · exact ⟨ref, _, n, value, .inl rfl, rfl, bound⟩
    · exact ⟨ref, _, _, value, .inr ⟨c, rfl, rfl⟩, rfl, Char.toNat_lt_two_pow c⟩
  · rintro ⟨ref, v, i, value, rfl | ⟨c, rfl, rfl⟩, hi, bound⟩
    · subst hi
      exact .constInt ref value bound
    · cases hi
      exact .constChar ref value

namespace Site

/-- A site whose creation was read. -/
structure Formed (s : Site) : Prop where
  kind : s.expr.kind = .arrayCreation s.element s.ranks s.initializer
  form : CreationForm s.expr.span.start s.element s.ranks s.initializer
  size : ∀ size ∈ sizeExpr? s.ranks, size.kind.Formed size.span.start

variable {m : Model} {s : Site}

theorem Formed.exists_head (h : s.Formed) : ∃ size sizes span inner,
    s.ranks = ⟨size :: sizes, span⟩ :: inner := by
  cases hRanks : s.ranks with
  | nil => exact absurd hRanks h.form.bracketed
  | cons outer inner =>
    obtain ⟨sizes, span⟩ := outer
    cases sizes with
    | nil => exact absurd rfl (h.form.dimensions ⟨[], span⟩ (hRanks ▸ List.mem_cons_self))
    | cons size sizes => exact ⟨size, sizes, span, inner, rfl⟩

/-- Where no size is written there are elements. -/
theorem Formed.exists_elements (h : s.Formed) (omitted : sizeExpr? s.ranks = none) :
    ∃ elements, s.initializer = some elements := by
  obtain ⟨size, sizes, span, inner, hRanks⟩ := h.exists_head
  cases hInit : s.initializer with
  | some elements => exact ⟨elements, rfl⟩
  | none =>
    have counted := h.form.counted hInit
    rw [hRanks] at counted omitted
    cases size with
    | none => simp [Parse.isSized] at counted
    | some size => simp [sizeExpr?] at omitted

theorem hasCount_iff_of_written {size : Expr} (written : sizeExpr? s.ranks = some size) {n : Nat} :
    s.HasCount m n ↔ m.Denotes size n := by
  constructor
  · rintro (⟨written', denotes⟩ | ⟨omitted, _⟩)
    · cases written.symm.trans written'
      exact denotes
    · cases written.symm.trans omitted
  · exact .written written

theorem hasCount_iff_of_omitted (omitted : sizeExpr? s.ranks = none) {n : Nat} :
    s.HasCount m n ↔ ∃ elements, s.initializer = some elements ∧ elements.length = n := by
  constructor
  · rintro (⟨written, _⟩ | ⟨_, initializer⟩)
    · cases omitted.symm.trans written
    · exact ⟨_, initializer, rfl⟩
  · rintro ⟨elements, initializer, rfl⟩
    exact .listed omitted initializer

theorem elementCount?_eq_some (h : s.Formed) {n : Nat} :
    s.elementCount? m = some n ↔ s.HasCount m n := by
  obtain ⟨size, sizes, span, inner, hRanks⟩ := h.exists_head
  unfold elementCount?
  cases size with
  | none =>
    have omitted : sizeExpr? s.ranks = none := by rw [hRanks]; rfl
    rw [hasCount_iff_of_omitted omitted, hRanks]
    exact Option.map_eq_some_iff
  | some size =>
    have written : sizeExpr? s.ranks = some size.unparenthesized := by rw [hRanks]; rfl
    have formed := h.size _ written
    rw [hasCount_iff_of_written written, hRanks]
    simp only [List.head?_cons, Option.bind_eq_bind, Option.bind_some]
    generalize size.unparenthesized = size at formed
    split
    next v suffix hInt =>
      rw [hInt] at formed
      rw [countOf?_eq_some, m.denotes_of_int hInt]
      constructor
      · rintro ⟨hv, _⟩
        exact Int.ofNat_inj.mp hv.symm
      · rintro rfl
        exact ⟨rfl, formed⟩
    next hName =>
      rw [m.denotes_of_name hName]
      cases hRef : m.isConstantReference size with
      | false => simp
      | true => simp [Option.bind_eq_some_iff]

theorem elementCount?_eq_none (h : s.Formed) :
    s.elementCount? m = none ↔ ∃ size, sizeExpr? s.ranks = some size ∧ ∀ n, ¬ m.Denotes size n := by
  have none_iff : s.elementCount? m = none ↔ ∀ n, ¬ s.HasCount m n := by
    simp only [Option.eq_none_iff_forall_ne_some, ne_eq, elementCount?_eq_some h]
  rw [none_iff]
  cases hSize : sizeExpr? s.ranks with
  | none =>
    -- elements are given, and they are counted
    obtain ⟨elements, initializer⟩ := h.exists_elements hSize
    simp only [reduceCtorEq, false_and, exists_false, iff_false, not_forall, not_not]
    exact ⟨_, .listed hSize initializer⟩
  | some size => simp [hasCount_iff_of_written hSize]

variable {t : TypeSymbol} {count : Nat}

theorem sizeOfElements_eq_sized {bytes : Nat} : sizeOfElements t count = .sized bytes ↔
    ∃ width, t.width? = some width ∧ bytes = width * count ∧ bytes ≤ sizeThreshold := by
  unfold sizeOfElements
  cases t.width? with
  | none => simp
  | some width =>
    simp only [Option.some.injEq, exists_eq_left']
    unfold sizeThreshold unboundedWidth
    by_cases hLarge : 1024 < width * count
    · rw [if_pos (by omega)]
      simp only [reduceCtorEq, false_iff]
      omega
    · rw [if_neg (by omega), SizeVerdict.sized.injEq]
      omega

theorem sizeOfElements_exceeds : (∃ bytes, sizeOfElements t count = .exceeds bytes) ↔
    ∀ width, t.width? = some width → sizeThreshold < width * count := by
  unfold sizeOfElements
  cases t.width? with
  | none => simp
  | some width =>
    simp only [Option.some.injEq, forall_eq']
    unfold sizeThreshold unboundedWidth
    by_cases hLarge : 1024 < width * count
    · rw [if_pos (by omega)]
      simpa using hLarge
    · rw [if_neg (by omega)]
      simpa using hLarge

theorem sizeOfElements_ne_indeterminate (failure : SizeFailure) :
    sizeOfElements t count ≠ .indeterminate failure := by
  unfold sizeOfElements
  split
  · simp
  · dsimp only
    split <;> simp

instance (s : Site) : Decidable s.HasDimensions := inferInstanceAs (Decidable (_ ∨ _))

theorem size_eq (h : s.Formed) : s.size m =
    if s.HasDimensions then .indeterminate .rank
    else
      match s.elementCount? m with
      | none => .indeterminate .nonConstantCount
      | some count => sizeOfElements (m.resolveType s.element) count := by
  obtain ⟨size, sizes, span, inner, hRanks⟩ := h.exists_head
  have type : m.arrayType? s.expr = some (.arrays (m.resolveType s.element)
      (inner.map (·.sizes.length)), (size :: sizes).length) := by
    unfold Model.arrayType?
    rw [h.kind, hRanks]
  have dimensions : s.HasDimensions ↔ 1 < (size :: sizes).length ∨ inner ≠ [] := by
    unfold HasDimensions rank
    rw [hRanks, or_comm]
    cases inner <;> simp
  unfold Site.size
  rw [type]
  simp only [TypeSymbol.isArray_arrays (m.isArray_resolveType h.form.simple), ne_eq,
    List.map_eq_nil_iff, dimensions]
  split
  · rfl
  next hSimple =>
    obtain rfl : inner = [] := by
      by_contra hInner
      exact hSimple (.inr hInner)
    rfl

theorem Formed.sizeMeaning (h : s.Formed) : s.SizeMeaning m := by
  have eq := size_eq (m := m) h
  have none_iff := elementCount?_eq_none (m := m) h
  by_cases hDimensions : s.HasDimensions
  · rw [if_pos hDimensions] at eq
    constructor <;> simp [eq, hDimensions]
  rw [if_neg hDimensions] at eq
  cases hCount : s.elementCount? m with
  | none =>
    have uncounted : ∀ n, ¬ s.HasCount m n := by
      intro n hn
      rw [← elementCount?_eq_some h, hCount] at hn
      cases hn
    rw [hCount] at eq
    constructor <;> simp [eq, hDimensions, uncounted, none_iff.mp hCount]
  | some count =>
    have counted : ∀ n, s.HasCount m n ↔ n = count := by
      intro n
      rw [← elementCount?_eq_some h, hCount, Option.some.injEq, eq_comm]
    have named : ¬ ∃ size, sizeExpr? s.ranks = some size ∧ ∀ n, ¬ m.Denotes size n := by
      rw [← none_iff, hCount]
      simp
    rw [hCount] at eq
    constructor
    · rw [eq]
      exact sizeOfElements_ne_indeterminate _
    · simpa [hDimensions, eq] using sizeOfElements_ne_indeterminate _
    · simpa [hDimensions, eq, named] using sizeOfElements_ne_indeterminate _
    · intro bytes
      simp only [eq, hDimensions, counted, sizeOfElements_eq_sized, not_false_eq_true, true_and,
        exists_eq_left]
    · simp only [eq, hDimensions, counted, sizeOfElements_exceeds, not_false_eq_true, true_and,
        exists_eq_left]

theorem formed_of_creation {source : List Char} {e : Expr}
    (h : .expr e ∈ (SyntaxTree.ofUnit (parseSource source).1).walk) {element : TypeRef}
    {ranks : List (RankSpecifier Expr)} {initializer : Option (List Expr)}
    (hKind : e.kind = .arrayCreation element ranks initializer) (hs : Site.ofExpr? m e = some s) :
    s.Formed := by
  have formed := formed_of_mem_walk h
  obtain ⟨form, operands⟩ := Expr.formed_iff.mp formed
  unfold ofExpr? at hs
  rw [hKind] at form operands hs
  cases hs
  refine ⟨hKind, form, fun size hSize => ?_⟩
  obtain ⟨written, hWritten, rfl⟩ := Option.map_eq_some_iff.mp hSize
  obtain ⟨rank, hRank, hSizes⟩ := Option.bind_eq_some_iff.mp (Option.join_eq_some_iff.mp hWritten)
  have mem : written ∈ ranks.flatMap fun r => r.sizes.filterMap fun size => size :=
    List.mem_flatMap.mpr ⟨rank, List.mem_of_mem_head? hRank,
      List.mem_filterMap.mpr ⟨some written, List.mem_of_mem_head? hSizes, rfl⟩⟩
  exact (Expr.formed_iff.mp (operands written (List.mem_append_left _ mem)).unparenthesized).1

end Site

/-- Whatever a source is, errors or not, the size of each array creation in it is what its brackets,
its number of elements and its element type make it. -/
theorem size_of_array_creation (source : List Char) (e : Expr)
    (h : e ∈ (SyntaxTree.ofUnit (parseSource source).1).arrayCreations) :
    ∃ s, Site.ofExpr? (.ofUnit (parseSource source).1) e = some s ∧
      s.SizeMeaning (.ofUnit (parseSource source).1) := by
  obtain ⟨hWalk, element, ranks, initializer, hKind⟩ := SyntaxTree.mem_arrayCreations.mp h
  have hSite : ∃ s, Site.ofExpr? (.ofUnit (parseSource source).1) e = some s := by
    unfold Site.ofExpr?
    rw [hKind]
    exact ⟨_, rfl⟩
  obtain ⟨s, hs⟩ := hSite
  exact ⟨s, hs, (Site.formed_of_creation hWalk hKind hs).sizeMeaning⟩

set_option maxRecDepth 10000 in
/-- A character counts by its code point. -/
theorem size_of_creation_by_character :
    let unit := (parseSource
      "class C{const char N=(char)65;void M(){var x=new int[(N)];}}".toList).1
    ∃ e ∈ (SyntaxTree.ofUnit unit).arrayCreations, ∃ s, Site.ofExpr? (.ofUnit unit) e = some s ∧
      s.SizeMeaning (.ofUnit unit) ∧ s.size (.ofUnit unit) = .sized 260 := by
  intro unit
  have sized : ((SyntaxTree.ofUnit unit).arrayCreations.any fun e =>
      (Site.ofExpr? (.ofUnit unit) e).any (·.size (.ofUnit unit) == .sized 260)) = true := by
    decide +kernel
  obtain ⟨e, he, sized⟩ := List.any_eq_true.mp sized
  obtain ⟨s, hs, meaning⟩ := size_of_array_creation _ e he
  rw [hs, Option.any_some, beq_iff_eq] at sized
  exact ⟨e, he, s, hs, meaning, sized⟩

end Stackable
