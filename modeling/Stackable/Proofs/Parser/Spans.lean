import Stackable.Proofs.Parser.Extent
import Stackable.Proofs.Parser.PlacesDecl

/-!
# Spans of a source

Every node of a source reaches from the start of a token to the end of one, every error is reported
at tokens, and a walk over the nodes follows the text.
-/

set_option autoImplicit false

namespace Stackable

theorem Laid.sorted {faulty : Prop} {loose : Bool} {a b : Mark} {ns : List Node}
    {source : List Char} (h : Laid faulty loose a b ns) (ho : Tokens.Ordered source a.rest) :
    (ns.flatMap Node.descend).Pairwise fun x y => x.span.start ≤ y.span.start := by
  refine (h.belowOrBehind ho).imp_of_mem fun {x y} hx _ hxy => ?_
  obtain ⟨start, rest, place, hStart, _⟩ := h.placed x hx
  have hPlace := ho.suffix hStart
  rcases hxy with hy | hBehind
  · rcases Node.mem_descend_iff.mp hy with rfl | hy
    · exact Nat.le_refl _
    · obtain ⟨start', rest', place', hStart', hRest'⟩ := place.below.placed y (x.descendants_eq ▸ hy)
      exact (place.span.inside place'.span hPlace hStart' hRest').1
  · exact Nat.le_trans (Nat.le_of_lt (place.span.bounds hPlace).2.2) hBehind

theorem within_tokenize (source : List Char) :
    (ParseState.ofTokens (Lexer.tokenize source).tokens).Within (Lexer.tokenize source).tokens := by
  have hRun := (Lexer.run_tokens source 0 Lexer.maxErrors source [] rfl rfl).1
  have level : ∀ t ∈ (Lexer.tokenize source).tokens, t.span.start ≤ t.span.stop := by
    intro t ht
    rcases List.mem_append.mp ht with ht | ht
    · exact Nat.le_of_lt (hRun t ht).width
    · obtain rfl := List.mem_singleton.mp ht
      exact Nat.le_refl _
  have inLine : Tokens.InLine (Lexer.tokenize source).tokens :=
    ⟨level, (Lexer.ordered_tokenize source).sorted⟩
  have eof : (⟨.eof, Text.byteSize source, Text.byteSize source⟩ : Token) ∈
      (Lexer.tokenize source).tokens := List.mem_append_right _ List.mem_cons_self
  have finish : (ParseState.ofTokens (Lexer.tokenize source).tokens).endOffset =
      Text.byteSize source := by
    simp [ParseState.ofTokens, Lexer.tokenize]
  constructor
  · exact inLine
  · exact List.suffix_refl _
  · rw [finish]
    exact inLine.bound eof
  · intro e he
    cases he

theorem Tokens.Bound.text {source : List Char} {tokens : List Token} {span : Span}
    (h : Tokens.Bound tokens span) (ho : Tokens.Ordered source tokens) :
    span.stop ≤ Text.byteSize source ∧ (span.text? source).isSome := by
  obtain ⟨first, hFirst, last, hLast, rfl, hle⟩ := h
  have hStart := (ho.bounds first hFirst).1
  have hStop := (ho.bounds last hLast).2
  exact ⟨hStop.le, Text.isSome_slice? hStart hStop hle⟩

/-- Where the nodes of a unit and the errors met on the way stand among the tokens of its
source. -/
structure SpansOnTokens (source : List Char) (tokens : List Token) (unit : CompilationUnit)
    (errors : List ParseError) : Prop where
  node : ∀ n ∈ (SyntaxTree.ofUnit unit).walk,
    Tokens.Bound tokens n.span ∧ n.span.start < n.span.stop ∧ (n.span.text? source).isSome
  child : ∀ n ∈ (SyntaxTree.ofUnit unit).walk, ∀ c ∈ n.children,
    n.span.start ≤ c.span.start ∧ c.span.stop ≤ n.span.stop
  siblings : ∀ n ∈ (SyntaxTree.ofUnit unit).walk,
    n.children.Pairwise fun c d => c.span.stop ≤ d.span.start
  error : ∀ e ∈ errors,
    Tokens.Bound tokens e.span ∧ e.span.stop ≤ Text.byteSize source ∧ (e.span.text? source).isSome
  walk : (SyntaxTree.ofUnit unit).walk.Pairwise fun n m => n.span.start ≤ m.span.start

theorem spansOnTokens (source : List Char) :
    SpansOnTokens source (Lexer.tokenize source).tokens
      (parseTokens (Lexer.tokenize source).tokens).1
      (parseTokens (Lexer.tokenize source).tokens).2 := by
  have ordered := Lexer.ordered_tokenize source
  have within := within_tokenize source
  constructor
  case node =>
    intro n hn
    obtain ⟨start, rest, place, hStart⟩ := placed_of_mem_walk hn
    exact ⟨place.span.bound hStart within.inLine, span_start_lt_stop hn, isSome_text? hn⟩
  case child =>
    intro n hn c hc
    exact span_of_mem_descend hn (Node.mem_descend_iff.mpr (.inr (Node.mem_descendants_of_child hc)))
  case siblings =>
    intro n hn
    rw [List.pairwise_iff_getElem]
    intro i j hi hj hij
    apply span_children hn (List.take_append_drop j n.children).symm
    · exact List.mem_take_iff_getElem.mpr ⟨i, by omega, rfl⟩
    · exact List.mem_drop_iff_getElem.mpr ⟨0, by omega, rfl⟩
  case error =>
    intro e he
    have hBound := bound_of_mem_errors within he
    exact ⟨hBound, hBound.text ordered⟩
  case walk =>
    obtain ⟨b, h⟩ := laid_parseTokens (Lexer.tokenize source).tokens
    rw [SyntaxTree.walk_ofUnit, ← List.flatMap_map]
    exact h.sorted ordered

end Stackable
