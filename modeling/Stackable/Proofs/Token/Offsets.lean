import Stackable.Token.Lexer
import Stackable.Source.Span

/-!
# Where tokens stand

The tokens of a source stand one behind the other. Each covers at least one character and starts
and ends between two of them, so that the text under it can be cut out.
-/

set_option autoImplicit false

namespace Stackable

namespace Text

/-- An offset between two characters of a source, or at one of its ends. -/
def Boundary (source : List Char) (n : Nat) : Prop :=
  ∃ pre post, source = pre ++ post ∧ n = byteSize pre

theorem Boundary.le {source : List Char} {n : Nat} (h : Boundary source n) : n ≤ byteSize source := by
  obtain ⟨pre, post, rfl, rfl⟩ := h
  rw [byteSize_append]
  exact Nat.le_add_right _ _

theorem eq_nil_of_byteSize {cs : List Char} (h : byteSize cs = 0) : cs = [] := by
  cases cs with
  | nil => rfl
  | cons c cs =>
    have := c.utf8Size_pos
    simp only [byteSize] at h
    omega

/-- Of two boundaries the earlier one leaves out less of the source. -/
theorem prefix_of_byteSize_le {xs ys source : List Char} (hx : xs <+: source) (hy : ys <+: source)
    (h : byteSize xs ≤ byteSize ys) : xs <+: ys := by
  rcases List.prefix_or_prefix_of_prefix hx hy with hxy | ⟨more, rfl⟩
  · exact hxy
  · rw [byteSize_append] at h
    have hMore : more = [] := eq_nil_of_byteSize (by omega)
    exact ⟨[], by simp [hMore]⟩

/-- Between two boundaries a text can be cut out. -/
theorem isSome_slice? {source : List Char} {start stop : Nat} (hStart : Boundary source start)
    (hStop : Boundary source stop) (h : start ≤ stop) : (slice? source start stop).isSome := by
  obtain ⟨pre, rest, hPre, rfl⟩ := hStart
  obtain ⟨upTo, post, hUpTo, rfl⟩ := hStop
  obtain ⟨mid, rfl⟩ := prefix_of_byteSize_le ⟨rest, hPre.symm⟩ ⟨post, hUpTo.symm⟩ h
  rw [hUpTo, byteSize_append, slice?_append]
  rfl

end Text

/-- Tokens that stand one behind the other in a source. -/
structure Tokens.Ordered (source : List Char) (ts : List Token) : Prop where
  bounds : ∀ t ∈ ts, Text.Boundary source t.span.start ∧ Text.Boundary source t.span.stop
  width : ∀ t ∈ ts, t.kind.isEof = false → t.span.start < t.span.stop
  sorted : ts.Pairwise fun x y => x.span.stop ≤ y.span.start

namespace Lexer

/-- A token of the text that is left behind `pre`. -/
structure Behind (source : List Char) (pre : List Char) (t : Token) : Prop where
  start : Text.Boundary source t.span.start
  stop : Text.Boundary source t.span.stop
  after : Text.byteSize pre ≤ t.span.start
  width : t.span.start < t.span.stop

theorem Behind.later {source pre more : List Char} {t : Token} (h : Behind source (pre ++ more) t) :
    Behind source pre t := by
  have := h.after
  rw [Text.byteSize_append] at this
  exact ⟨h.start, h.stop, Nat.le_trans (Nat.le_add_right _ _) this, h.width⟩

theorem run_blank {a : Char} {cs : List Char} {offset budget : Nat} (hBudget : budget ≠ 0)
    (h : (munch a cs).piece = .blank) :
    run offset budget (a :: cs) =
      run (offset + a.utf8Size + Text.byteSize (cs.take (munch a cs).extra)) budget
        (cs.drop (munch a cs).extra) := by
  rw [run, if_neg hBudget]
  simp only [h]

theorem run_token {a : Char} {cs : List Char} {offset budget stop : Nat} {kind : TokenKind}
    (hBudget : budget ≠ 0) (h : (munch a cs).piece = .token kind)
    (hStop : stop = offset + a.utf8Size + Text.byteSize (cs.take (munch a cs).extra)) :
    run offset budget (a :: cs) =
      ⟨⟨kind, offset, stop⟩ :: (run stop budget (cs.drop (munch a cs).extra)).tokens,
        (run stop budget (cs.drop (munch a cs).extra)).errors⟩ := by
  rw [run, if_neg hBudget, hStop]
  simp only [h]

/-- A cut goes over to the text in front. -/
theorem cut {source pre cs : List Char} {c : Char} (h : source = pre ++ c :: cs) (n : Nat) :
    source = (pre ++ c :: cs.take n) ++ cs.drop n ∧
    Text.byteSize pre + c.utf8Size + Text.byteSize (cs.take n) =
      Text.byteSize (pre ++ c :: cs.take n) := by
  constructor
  · rw [h, List.append_assoc, List.cons_append, List.take_append_drop]
  · rw [Text.byteSize_append, Text.byteSize, Nat.add_assoc]

theorem run_tokens (source : List Char) (offset budget : Nat) (cs : List Char) :
    ∀ pre, source = pre ++ cs → offset = Text.byteSize pre →
      (∀ t ∈ (run offset budget cs).tokens, Behind source pre t) ∧
      (run offset budget cs).tokens.Pairwise fun x y => x.span.stop ≤ y.span.start := by
  fun_induction run offset budget cs with
  | case1 | case2 => simp
  | case3 offset budget c cs hBudget m stop hBlank ih =>
    rintro pre hSource rfl
    obtain ⟨hCut, hStop⟩ := cut hSource m.extra
    obtain ⟨hTokens, hSorted⟩ := ih _ hCut hStop
    exact ⟨fun t ht => (hTokens t ht).later, hSorted⟩
  | case4 offset budget c cs hBudget m stop kind hKind r ih =>
    rintro pre hSource rfl
    obtain ⟨hCut, hStop⟩ := cut hSource m.extra
    obtain ⟨hTokens, hSorted⟩ := ih _ hCut hStop
    have first : Behind source pre ⟨kind, Text.byteSize pre, stop⟩ := by
      refine ⟨⟨pre, _, hSource, rfl⟩, ⟨_, _, hCut, hStop⟩, Nat.le_refl _, ?_⟩
      have := c.utf8Size_pos
      simp only [stop]
      omega
    constructor
    · intro t ht
      rcases List.mem_cons.mp ht with rfl | ht
      · exact first
      · exact (hTokens t ht).later
    · refine List.pairwise_cons.mpr ⟨fun t ht => ?_, hSorted⟩
      exact Nat.le_trans (Nat.le_of_eq hStop) (hTokens t ht).after
  | case5 offset budget c cs hBudget m stop cause hCause r ih =>
    rintro pre hSource rfl
    obtain ⟨hCut, hStop⟩ := cut hSource m.extra
    obtain ⟨hTokens, hSorted⟩ := ih _ hCut hStop
    exact ⟨fun t ht => (hTokens t ht).later, hSorted⟩

/-- A token covers a cut of the text. -/
theorem exists_munch_of_mem_run {offset budget : Nat} {cs : List Char} {t : Token}
    (h : t ∈ (run offset budget cs).tokens) :
    ∃ pre a rest, cs = pre ++ a :: rest ∧ (munch a rest).piece = .token t.kind ∧
      t.span.start = offset + Text.byteSize pre ∧
      t.span.stop = t.span.start + Text.byteSize (a :: rest.take (munch a rest).extra) := by
  -- what is found behind a cut is found in the whole text
  have later : ∀ {offset b cs n}, (∃ pre a rest, cs.drop n = pre ++ a :: rest ∧
        (munch a rest).piece = .token t.kind ∧
        t.span.start = offset + b.utf8Size + Text.byteSize (cs.take n) + Text.byteSize pre ∧
        t.span.stop = t.span.start + Text.byteSize (a :: rest.take (munch a rest).extra)) →
      ∃ pre a rest, b :: cs = pre ++ a :: rest ∧ (munch a rest).piece = .token t.kind ∧
        t.span.start = offset + Text.byteSize pre ∧
        t.span.stop = t.span.start + Text.byteSize (a :: rest.take (munch a rest).extra) := by
    rintro offset b cs n ⟨pre, a, rest, hDrop, hPiece, hStart, hStop⟩
    refine ⟨b :: (cs.take n ++ pre), a, rest, ?_, hPiece, ?_, hStop⟩
    · rw [List.cons_append, List.append_assoc, ← hDrop, List.take_append_drop]
    · rw [hStart, Text.byteSize, Text.byteSize_append]
      omega
  fun_induction run offset budget cs with
  | case1 | case2 => cases h
  | case3 offset budget a cs hBudget m stop hBlank ih => exact later (ih h)
  | case4 offset budget a cs hBudget m stop kind hPiece r ih =>
    rcases List.mem_cons.mp h with rfl | h
    · exact ⟨[], a, cs, rfl, hPiece, rfl, Nat.add_assoc ..⟩
    · exact later (ih h)
  | case5 offset budget a cs hBudget m stop cause hCause r ih => exact later (ih h)

theorem ordered_tokenize (source : List Char) :
    Tokens.Ordered source (tokenize source).tokens := by
  obtain ⟨hTokens, hSorted⟩ := run_tokens source 0 maxErrors source [] rfl rfl
  have hEnd : Text.Boundary source (Text.byteSize source) := ⟨source, [], by simp, rfl⟩
  have mem : ∀ t ∈ (tokenize source).tokens,
      t ∈ (run 0 maxErrors source).tokens ∨
        t = ⟨.eof, Text.byteSize source, Text.byteSize source⟩ := by
    intro t ht
    simpa [tokenize] using ht
  refine ⟨fun t ht => ?_, fun t ht hEof => ?_, ?_⟩
  · rcases mem t ht with ht | rfl
    · exact ⟨(hTokens t ht).start, (hTokens t ht).stop⟩
    · exact ⟨hEnd, hEnd⟩
  · rcases mem t ht with ht | rfl
    · exact (hTokens t ht).width
    · cases hEof
  · refine List.pairwise_append.mpr ⟨hSorted, List.pairwise_singleton _ _, fun x hx y hy => ?_⟩
    obtain rfl := List.mem_singleton.mp hy
    exact (hTokens x hx).stop.le

theorem sorted_tokenize (source : List Char) :
    (tokenize source).tokens.Pairwise fun x y => x.span.start < y.span.start := by
  obtain ⟨hTokens, hSorted⟩ := run_tokens source 0 maxErrors source [] rfl rfl
  apply List.pairwise_append.mpr
  refine ⟨hSorted.imp_of_mem fun hx _ h => Nat.lt_of_lt_of_le (hTokens _ hx).width h,
    List.pairwise_singleton _ _, fun x hx y hy => ?_⟩
  obtain rfl := List.mem_singleton.mp hy
  exact Nat.lt_of_lt_of_le (hTokens x hx).width (hTokens x hx).stop.le

end Lexer

end Stackable
