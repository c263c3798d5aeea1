import Stackable.Proofs.Respelling.Tree
import Stackable.Proofs.Source.Lines

/-!
# Places in the respelled text

The respelled word stands on one line. So the lines of the respelled text start where those of the
text have moved to, an offset stays on its line, and its column grows by seven exactly if the word
is in front of it on the same line.
-/

set_option autoImplicit false

namespace Stackable

namespace Respelling

variable {v : Respelling} {pre post : List Char}

section

variable (hSize : Text.byteSize (pre ++ ("stackalloc".toList ++ post)) < 4294967296)
include hSize

theorem byteSize_source : Text.byteSize (pre ++ ("new".toList ++ post)) < 4294967296 := by
  have hLess : Text.byteSize "new".toList ≤ Text.byteSize "stackalloc".toList := by decide
  simp only [Text.byteSize_append] at hSize ⊢
  omega

theorem starts_respelled (hWord : v.word = Text.byteSize pre) :
    (LineMap.ofSource (pre ++ ("stackalloc".toList ++ post))).starts =
      (LineMap.ofSource (pre ++ ("new".toList ++ post))).starts.map v.shift := by
  have hBefore : (0 :: LineMap.startsAfter 0 pre).map v.shift = 0 :: LineMap.startsAfter 0 pre := by
    rw [List.map_congr_left (g := id), List.map_id]
    intro n hn
    apply v.shift_of_le
    rcases List.mem_cons.mp hn with rfl | hn
    · exact Nat.zero_le _
    · have := (LineMap.bounds_of_mem_startsAfter hn).2
      omega
  have hBehind : (LineMap.startsAfter (Text.byteSize pre + 3) post).map v.shift =
      LineMap.startsAfter (Text.byteSize pre + 10) post := by
    rw [show Text.byteSize pre + 10 = Text.byteSize pre + 3 + 7 from rfl, LineMap.startsAfter_add _ 7]
    apply List.map_congr_left
    intro n hn
    apply v.shift_of_lt
    have := (LineMap.bounds_of_mem_startsAfter hn).1
    omega
  have hNew : LineMap.startsAfter (0 + Text.byteSize pre) ("new".toList ++ post) =
      LineMap.startsAfter (Text.byteSize pre + 3) post := by
    rw [LineMap.startsAfter_append, Nat.zero_add]
    rfl
  have hAlloc : LineMap.startsAfter (0 + Text.byteSize pre) ("stackalloc".toList ++ post) =
      LineMap.startsAfter (Text.byteSize pre + 10) post := by
    rw [LineMap.startsAfter_append, Nat.zero_add]
    rfl
  rw [LineMap.starts_eq hSize, LineMap.starts_eq (byteSize_source hSize),
    LineMap.startsAfter_append _ pre, LineMap.startsAfter_append _ pre, hNew, hAlloc,
    ← List.cons_append, ← List.cons_append, List.map_append, hBefore, hBehind]

/-- No line starts inside the word. -/
theorem start_outside_word (hWord : v.word = Text.byteSize pre) {n : Nat}
    (h : n ∈ (LineMap.ofSource (pre ++ ("new".toList ++ post))).starts) :
    n ≤ v.word ∨ v.word + 3 ≤ n := by
  rw [LineMap.starts_eq (byteSize_source hSize)] at h
  rcases List.mem_cons.mp h with rfl | h
  · exact .inl (Nat.zero_le _)
  · rw [LineMap.startsAfter_append, Nat.zero_add] at h
    rcases List.mem_append.mp h with h | h
    · have := (LineMap.bounds_of_mem_startsAfter h).2
      omega
    · rw [LineMap.startsAfter_append] at h
      have hBehind : n ∈ LineMap.startsAfter (Text.byteSize pre + 3) post := h
      have := (LineMap.bounds_of_mem_startsAfter hBehind).1
      omega

theorem takeWhile_respelled (hWord : v.word = Text.byteSize pre) (o : Nat) :
    (LineMap.ofSource (pre ++ ("stackalloc".toList ++ post))).starts.takeWhile (· ≤ v.shift o) =
      ((LineMap.ofSource (pre ++ ("new".toList ++ post))).starts.takeWhile (· ≤ o)).map v.shift := by
  have hSame : (fun n => decide (n ≤ v.shift o)) ∘ v.shift = fun n => decide (n ≤ o) := by
    funext n
    simp [shift_le_shift]
  rw [starts_respelled hSize hWord, List.takeWhile_map, hSame]

theorem lineStart_respelled (hWord : v.word = Text.byteSize pre) (o : Nat) :
    (LineMap.ofSource (pre ++ ("stackalloc".toList ++ post))).lineStart (v.shift o) =
      v.shift ((LineMap.ofSource (pre ++ ("new".toList ++ post))).lineStart o) := by
  unfold LineMap.lineStart
  rw [takeWhile_respelled hSize hWord]
  generalize (LineMap.ofSource (pre ++ ("new".toList ++ post))).starts.takeWhile (· ≤ o) = l
  have hMap : ∀ (l : List Nat) (a : Nat), (l.map v.shift).getLastD (v.shift a) =
      v.shift (l.getLastD a) := by
    intro l
    induction l with
    | nil => exact fun _ => rfl
    | cons b l ih =>
      intro _
      rw [List.map_cons, List.getLastD_cons, List.getLastD_cons, ih]
  have hZero : v.shift 0 = 0 := v.shift_of_le (Nat.zero_le _)
  rw [← hMap, hZero]

end

theorem byteSize_new (pre : List Char) :
    Text.byteSize (pre ++ "new".toList) = Text.byteSize pre + 3 :=
  Text.byteSize_append pre _

theorem byteSize_stackalloc (pre : List Char) :
    Text.byteSize (pre ++ "stackalloc".toList) = Text.byteSize pre + 10 :=
  Text.byteSize_append pre _

/-- A cut that does not touch the word. -/
theorem slice?_respelled (hWord : v.word = Text.byteSize pre) {start stop : Nat} {mid : List Char}
    (h : Text.slice? (pre ++ ("new".toList ++ post)) start stop = some mid)
    (hApart : stop ≤ v.word ∨ v.word + 3 ≤ start) :
    Text.slice? (pre ++ ("stackalloc".toList ++ post)) (v.shift start) (v.shift stop) = some mid := by
  obtain ⟨a, b, _, hStart, hStop⟩ := Text.slice?_eq_some_iff.mp h
  rw [Text.byteSize_append] at hStop
  rcases hApart with hBefore | hBehind
  · rw [v.shift_of_le (by omega), v.shift_of_le hBefore]
    exact Text.slice?_append_left h (hWord ▸ hBefore) _
  · have hSplit : ∀ n, v.word + 3 ≤ n →
        n = Text.byteSize (pre ++ "new".toList) + (n - v.word - 3) ∧
        v.shift n = Text.byteSize (pre ++ "stackalloc".toList) + (n - v.word - 3) := by
      intro n hn
      rw [byteSize_new, byteSize_stackalloc, v.shift_of_lt (by omega)]
      omega
    obtain ⟨hFrom, hTo⟩ := hSplit start hBehind
    obtain ⟨hFrom', hTo'⟩ := hSplit stop (by omega)
    rw [hFrom, hFrom', ← List.append_assoc] at h
    rw [hTo, hTo', ← List.append_assoc]
    exact Text.slice?_append_right h _

/-- A cut around the word grows by seven code units. -/
theorem unitSize_respelled (hWord : v.word = Text.byteSize pre) {start stop : Nat} {mid : List Char}
    (h : Text.slice? (pre ++ ("new".toList ++ post)) start stop = some mid)
    (hStart : start ≤ v.word) (hStop : v.word + 3 ≤ stop) :
    ∃ grown, Text.slice? (pre ++ ("stackalloc".toList ++ post)) (v.shift start) (v.shift stop) =
      some grown ∧ Text.unitSize grown = Text.unitSize mid + 7 := by
  have hEnd : Text.byteSize (pre ++ "new".toList) ≤ stop := by
    rw [byteSize_new]
    omega
  obtain ⟨x, y, rfl, hGrown⟩ :=
    Text.slice?_replace h (hWord ▸ hStart) hEnd "stackalloc".toList
  refine ⟨x ++ "stackalloc".toList ++ y, ?_, ?_⟩
  · rw [← hGrown, byteSize_new, byteSize_stackalloc, v.shift_of_le hStart, v.shift_of_lt (by omega)]
    congr 1
    omega
  · have hUnits : Text.unitSize "new".toList = 3 ∧ Text.unitSize "stackalloc".toList = 10 := by
      decide
    simp only [Text.unitSize_append, hUnits]
    omega

/-- The word in front of an offset on its line. -/
def Precedes (v : Respelling) (source : List Char) (offset : Nat) : Prop :=
  v.word < offset ∧ ((LineMap.ofSource source).position offset).line =
    ((LineMap.ofSource source).position v.word).line

instance (source : List Char) (offset : Nat) : Decidable (v.Precedes source offset) :=
  inferInstanceAs (Decidable (_ ∧ _))

theorem editorPosition_respelled
    (hSize : Text.byteSize (pre ++ ("stackalloc".toList ++ post)) < 4294967296)
    (hWord : v.word = Text.byteSize pre) {offset : Nat}
    (hBoundary : Text.Boundary (pre ++ ("new".toList ++ post)) offset)
    (hApart : offset ≤ v.word ∨ v.word + 3 ≤ offset) :
    (LineMap.ofSource (pre ++ ("stackalloc".toList ++ post))).editorPosition (v.shift offset) =
      ⟨((LineMap.ofSource (pre ++ ("new".toList ++ post))).editorPosition offset).line,
        ((LineMap.ofSource (pre ++ ("new".toList ++ post))).editorPosition offset).column +
          if v.Precedes (pre ++ ("new".toList ++ post)) offset then 7 else 0⟩ := by
  obtain ⟨before, hBefore⟩ := LineMap.exists_slice_lineStart (byteSize_source hSize) hBoundary
  have hOffset : offset + 7 < 4294967296 := by
    have hLe := hBoundary.le
    have hGrows : Text.byteSize "stackalloc".toList = Text.byteSize "new".toList + 7 := by decide
    simp only [Text.byteSize_append] at hLe hSize
    omega
  have hShift : v.shift offset < 4294967296 := by
    unfold shift
    split <;> omega
  have hLine : ((LineMap.ofSource (pre ++ ("stackalloc".toList ++ post))).position
      (v.shift offset)).line =
        ((LineMap.ofSource (pre ++ ("new".toList ++ post))).position offset).line := by
    rw [LineMap.position_eq hShift, LineMap.position_eq (by omega), takeWhile_respelled hSize hWord]
    exact List.length_map _
  -- it is enough to know the text in front of the offset on its line
  have finish : ∀ {grown : List Char} {k : Nat},
      Text.slice? (pre ++ ("stackalloc".toList ++ post))
        (v.shift ((LineMap.ofSource (pre ++ ("new".toList ++ post))).lineStart offset))
        (v.shift offset) = some grown → Text.unitSize grown = Text.unitSize before + k →
      (LineMap.ofSource (pre ++ ("stackalloc".toList ++ post))).editorPosition (v.shift offset) =
        ⟨((LineMap.ofSource (pre ++ ("new".toList ++ post))).editorPosition offset).line,
          ((LineMap.ofSource (pre ++ ("new".toList ++ post))).editorPosition offset).column + k⟩ := by
    intro grown k hGrown hUnits
    rw [← lineStart_respelled hSize hWord] at hGrown
    rw [LineMap.editorPosition_eq hShift hGrown, LineMap.editorPosition_eq (by omega) hBefore, hLine,
      hUnits, Nat.add_right_comm]
  have hStart := LineMap.lineStart_le (pre ++ ("new".toList ++ post)) offset
  rcases hApart with hFront | hBehind
  · rw [if_neg fun h => absurd h.1 (Nat.not_lt.mpr hFront)]
    exact finish (slice?_respelled hWord hBefore (.inl hFront)) rfl
  · have hLines := LineMap.line_eq_iff (byteSize_source hSize) (w := v.word)
      (o := offset) (by omega) (by omega)
    by_cases hSame : (LineMap.ofSource (pre ++ ("new".toList ++ post))).lineStart offset ≤ v.word
    · rw [if_pos ⟨by omega, hLines.mpr hSame⟩]
      obtain ⟨grown, hGrown, hUnits⟩ := unitSize_respelled hWord hBefore hSame hBehind
      exact finish hGrown hUnits
    · rw [if_neg fun h => hSame (hLines.mp h.2)]
      have hMem := (List.takeWhile_sublist _).subset
        (LineMap.lineStart_mem (pre ++ ("new".toList ++ post)) offset)
      rcases start_outside_word hSize hWord hMem with hLe | hGe
      · exact absurd hLe hSame
      · exact finish (slice?_respelled hWord hBefore (.inr hGe)) rfl

end Respelling

end Stackable
