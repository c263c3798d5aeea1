import Mathlib.Data.List.Basic
import Stackable.Diagnostic.Snippet

/-!
# Rows of underlines

A cell of the row below a line is drawn once, and primary labels are drawn first. So a cell has the
mark of the first underline in this order to cover its column, and a secondary label is hidden where
a primary one covers the column too. Drawing is also given by cutting the slots of an underline out
of the row, which fails if the row does not have them; it never does.
-/

set_option autoImplicit false

namespace Stackable.Snippet

variable {row : List Char} {line : MarkedLine} {a b : Underline} {as : List Underline} {c : Char}
  {i column : Nat}

/-- The slots between two indices of a row, if it has them. -/
def slots? (row : List Char) (start stop : Nat) : Option (List Char) :=
  if start ≤ stop ∧ stop ≤ row.length then some ((row.take stop).drop start) else none

/-- Draws into the slots of the row that the underline covers. -/
def draw? (row : List Char) (a : Underline) : Option (List Char) :=
  if 0 < a.start ∧ 0 < a.stop then do
    let start := min (a.start - 1) row.length
    let stop := min (a.stop - 1) row.length
    let slots ← slots? row start stop
    return row.take start ++ slots.map (fun c => if c = ' ' then mark a.style else c) ++ row.drop stop
  else none

def underlineRow? (line : MarkedLine) : Option (List Char) :=
  (line.underlines.mergeSort comesFirst).foldlM draw?
    (List.replicate (Text.byteSize line.text + 10) ' ')

def Underline.covers (a : Underline) (column : Nat) : Bool :=
  decide (a.start ≤ column ∧ column < a.stop)

theorem length_draw (row : List Char) (a : Underline) : (draw row a).length = row.length :=
  List.length_mapIdx

theorem getElem?_draw (row : List Char) (a : Underline) (i : Nat) : (draw row a)[i]? =
    row[i]?.map fun c => if c = ' ' ∧ a.covers (i + 1) = true then mark a.style else c := by
  rw [draw, List.getElem?_mapIdx]
  simp only [Underline.covers, decide_eq_true_eq]

/-- The slots between two places, with what is in front of them and behind them. -/
theorem getElem?_take_append_drop {start stop : Nat} (hStart : start ≤ stop)
    (hStop : stop ≤ row.length) (f : Char → Char) (i : Nat) :
    (row.take start ++ ((row.take stop).drop start).map f ++ row.drop stop)[i]? =
      if start ≤ i ∧ i < stop then row[i]?.map f else row[i]? := by
  have hFront : (row.take start).length = start := by
    rw [List.length_take, Nat.min_eq_left (Nat.le_trans hStart hStop)]
  have hSlots : (((row.take stop).drop start).map f).length = stop - start := by
    rw [List.length_map, List.length_drop, List.length_take, Nat.min_eq_left hStop]
  rcases Nat.lt_or_ge i start with hLow | hLow
  · rw [List.append_assoc, List.getElem?_append_left (by omega), List.getElem?_take_of_lt hLow,
      if_neg (by omega)]
  · rcases Nat.lt_or_ge i stop with hHigh | hHigh
    · rw [List.getElem?_append_left (by rw [List.length_append]; omega),
        List.getElem?_append_right (by omega), hFront, List.getElem?_map, List.getElem?_drop,
        Nat.add_sub_cancel' hLow, List.getElem?_take_of_lt hHigh, if_pos ⟨hLow, hHigh⟩]
    · rw [List.getElem?_append_right (by rw [List.length_append]; omega), List.length_append,
        hFront, hSlots, Nat.add_sub_cancel' hStart, List.getElem?_drop, Nat.add_sub_cancel' hHigh,
        if_neg (by omega)]

/-- An underline that covers a column is drawn, whether or not the row is long enough for it. -/
theorem draw?_eq (hPos : 0 < a.start) (hStop : a.start < a.stop) (row : List Char) :
    draw? row a = some (draw row a) := by
  have hSlots : min (a.start - 1) row.length ≤ min (a.stop - 1) row.length ∧
      min (a.stop - 1) row.length ≤ row.length := by omega
  have hRow : row.take (min (a.start - 1) row.length) ++
      ((row.take (min (a.stop - 1) row.length)).drop (min (a.start - 1) row.length)).map
        (fun c => if c = ' ' then mark a.style else c) ++ row.drop (min (a.stop - 1) row.length) =
      draw row a := by
    refine List.ext_getElem? fun i => ?_
    rw [getElem?_take_append_drop hSlots.1 hSlots.2, getElem?_draw]
    cases hSlot : row[i]? with
    | none => simp only [Option.map_none, ite_self]
    | some c =>
      have hi := (List.getElem?_eq_some_iff.mp hSlot).1
      have hCovers : a.covers (i + 1) = true ↔
          min (a.start - 1) row.length ≤ i ∧ i < min (a.stop - 1) row.length := by
        simp only [Underline.covers, decide_eq_true_eq]
        omega
      by_cases hIn : min (a.start - 1) row.length ≤ i ∧ i < min (a.stop - 1) row.length
      · simp only [hCovers, hIn, and_self, and_true, if_true, Option.map_some]
      · simp only [hCovers, hIn, and_false, if_false, Option.map_some]
  simp only [draw?, slots?, if_pos hSlots, if_pos (And.intro hPos (Nat.zero_lt_of_lt hStop)),
    Option.bind_eq_bind, Option.bind_some, hRow]
  rfl

theorem foldlM_draw? (h : ∀ a ∈ as, 0 < a.start ∧ a.start < a.stop) (row : List Char) :
    as.foldlM draw? row = some (as.foldl draw row) := by
  induction as generalizing row with
  | nil => rfl
  | cons a as ih =>
    obtain ⟨ha, hRest⟩ := List.forall_mem_cons.mp h
    rw [List.foldlM_cons, draw?_eq ha.1 ha.2, List.foldl_cons]
    exact ih hRest (draw row a)

theorem length_foldl_draw (as : List Underline) (row : List Char) :
    (as.foldl draw row).length = row.length := by
  induction as generalizing row with
  | nil => rfl
  | cons a as ih => rw [List.foldl_cons, ih, length_draw]

/-- What is drawn stays. -/
theorem getElem?_foldl_draw_of_ne (hc : c ≠ ' ') (h : row[i]? = some c) (as : List Underline) :
    (as.foldl draw row)[i]? = some c := by
  induction as generalizing row with
  | nil => exact h
  | cons a as ih =>
    rw [List.foldl_cons]
    apply ih
    rw [getElem?_draw, h, Option.map_some, if_neg fun hBlank => hc hBlank.1]

theorem mark_ne_blank (style : LabelStyle) : mark style ≠ ' ' := by
  cases style with
  | primary => decide
  | secondary => decide

/-- A blank cell gets the mark of the first underline to cover it. -/
theorem getElem?_foldl_draw (h : row[i]? = some ' ') (as : List Underline) :
    (as.foldl draw row)[i]? =
      some (((as.find? (·.covers (i + 1))).map (mark ·.style)).getD ' ') := by
  induction as generalizing row with
  | nil => exact h
  | cons a as ih =>
    have hDraw := getElem?_draw row a i
    rw [h, Option.map_some] at hDraw
    rw [List.foldl_cons]
    cases hCovers : a.covers (i + 1) with
    | true =>
      rw [hCovers, if_pos ⟨rfl, rfl⟩] at hDraw
      rw [getElem?_foldl_draw_of_ne (mark_ne_blank a.style) hDraw, List.find?_cons, hCovers]
      rfl
    | false =>
      rw [hCovers, if_neg (by decide)] at hDraw
      rw [ih hDraw, List.find?_cons, hCovers]

theorem comesFirst_trans (a b c : Underline) (hab : comesFirst a b = true)
    (hbc : comesFirst b c = true) : comesFirst a c = true := by
  simp only [comesFirst, decide_eq_true_eq] at hab hbc ⊢
  omega

theorem comesFirst_total (a b : Underline) : (comesFirst a b || comesFirst b a) = true := by
  simp only [comesFirst, Bool.or_eq_true, decide_eq_true_eq]
  omega

theorem priority_le_of_comesFirst {a b : Underline} (h : comesFirst a b = true) :
    priority a.style ≤ priority b.style := by
  simp only [comesFirst, decide_eq_true_eq] at h
  omega

/-- What is drawn first is of a style that comes first. -/
theorem priority_le_of_find? {underlines : List Underline}
    (h : (underlines.mergeSort comesFirst).find? (·.covers column) = some a) (hb : b ∈ underlines)
    (hCovers : b.covers column = true) : priority a.style ≤ priority b.style := by
  obtain ⟨_, front, behind, hSorted, hFront⟩ := List.find?_eq_some_iff_append.mp h
  have hPairwise := List.pairwise_mergeSort comesFirst_trans comesFirst_total underlines
  have hMem : b ∈ front ++ a :: behind := by
    rw [← hSorted]
    exact List.mem_mergeSort.mpr hb
  rw [hSorted] at hPairwise
  rcases List.mem_append.mp hMem with hMem | hMem
  · exact absurd hCovers (by simpa using hFront b hMem)
  · rcases List.mem_cons.mp hMem with rfl | hMem
    · exact Nat.le_refl _
    · exact priority_le_of_comesFirst
        ((List.pairwise_cons.mp (List.pairwise_append.mp hPairwise).2.1).1 b hMem)

/-- An underline of the style covers the column. -/
def MarkedLine.Covered (line : MarkedLine) (style : LabelStyle) (column : Nat) : Prop :=
  ∃ a ∈ line.underlines, a.style = style ∧ a.covers column = true

instance (line : MarkedLine) (style : LabelStyle) (column : Nat) :
    Decidable (line.Covered style column) :=
  inferInstanceAs (Decidable (∃ a ∈ line.underlines, a.style = style ∧ a.covers column = true))

/-- Primary labels hide what is behind them. -/
def MarkedLine.cell (line : MarkedLine) (column : Nat) : Char :=
  if line.Covered .primary column then '^' else if line.Covered .secondary column then '-' else ' '

theorem cell_eq_primary_iff : line.cell column = '^' ↔ line.Covered .primary column := by
  unfold MarkedLine.cell
  split
  next hPrimary => simp only [hPrimary]
  next hPrimary =>
    simp only [hPrimary, iff_false]
    split <;> decide

theorem cell_eq_secondary_iff : line.cell column = '-' ↔
    line.Covered .secondary column ∧ ¬line.Covered .primary column := by
  unfold MarkedLine.cell
  split
  next hPrimary =>
    simp only [hPrimary, not_true_eq_false, and_false, iff_false]
    decide
  next hPrimary =>
    split
    next hSecondary => simp only [hSecondary, hPrimary, not_false_eq_true, and_self]
    next hSecondary =>
      simp only [hSecondary, false_and, iff_false]
      decide

theorem cell_cases (line : MarkedLine) (column : Nat) :
    line.cell column = '^' ∨ line.cell column = '-' ∨ line.cell column = ' ' := by
  unfold MarkedLine.cell
  split
  · exact .inl rfl
  · split
    · exact .inr (.inl rfl)
    · exact .inr (.inr rfl)

theorem cell_of_find?_eq_none
    (h : (line.underlines.mergeSort comesFirst).find? (·.covers column) = none) :
    line.cell column = ' ' := by
  have hNone : ∀ style, ¬line.Covered style column := by
    rintro style ⟨a, ha, _, hCovers⟩
    exact List.find?_eq_none.mp h a (List.mem_mergeSort.mpr ha) hCovers
  rw [MarkedLine.cell, if_neg (hNone _), if_neg (hNone _)]

theorem cell_of_find?_eq_some
    (h : (line.underlines.mergeSort comesFirst).find? (·.covers column) = some a) :
    line.cell column = mark a.style := by
  have ha : a ∈ line.underlines := List.mem_mergeSort.mp (List.mem_of_find?_eq_some h)
  have hCovers : a.covers column = true := (List.find?_eq_some_iff_append.mp h).1
  cases hStyle : a.style with
  | primary => exact cell_eq_primary_iff.mpr ⟨a, ha, hStyle, hCovers⟩
  | secondary =>
    refine cell_eq_secondary_iff.mpr ⟨⟨a, ha, hStyle, hCovers⟩, ?_⟩
    rintro ⟨b, hb, hPrimary, hUnder⟩
    have hLe := priority_le_of_find? h hb hUnder
    rw [hStyle, hPrimary] at hLe
    exact absurd hLe (by decide)

/-- Drawing one underline after the other comes to looking at each cell by itself. -/
theorem underlineRow_eq (line : MarkedLine) : underlineRow line =
    (List.range (Text.byteSize line.text + 10)).map fun i => line.cell (i + 1) := by
  refine List.ext_getElem? fun i => ?_
  rcases Nat.lt_or_ge i (Text.byteSize line.text + 10) with hi | hi
  · have hBlank : (List.replicate (Text.byteSize line.text + 10) ' ')[i]? = some ' ' := by
      rw [List.getElem?_replicate, if_pos hi]
    rw [underlineRow, getElem?_foldl_draw hBlank, List.getElem?_map, List.getElem?_range hi,
      Option.map_some]
    cases hFind : (line.underlines.mergeSort comesFirst).find? (·.covers (i + 1)) with
    | none => rw [cell_of_find?_eq_none hFind, Option.map_none, Option.getD_none]
    | some a => rw [cell_of_find?_eq_some hFind, Option.map_some, Option.getD_some]
  · rw [List.getElem?_eq_none (by rwa [underlineRow, length_foldl_draw, List.length_replicate]),
      List.getElem?_eq_none (by rwa [List.length_map, List.length_range])]

theorem getElem?_underlineRow : (underlineRow line)[i]? = some c ↔
    i < Text.byteSize line.text + 10 ∧ line.cell (i + 1) = c := by
  simp only [underlineRow_eq, List.getElem?_map, Option.map_eq_some_iff, List.getElem?_eq_some_iff,
    List.length_range, List.getElem_range]
  constructor
  · rintro ⟨_, ⟨hi, rfl⟩, hCell⟩
    exact ⟨hi, hCell⟩
  · rintro ⟨hi, hCell⟩
    exact ⟨i, ⟨hi, rfl⟩, hCell⟩

theorem underlineRow?_eq (h : ∀ a ∈ line.underlines, 0 < a.start ∧ a.start < a.stop) :
    underlineRow? line = some (underlineRow line) :=
  foldlM_draw? (fun a ha => h a (List.mem_mergeSort.mp ha)) _

end Stackable.Snippet
