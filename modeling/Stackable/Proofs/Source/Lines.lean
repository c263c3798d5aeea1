import Mathlib.Data.List.Induction
import Mathlib.Data.List.TakeWhile
import Stackable.Proofs.Token.Offsets

/-!
# Lines of a text

A text taken apart at one of its lines says what a line map tells of it. An offset that has `above`
and then `before` in front of it, where a line starts behind `above` and `before` holds no newline,
is on the line that the newlines of `above` count, in the column that `before` takes up; and the
text of the line is what stands up to the next newline, without a final carriage return.
-/

set_option autoImplicit false

namespace Stackable

namespace Text

variable {cs pre mid post : List Char} {start stop : Nat}

theorem dropBytes?_eq_some {n : Nat} (h : dropBytes? n cs = some post) :
    ∃ pre, cs = pre ++ post ∧ byteSize pre = n := by
  fun_induction dropBytes? n cs with
  | case1 cs =>
    cases h
    exact ⟨[], rfl, rfl⟩
  | case2 => cases h
  | case3 n c cs hSize ih =>
    obtain ⟨pre, rfl, hPre⟩ := ih h
    refine ⟨c :: pre, rfl, ?_⟩
    rw [byteSize]
    omega
  | case4 => cases h

theorem takeBytes?_eq_some {n : Nat} (h : takeBytes? n cs = some pre) :
    ∃ post, cs = pre ++ post ∧ byteSize pre = n := by
  fun_induction takeBytes? n cs generalizing pre with
  | case1 cs =>
    cases h
    exact ⟨cs, rfl, rfl⟩
  | case2 => cases h
  | case3 n c cs hSize ih =>
    obtain ⟨rest, hRest, rfl⟩ := Option.map_eq_some_iff.mp h
    obtain ⟨post, rfl, hPre⟩ := ih hRest
    refine ⟨post, rfl, ?_⟩
    rw [byteSize]
    omega
  | case4 => cases h

theorem slice?_eq_some_iff : slice? cs start stop = some mid ↔
    ∃ pre post, cs = pre ++ mid ++ post ∧ byteSize pre = start ∧ byteSize (pre ++ mid) = stop := by
  constructor
  · intro h
    unfold slice? at h
    split at h
    · obtain ⟨rest, hDrop, hTake⟩ := Option.bind_eq_some_iff.mp h
      obtain ⟨pre, rfl, hPre⟩ := dropBytes?_eq_some hDrop
      obtain ⟨post, rfl, hMid⟩ := takeBytes?_eq_some hTake
      refine ⟨pre, post, (List.append_assoc pre mid post).symm, hPre, ?_⟩
      rw [byteSize_append]
      omega
    · cases h
  · rintro ⟨pre, post, rfl, rfl, rfl⟩
    rw [byteSize_append]
    exact slice?_append pre mid post

/-- A cut that ends in front of `x`. -/
theorem slice?_append_left {x : List Char} (h : slice? (pre ++ x) start stop = some mid)
    (hStop : stop ≤ byteSize pre) (y : List Char) : slice? (pre ++ y) start stop = some mid := by
  obtain ⟨a, b, hText, hStart, hStop'⟩ := slice?_eq_some_iff.mp h
  have hPrefix : a ++ mid <+: pre :=
    prefix_of_byteSize_le ⟨b, hText.symm⟩ ⟨x, rfl⟩ (hStop' ▸ hStop)
  obtain ⟨c, rfl⟩ := hPrefix
  exact slice?_eq_some_iff.mpr ⟨a, c ++ y, by simp, hStart, hStop'⟩

/-- A cut that starts behind `pre`. -/
theorem slice?_append_right {x : List Char}
    (h : slice? (pre ++ x) (byteSize pre + start) (byteSize pre + stop) = some mid) (pre' : List Char) :
    slice? (pre' ++ x) (byteSize pre' + start) (byteSize pre' + stop) = some mid := by
  obtain ⟨a, b, hText, hStart, hStop⟩ := slice?_eq_some_iff.mp h
  have hPrefix : pre <+: a :=
    prefix_of_byteSize_le ⟨x, rfl⟩ ⟨mid ++ b, by rw [hText, List.append_assoc]⟩ (by omega)
  obtain ⟨c, rfl⟩ := hPrefix
  rw [List.append_assoc, List.append_assoc, List.append_cancel_left_eq] at hText
  rw [List.append_assoc, byteSize_append] at hStop
  rw [byteSize_append] at hStart
  refine slice?_eq_some_iff.mpr ⟨pre' ++ c, b, by simp [hText], ?_, ?_⟩
  · rw [byteSize_append]
    omega
  · rw [List.append_assoc, byteSize_append]
    omega

/-- A cut around a part of the text, where another text takes the place of the part. -/
theorem slice?_replace {word : List Char} (h : slice? (pre ++ (word ++ post)) start stop = some mid)
    (hStart : start ≤ byteSize pre) (hStop : byteSize (pre ++ word) ≤ stop) (other : List Char) :
    ∃ x y, mid = x ++ word ++ y ∧
      slice? (pre ++ (other ++ post)) start (byteSize (pre ++ other) + (stop - byteSize (pre ++ word))) =
        some (x ++ other ++ y) := by
  obtain ⟨a, b, hText, hStart', hStop'⟩ := slice?_eq_some_iff.mp h
  have hBefore : a <+: pre := prefix_of_byteSize_le ⟨mid ++ b, by rw [hText, List.append_assoc]⟩
    ⟨word ++ post, rfl⟩ (hStart' ▸ hStart)
  have hWord : pre ++ word <+: a ++ mid := prefix_of_byteSize_le ⟨post, by simp⟩
    ⟨b, hText.symm⟩ (hStop' ▸ hStop)
  obtain ⟨x, rfl⟩ := hBefore
  obtain ⟨y, hy⟩ := hWord
  have hMid : mid = x ++ word ++ y := by
    rw [List.append_assoc, List.append_assoc, List.append_cancel_left_eq] at hy
    rw [← hy, List.append_assoc]
  subst hMid
  refine ⟨x, y, rfl, slice?_eq_some_iff.mpr ⟨a, b, ?_, hStart', ?_⟩⟩
  · simpa using hText
  · simp only [byteSize_append] at hStop' hStop ⊢
    omega

theorem unitSize_append (xs ys : List Char) : unitSize (xs ++ ys) = unitSize xs + unitSize ys := by
  induction xs with
  | nil => simp [unitSize]
  | cons c cs ih => simp [unitSize, ih, Nat.add_assoc]

end Text

namespace LineMap

variable {source : List Char} {offset : Nat}

theorem startsAfter_append (offset : Nat) (xs ys : List Char) : startsAfter offset (xs ++ ys) =
    startsAfter offset xs ++ startsAfter (offset + Text.byteSize xs) ys := by
  induction xs generalizing offset with
  | nil => rfl
  | cons c cs ih =>
    rw [List.cons_append, startsAfter, startsAfter, Text.byteSize]
    split
    next hc =>
      have hSize : c.utf8Size = 1 := by
        rw [hc]
        rfl
      rw [ih, List.cons_append, hSize, Nat.add_assoc]
    next => rw [ih, Nat.add_assoc]

theorem startsAfter_add (offset k : Nat) (cs : List Char) :
    startsAfter (offset + k) cs = (startsAfter offset cs).map (· + k) := by
  induction cs generalizing offset with
  | nil => rfl
  | cons c cs ih =>
    rw [startsAfter, startsAfter]
    split
    · rw [List.map_cons, ← ih, Nat.add_right_comm]
    · rw [← ih, Nat.add_right_comm]

theorem bounds_of_mem_startsAfter {cs : List Char} {n : Nat} (h : n ∈ startsAfter offset cs) :
    offset < n ∧ n ≤ offset + Text.byteSize cs := by
  induction cs generalizing offset with
  | nil => cases h
  | cons c cs ih =>
    have hSize := c.utf8Size_pos
    rw [startsAfter] at h
    rw [Text.byteSize]
    split at h
    · rcases List.mem_cons.mp h with rfl | h
      · omega
      · have := ih h
        omega
    · have := ih h
      omega

theorem sorted_startsAfter (offset : Nat) (cs : List Char) :
    (startsAfter offset cs).Pairwise (· < ·) := by
  induction cs generalizing offset with
  | nil => exact .nil
  | cons c cs ih =>
    rw [startsAfter]
    split
    · exact List.pairwise_cons.mpr ⟨fun n hn => (bounds_of_mem_startsAfter hn).1, ih _⟩
    · exact ih _

theorem narrow_eq (h : offset < 4294967296) : narrow offset = offset := Nat.mod_eq_of_lt h

/-- The starts of the lines of a text that is short enough are not cut off. -/
theorem starts_eq (hSize : Text.byteSize source < 4294967296) :
    (ofSource source).starts = 0 :: startsAfter 0 source := by
  have hAll : ∀ n ∈ startsAfter 0 source, narrow n = n := by
    intro n hn
    have := (bounds_of_mem_startsAfter hn).2
    exact narrow_eq (by omega)
  rw [ofSource, List.map_congr_left hAll, List.map_id']

theorem sorted_starts (hSize : Text.byteSize source < 4294967296) :
    (ofSource source).starts.Pairwise (· < ·) := by
  rw [starts_eq hSize]
  exact List.pairwise_cons.mpr
    ⟨fun _ hn => (bounds_of_mem_startsAfter hn).1, sorted_startsAfter 0 source⟩

theorem boundary_of_mem_startsAfter {pre cs : List Char} {n : Nat}
    (h : n ∈ startsAfter (Text.byteSize pre) cs) : Text.Boundary (pre ++ cs) n := by
  induction cs generalizing pre with
  | nil => cases h
  | cons c cs ih =>
    have later : ∀ k, Text.byteSize pre + k = Text.byteSize (pre ++ [c]) →
        n ∈ startsAfter (Text.byteSize pre + k) cs → Text.Boundary (pre ++ c :: cs) n := by
      intro k hk hn
      rw [hk] at hn
      simpa using ih hn
    rw [startsAfter] at h
    split at h
    next hc =>
      subst hc
      have hSize : Text.byteSize pre + 1 = Text.byteSize (pre ++ ['\n']) := by
        rw [Text.byteSize_append]
        rfl
      rcases List.mem_cons.mp h with rfl | h
      · exact ⟨pre ++ ['\n'], cs, by simp, hSize⟩
      · exact later 1 hSize h
    next =>
      refine later c.utf8Size ?_ h
      rw [Text.byteSize_append]
      rfl

/-- Where the line of an offset starts. -/
def lineStart (m : LineMap) (offset : Nat) : Nat := (m.starts.takeWhile (· ≤ offset)).getLastD 0

theorem lineStart_mem (source : List Char) (offset : Nat) :
    (ofSource source).lineStart offset ∈ (ofSource source).starts.takeWhile (· ≤ offset) := by
  have hCons : (ofSource source).starts.takeWhile (· ≤ offset) =
      0 :: ((startsAfter 0 source).map narrow).takeWhile (· ≤ offset) :=
    List.takeWhile_cons_of_pos (by simp)
  unfold lineStart
  rw [hCons, List.getLastD_cons]
  cases ((startsAfter 0 source).map narrow).takeWhile (· ≤ offset) with
  | nil => exact List.mem_cons_self
  | cons n ns =>
    rw [List.getLastD_cons]
    exact List.mem_cons_of_mem _ (List.getLastD_mem_cons ..)

theorem lineStart_le (source : List Char) (offset : Nat) :
    (ofSource source).lineStart offset ≤ offset := by
  simpa using List.mem_takeWhile_imp (lineStart_mem source offset)

theorem boundary_lineStart (hSize : Text.byteSize source < 4294967296) (offset : Nat) :
    Text.Boundary source ((ofSource source).lineStart offset) := by
  have hMem := (List.takeWhile_sublist _).subset (lineStart_mem source offset)
  rw [starts_eq hSize] at hMem
  rcases List.mem_cons.mp hMem with h | h
  · rw [h]
    exact ⟨[], source, rfl, rfl⟩
  · exact (boundary_of_mem_startsAfter h : Text.Boundary ([] ++ source) _)

theorem position_eq {m : LineMap} (h : offset < 4294967296) : m.position offset =
    ⟨(m.starts.takeWhile (· ≤ offset)).length, offset - m.lineStart offset + 1⟩ := by
  rw [position, narrow_eq h]
  rfl

theorem exists_slice_lineStart (hSize : Text.byteSize source < 4294967296)
    (ho : Text.Boundary source offset) :
    ∃ before, Text.slice? source ((ofSource source).lineStart offset) offset = some before :=
  Option.isSome_iff_exists.mp
    (Text.isSome_slice? (boundary_lineStart hSize offset) ho (lineStart_le source offset))

/-- The column counts the code units from the start of the line on. -/
theorem editorPosition_eq (h : offset < 4294967296) {before : List Char}
    (hBefore : Text.slice? source ((ofSource source).lineStart offset) offset = some before) :
    (ofSource source).editorPosition offset =
      ⟨((ofSource source).position offset).line, Text.unitSize before + 1⟩ := by
  have hStart := lineStart_le source offset
  have hColumn : offset - (((ofSource source).position offset).column - 1) =
      (ofSource source).lineStart offset := by
    rw [position_eq h]
    dsimp only
    omega
  rw [editorPosition, hColumn, show (ofSource source).source = source from rfl, hBefore]

theorem le_getLastD {a : Nat} {l : List Nat} (h : (a :: l).Pairwise (· < ·)) :
    ∀ n ∈ a :: l, n ≤ l.getLastD a := by
  induction l generalizing a with
  | nil => simp
  | cons b l ih =>
    obtain ⟨hFirst, hRest⟩ := List.pairwise_cons.mp h
    rw [List.getLastD_cons]
    intro n hn
    rcases List.mem_cons.mp hn with rfl | hn
    · exact Nat.le_trans (Nat.le_of_lt (hFirst b List.mem_cons_self)) (ih hRest b List.mem_cons_self)
    · exact ih hRest n hn

theorem le_lineStart (hSize : Text.byteSize source < 4294967296) {n : Nat}
    (h : n ∈ (ofSource source).starts.takeWhile (· ≤ offset)) :
    n ≤ (ofSource source).lineStart offset := by
  have hSorted := (sorted_starts hSize).sublist (List.takeWhile_sublist (· ≤ offset))
  unfold lineStart
  generalize (ofSource source).starts.takeWhile (· ≤ offset) = l at h hSorted
  cases l with
  | nil => cases h
  | cons a l =>
    rw [List.getLastD_cons]
    exact le_getLastD hSorted n h

/-- Two offsets are on one line exactly if no line starts between them. -/
theorem line_eq_iff (hSize : Text.byteSize source < 4294967296) {o w : Nat} (hw : w ≤ o)
    (ho : o < 4294967296) :
    ((ofSource source).position o).line = ((ofSource source).position w).line ↔
      (ofSource source).lineStart o ≤ w := by
  have hInner : ((ofSource source).starts.takeWhile (· ≤ o)).takeWhile (· ≤ w) =
      (ofSource source).starts.takeWhile (· ≤ w) := by
    rw [List.takeWhile_takeWhile]
    congr
    funext n
    simp only [decide_eq_true_eq, decide_eq_decide]
    omega
  rw [position_eq ho, position_eq (Nat.lt_of_le_of_lt hw ho), ← hInner]
  dsimp only
  constructor
  · intro hLength
    have hAll := (List.takeWhile_prefix (· ≤ w)).eq_of_length hLength.symm
    have hMem := lineStart_mem source o
    rw [← hAll] at hMem
    simpa using List.mem_takeWhile_imp hMem
  · intro hStart
    have hAll : ∀ n ∈ (ofSource source).starts.takeWhile (· ≤ o), decide (n ≤ w) = true := by
      intro n hn
      rw [decide_eq_true_eq]
      exact Nat.le_trans (le_lineStart hSize hn) hStart
    rw [List.takeWhile_eq_self_iff.mpr hAll]

end LineMap

/-! ## Lines by their text -/

namespace Text

/-- A line starts behind the text. -/
def OpensLine (above : List Char) : Prop := above = [] ∨ above.getLast? = some '\n'

/-- The text ends, or its line does. -/
def ClosesLine (rest : List Char) : Prop := rest = [] ∨ rest.head? = some '\n'

variable {pre post cs : List Char}

theorem exists_opensLine (pre : List Char) :
    ∃ above before, pre = above ++ before ∧ OpensLine above ∧ '\n' ∉ before := by
  induction pre using List.reverseRecOn with
  | nil => exact ⟨[], [], rfl, .inl rfl, List.not_mem_nil⟩
  | append_singleton pre c ih =>
    by_cases hc : c = '\n'
    · subst hc
      exact ⟨pre ++ ['\n'], [], by simp, .inr (by simp), List.not_mem_nil⟩
    · obtain ⟨above, before, rfl, hOpen, hBefore⟩ := ih
      refine ⟨above, before ++ [c], by simp, hOpen, ?_⟩
      simpa [hBefore] using Ne.symm hc

theorem exists_closesLine (post : List Char) :
    ∃ after rest, post = after ++ rest ∧ '\n' ∉ after ∧ ClosesLine rest := by
  induction post with
  | nil => exact ⟨[], [], rfl, List.not_mem_nil, .inl rfl⟩
  | cons c post ih =>
    by_cases hc : c = '\n'
    · subst hc
      exact ⟨[], _, rfl, List.not_mem_nil, .inr rfl⟩
    · obtain ⟨after, rest, rfl, hAfter, hClose⟩ := ih
      refine ⟨c :: after, rest, rfl, ?_, hClose⟩
      simpa [hAfter] using Ne.symm hc

/-- The offset is behind `above`, where a line starts, and `before` on that line. -/
structure IsBehind (source : List Char) (offset : Nat) (above before : List Char) : Prop where
  front : above ++ before <+: source
  opens : OpensLine above
  unbroken : '\n' ∉ before
  offset_eq : offset = byteSize (above ++ before)

/-- How a line ends in front of the text below it. A carriage return at its end belongs to the
ending, with or without a newline behind it. -/
structure EndsLine (line ending below : List Char) : Prop where
  form : ending ∈ [[], ['\r'], ['\n'], ['\r', '\n']]
  last : '\n' ∉ ending → below = []
  whole : '\r' ∉ ending → line.getLast? ≠ some '\r'

theorem utf8Size_cases (c : Char) : (c.toNat < 128 ∧ c.utf8Size = 1) ∨
    (128 ≤ c.toNat ∧ c.toNat < 65536 ∧ 2 ≤ c.utf8Size) ∨ (65536 ≤ c.toNat ∧ c.utf8Size = 4) := by
  have hVal : c.val.toNat = c.toNat := rfl
  simp only [Char.utf8Size, UInt32.le_iff_toNat_le, hVal]
  split
  next h => exact .inl ⟨Nat.lt_succ_of_le h, rfl⟩
  next hOne =>
    split
    next h => exact .inr (.inl ⟨Nat.lt_of_not_le hOne, Nat.lt_of_le_of_lt h (by decide), Nat.le_refl 2⟩)
    next hTwo =>
      split
      next h => exact .inr (.inl ⟨Nat.lt_of_not_le hOne, Nat.lt_succ_of_le h, by decide⟩)
      next h => exact .inr (.inr ⟨Nat.lt_of_not_le h, rfl⟩)

end Text

namespace LineMap

open Text (OpensLine ClosesLine)

variable {source above before line rest : List Char} {offset : Nat}

theorem length_startsAfter (offset : Nat) (cs : List Char) :
    (startsAfter offset cs).length = cs.count '\n' := by
  induction cs generalizing offset with
  | nil => rfl
  | cons c cs ih =>
    rw [startsAfter]
    split
    next hc => rw [List.length_cons, ih, hc, List.count_cons_self]
    next hc => rw [ih, List.count_cons_of_ne hc]

theorem startsAfter_eq_nil {cs : List Char} (h : '\n' ∉ cs) :
    startsAfter offset cs = [] := by
  rw [← List.length_eq_zero_iff, length_startsAfter]
  exact List.count_eq_zero.mpr h

theorem getLastD_startsAfter (h : OpensLine above) (offset : Nat) :
    (startsAfter offset above).getLastD offset = offset + Text.byteSize above := by
  rcases h with rfl | h
  · rfl
  · obtain ⟨xs, rfl⟩ := List.getLast?_eq_some_iff.mp h
    have hLast (n : Nat) : startsAfter n ['\n'] = [n + 1] := rfl
    rw [startsAfter_append, hLast, List.getLastD_concat, Text.byteSize_append, Nat.add_assoc]
    rfl

theorem starts_ofSource (hSize : Text.byteSize (above ++ rest) < 4294967296) :
    (ofSource (above ++ rest)).starts =
      0 :: startsAfter 0 above ++ startsAfter (Text.byteSize above) rest := by
  rw [starts_eq hSize, startsAfter_append, Nat.zero_add, List.cons_append]

section

variable (hSize : Text.byteSize (above ++ line ++ rest) < 4294967296)
include hSize

/-- Up to the end of a line nothing starts behind it. -/
theorem takeWhile_starts (hLine : '\n' ∉ line) (hLow : Text.byteSize above ≤ offset)
    (hHigh : offset ≤ Text.byteSize (above ++ line)) :
    (ofSource (above ++ line ++ rest)).starts.takeWhile (· ≤ offset) =
      0 :: startsAfter 0 above := by
  have hReached : ∀ n ∈ 0 :: startsAfter 0 above, decide (n ≤ offset) = true := by
    intro n hn
    rw [decide_eq_true_eq]
    rcases List.mem_cons.mp hn with rfl | hn
    · exact Nat.zero_le _
    · have := (bounds_of_mem_startsAfter hn).2
      omega
  have hLater : (startsAfter (Text.byteSize (above ++ line)) rest).takeWhile (· ≤ offset) = [] := by
    cases hStarts : startsAfter (Text.byteSize (above ++ line)) rest with
    | nil => rfl
    | cons n ns =>
      have := (bounds_of_mem_startsAfter (hStarts ▸ List.mem_cons_self : n ∈ startsAfter _ rest)).1
      exact List.takeWhile_cons_of_neg (by rw [decide_eq_true_eq]; omega)
  rw [starts_ofSource hSize, startsAfter_append, startsAfter_eq_nil hLine, List.append_nil,
    List.takeWhile_append_of_pos hReached, hLater, List.append_nil]

theorem lineStart_within (hOpen : OpensLine above) (hLine : '\n' ∉ line)
    (hLow : Text.byteSize above ≤ offset) (hHigh : offset ≤ Text.byteSize (above ++ line)) :
    (ofSource (above ++ line ++ rest)).lineStart offset = Text.byteSize above := by
  rw [lineStart, takeWhile_starts hSize hLine hLow hHigh, List.getLastD_cons,
    getLastD_startsAfter hOpen, Nat.zero_add]

/-- The line is counted by newlines, and the column by the bytes behind the last of them. The offset
may lie inside a character. -/
theorem position_within (hOpen : OpensLine above) (hLine : '\n' ∉ line)
    (hLow : Text.byteSize above ≤ offset) (hHigh : offset ≤ Text.byteSize (above ++ line)) :
    (ofSource (above ++ line ++ rest)).position offset =
      ⟨above.count '\n' + 1, offset - Text.byteSize above + 1⟩ := by
  have hOffset : offset < 4294967296 := by
    rw [Text.byteSize_append] at hSize
    omega
  rw [position_eq hOffset, takeWhile_starts hSize hLine hLow hHigh,
    lineStart_within hSize hOpen hLine hLow hHigh, List.length_cons, length_startsAfter]

end

theorem position_at (hSize : Text.byteSize (above ++ before ++ rest) < 4294967296)
    (hOpen : OpensLine above) (hBefore : '\n' ∉ before) :
    (ofSource (above ++ before ++ rest)).position (Text.byteSize (above ++ before)) =
      ⟨above.count '\n' + 1, Text.byteSize before + 1⟩ := by
  rw [position_within hSize hOpen hBefore (by simp) (Nat.le_refl _), Text.byteSize_append,
    Nat.add_sub_cancel_left]

theorem editorPosition_at (hSize : Text.byteSize (above ++ before ++ rest) < 4294967296)
    (hOpen : OpensLine above) (hBefore : '\n' ∉ before) :
    (ofSource (above ++ before ++ rest)).editorPosition (Text.byteSize (above ++ before)) =
      ⟨above.count '\n' + 1, Text.unitSize before + 1⟩ := by
  have hOffset : Text.byteSize (above ++ before) < 4294967296 := by
    rw [Text.byteSize_append] at hSize
    omega
  have hSlice : Text.slice? (above ++ before ++ rest)
      ((ofSource (above ++ before ++ rest)).lineStart (Text.byteSize (above ++ before)))
      (Text.byteSize (above ++ before)) = some before := by
    rw [lineStart_within hSize hOpen hBefore (by simp) (Nat.le_refl _), Text.byteSize_append]
    exact Text.slice?_append above before rest
  rw [editorPosition_eq hOffset hSlice, position_at hSize hOpen hBefore]

theorem editorPosition_line (source : List Char) (offset : Nat) :
    ((ofSource source).editorPosition offset).line = ((ofSource source).position offset).line := by
  unfold editorPosition
  dsimp only
  split
  · rfl
  · rfl

theorem starts_at (hSize : Text.byteSize (above ++ rest) < 4294967296) (hOpen : OpensLine above) :
    (ofSource (above ++ rest)).starts[above.count '\n']? = some (Text.byteSize above) := by
  have hLast : (0 :: startsAfter 0 above).getLast? = some (Text.byteSize above) := by
    rw [List.getLast?_cons, ← List.getLastD_eq_getLast?, getLastD_startsAfter hOpen, Nat.zero_add]
  rw [List.getLast?_eq_getElem?, List.length_cons, length_startsAfter, Nat.add_sub_cancel] at hLast
  rw [starts_ofSource hSize, List.getElem?_append_left (by simp [length_startsAfter]), hLast]

/-- The next line starts behind the newline, if there is one. -/
theorem starts_next (hSize : Text.byteSize (above ++ line ++ rest) < 4294967296)
    (hLine : '\n' ∉ line) : (ofSource (above ++ line ++ rest)).starts[above.count '\n' + 1]? =
      (startsAfter (Text.byteSize (above ++ line)) rest).head? := by
  have hLength : above.count '\n' + 1 = (0 :: startsAfter 0 (above ++ line)).length := by
    rw [List.length_cons, length_startsAfter, List.count_append, List.count_eq_zero.mpr hLine,
      Nat.add_zero]
  rw [starts_ofSource hSize, hLength, List.getElem?_append_right (Nat.le_refl _), Nat.sub_self,
    List.head?_eq_getElem?]

theorem lineText?_at (hSize : Text.byteSize (above ++ line ++ rest) < 4294967296)
    (hOpen : OpensLine above) (hLine : '\n' ∉ line) (hClose : ClosesLine rest) :
    (ofSource (above ++ line ++ rest)).lineText? (above.count '\n' + 1) =
      some (dropReturn line) := by
  have hSlice := Text.slice?_append above line rest
  have hStart : (ofSource (above ++ line ++ rest)).starts[above.count '\n']? =
      some (Text.byteSize above) := by
    rw [List.append_assoc] at hSize ⊢
    exact starts_at hSize hOpen
  rw [← Text.byteSize_append] at hSlice
  rw [lineText?, hStart, starts_next hSize hLine]
  rcases hClose with rfl | hHead
  · change (Text.slice? _ _ (Text.byteSize (above ++ line ++ []))).map dropReturn = _
    rw [List.append_nil] at hSlice ⊢
    exact congrArg (Option.map dropReturn) hSlice
  · obtain ⟨below, rfl⟩ := List.head?_eq_some_iff.mp hHead
    exact congrArg (Option.map dropReturn) hSlice

theorem dropReturn_subset (line : List Char) : dropReturn line ⊆ line := by
  unfold dropReturn
  split
  · exact List.dropLast_subset line
  · exact List.Subset.refl line

theorem exists_ending (line : List Char) (hClose : ClosesLine rest) :
    ∃ ending below, line ++ rest = dropReturn line ++ ending ++ below ∧
      Text.EndsLine (dropReturn line) ending below := by
  have hBelow : ∃ mark below, rest = mark ++ below ∧ mark ∈ [[], ['\n']] ∧
      ('\n' ∉ mark → below = []) := by
    rcases hClose with rfl | hHead
    · exact ⟨[], [], rfl, by simp, fun _ => rfl⟩
    · obtain ⟨below, rfl⟩ := List.head?_eq_some_iff.mp hHead
      exact ⟨['\n'], below, rfl, by simp, fun h => absurd (List.mem_singleton_self _) h⟩
  obtain ⟨mark, below, rfl, hMark, hLast⟩ := hBelow
  unfold dropReturn
  split
  next hReturn =>
    obtain ⟨front, rfl⟩ := List.getLast?_eq_some_iff.mp hReturn
    refine ⟨'\r' :: mark, below, by simp, ?_, ?_, ?_⟩
    · simpa using hMark
    · intro h
      exact hLast fun hMem => h (List.mem_cons_of_mem _ hMem)
    · intro h
      exact absurd List.mem_cons_self h
  next hReturn =>
    refine ⟨mark, below, by simp, ?_, hLast, fun _ => hReturn⟩
    simp only [List.mem_cons, List.not_mem_nil, or_false] at hMark ⊢
    tauto

theorem dropReturn_append_cons (before : List Char) {c : Char} (hc : c ≠ '\r') (after : List Char) :
    dropReturn (before ++ c :: after) = before ++ c :: dropReturn after := by
  cases after using List.reverseRecOn with
  | nil => simp [dropReturn, hc]
  | append_singleton after d =>
    have hSplit : before ++ c :: (after ++ [d]) = (before ++ c :: after) ++ [d] := by simp
    rw [dropReturn, dropReturn, hSplit, List.getLast?_concat, List.getLast?_concat,
      List.dropLast_concat, List.dropLast_concat]
    split
    · rfl
    · rw [List.append_assoc, List.cons_append]

end LineMap

end Stackable
