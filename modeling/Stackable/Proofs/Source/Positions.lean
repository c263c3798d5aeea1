import Mathlib.Data.List.DropRight
import Stackable.Proofs.Source.Lines

/-!
# Every offset and every line

What a line map tells of the offsets and of the line numbers of a source, all of them. Offsets are
told by the bytes in front of them, so that one inside a character has a position too; lines are
told by a list of texts with their endings that make up the source.
-/

set_option autoImplicit false

namespace Stackable

namespace Text

variable {cs above line rest : List Char} {c : Char} {offset : Nat}

/-- The UTF-8 encoding. -/
def bytes (cs : List Char) : List UInt8 := cs.flatMap String.utf8EncodeChar

def newline : UInt8 := 10

theorem bytes_append (xs ys : List Char) : bytes (xs ++ ys) = bytes xs ++ bytes ys :=
  List.flatMap_append

theorem length_bytes (cs : List Char) : (bytes cs).length = byteSize cs := by
  induction cs with
  | nil => rfl
  | cons c cs ih =>
    rw [bytes, List.flatMap_cons, List.length_append, String.length_utf8EncodeChar, byteSize, ← ih]
    rfl

theorem ofNat_eq_newline_iff {n : Nat} : newline = UInt8.ofNat n ↔ n % 256 = 10 := by
  rw [← UInt8.toNat_inj, UInt8.toNat_ofNat', eq_comm]
  rfl

theorem toNat_eq_newline_iff : c.val.toNat = 10 ↔ c = '\n' := by
  constructor
  · intro h
    exact Char.ext (UInt32.toNat_inj.mp h)
  · rintro rfl
    rfl

/-- The bytes of wider characters are all beyond ASCII. -/
theorem newline_mem_utf8EncodeChar : newline ∈ String.utf8EncodeChar c ↔ c = '\n' := by
  rw [← toNat_eq_newline_iff, String.utf8EncodeChar]
  generalize c.val.toNat = v
  split
  · rw [List.mem_singleton, ofNat_eq_newline_iff]
    omega
  · split
    · simp only [List.mem_cons, List.not_mem_nil, or_false, ofNat_eq_newline_iff]
      omega
    · split
      all_goals
        simp only [List.mem_cons, List.not_mem_nil, or_false, ofNat_eq_newline_iff]
        omega

theorem newline_mem_bytes : newline ∈ bytes cs ↔ '\n' ∈ cs := by
  simp only [bytes, List.mem_flatMap, newline_mem_utf8EncodeChar]
  exact exists_eq_right

theorem count_newline_bytes (cs : List Char) : (bytes cs).count newline = cs.count '\n' := by
  induction cs with
  | nil => rfl
  | cons c cs ih =>
    rw [bytes, List.flatMap_cons, List.count_append, List.count_cons, ← ih, Nat.add_comm]
    by_cases hc : c = '\n'
    · subst hc
      rfl
    · rw [List.count_eq_zero.mpr fun h => hc (newline_mem_utf8EncodeChar.mp h)]
      simp [hc, bytes]

section BehindMark

variable {α : Type} [DecidableEq α] {mark : α} {xs ys : List α}

theorem rtakeWhile_append (hx : xs = [] ∨ xs.getLast? = some mark) (hy : mark ∉ ys) :
    (xs ++ ys).rtakeWhile (fun x => decide (x ≠ mark)) = ys := by
  have hAll : ∀ y ∈ ys.reverse, decide (y ≠ mark) = true := by
    intro y h
    rw [decide_eq_true_eq]
    exact fun hEq => hy (hEq ▸ List.mem_reverse.mp h)
  have hStop : xs.reverse.takeWhile (fun x => decide (x ≠ mark)) = [] := by
    rcases hx with rfl | hx
    · rfl
    · obtain ⟨front, rfl⟩ := List.getLast?_eq_some_iff.mp hx
      rw [List.reverse_concat]
      exact List.takeWhile_cons_of_neg (by simp)
  rw [List.rtakeWhile, List.reverse_append, List.takeWhile_append_of_pos hAll, hStop,
    List.append_nil, List.reverse_reverse]

theorem length_rtakeWhile_append (hy : mark ∉ ys) :
    ((xs ++ ys).rtakeWhile (fun x => decide (x ≠ mark))).length =
      (xs.rtakeWhile (fun x => decide (x ≠ mark))).length + ys.length := by
  have hAll : ∀ y ∈ ys.reverse, decide (y ≠ mark) = true := by
    intro y h
    rw [decide_eq_true_eq]
    exact fun hEq => hy (hEq ▸ List.mem_reverse.mp h)
  rw [List.rtakeWhile, List.reverse_append, List.takeWhile_append_of_pos hAll, List.rtakeWhile,
    List.length_reverse, List.length_reverse, List.length_append, List.length_reverse, Nat.add_comm]

end BehindMark

end Text

/-- The line after as many newlines, and the column after as many bytes behind the last of them. -/
def Position.behind (front : List UInt8) : Position :=
  ⟨front.count Text.newline + 1, (front.rtakeWhile (fun b => decide (b ≠ Text.newline))).length + 1⟩

/-- On a line above, or in front on the same line. -/
def Position.Before (p q : Position) : Prop :=
  p.line < q.line ∨ p.line = q.line ∧ p.column < q.column

theorem Position.behind_append (front : List UInt8) {part : List UInt8} (h : part ≠ []) :
    (behind front).Before (behind (front ++ part)) := by
  unfold Before behind
  rw [List.count_append]
  by_cases hPart : Text.newline ∈ part
  · have := List.count_pos_iff.mpr hPart
    exact .inl (by dsimp only; omega)
  · have := List.length_pos_iff.mpr h
    rw [List.count_eq_zero.mpr hPart, Text.length_rtakeWhile_append hPart]
    exact .inr ⟨rfl, by dsimp only; omega⟩

namespace Text

variable {cs above line rest cr : List Char} {offset : Nat}

theorem OpensLine.below (h : OpensLine above) (line : List Char) :
    OpensLine (line ++ '\n' :: above) := by
  rcases h with rfl | h
  · exact .inr (by simp)
  · obtain ⟨front, rfl⟩ := List.getLast?_eq_some_iff.mp h
    exact .inr (by rw [← List.cons_append, ← List.append_assoc, List.getLast?_concat])

/-- The line on which an offset is. The newline at the end of a line is on it. -/
theorem exists_line_of_le (h : offset ≤ byteSize cs) : ∃ above line rest,
    cs = above ++ line ++ rest ∧ OpensLine above ∧ '\n' ∉ line ∧ ClosesLine rest ∧
      byteSize above ≤ offset ∧ offset ≤ byteSize (above ++ line) := by
  induction hLength : cs.length using Nat.strongRecOn generalizing cs offset with
  | ind length ih =>
    obtain ⟨line, rest, rfl, hLine, hClose⟩ := exists_closesLine cs
    by_cases hOffset : offset ≤ byteSize line
    · exact ⟨[], line, rest, rfl, .inl rfl, hLine, hClose, Nat.zero_le _, hOffset⟩
    · rw [byteSize_append] at h
      rcases hClose with rfl | hHead
      · exact absurd h hOffset
      · obtain ⟨below, rfl⟩ := List.head?_eq_some_iff.mp hHead
        have hSize : byteSize ('\n' :: below) = 1 + byteSize below := rfl
        have hShorter : below.length < length := by
          simp only [List.length_append, List.length_cons] at hLength
          omega
        have hBehind : offset - byteSize line - 1 ≤ byteSize below := by omega
        obtain ⟨above, inner, rest, hBelow, hOpen, hInner, hClose, hLow, hHigh⟩ :=
          ih below.length hShorter hBehind rfl
        have hFront : byteSize (line ++ '\n' :: above) = byteSize line + 1 + byteSize above := by
          rw [byteSize_append, Nat.add_assoc]
          rfl
        rw [byteSize_append] at hHigh
        refine ⟨line ++ '\n' :: above, inner, rest, by simp [hBelow], hOpen.below line, hInner, hClose,
          by omega, ?_⟩
        rw [byteSize_append, hFront]
        omega

/-- A carriage return that is no part of the line: the one at its end, if there is one. -/
def IsReturn (line cr : List Char) : Prop := cr = ['\r'] ∨ cr = [] ∧ line.getLast? ≠ some '\r'

/-- The lines of a text, each with its ending. -/
inductive IsLines : List (List Char × List Char) → List Char → Prop
  | last {line cr : List Char} : '\n' ∉ line → IsReturn line cr → IsLines [(line, cr)] (line ++ cr)
  | more {line cr below : List Char} {lines : List (List Char × List Char)} :
    '\n' ∉ line → IsReturn line cr → IsLines lines below →
      IsLines ((line, cr ++ ['\n']) :: lines) (line ++ (cr ++ ['\n']) ++ below)

variable {lines : List (List Char × List Char)}

theorem IsReturn.not_mem (h : IsReturn line cr) : '\n' ∉ cr := by
  rcases h with rfl | ⟨rfl, _⟩
  · decide
  · exact List.not_mem_nil

theorem IsReturn.unbroken (h : IsReturn line cr) (hLine : '\n' ∉ line) : '\n' ∉ line ++ cr := by
  rw [List.mem_append]
  exact fun hMem => hMem.elim hLine h.not_mem

theorem IsLines.whole (h : IsLines lines cs) : lines.flatMap (fun l => l.1 ++ l.2) = cs := by
  induction h with
  | last => simp
  | more _ _ _ ih => rw [List.flatMap_cons, ih]

theorem IsLines.length (h : IsLines lines cs) : lines.length = cs.count '\n' + 1 := by
  induction h with
  | last hLine hReturn =>
    rw [List.count_eq_zero.mpr (hReturn.unbroken hLine)]
    rfl
  | more hLine hReturn _ ih =>
    rw [← List.append_assoc, List.count_append, List.count_append,
      List.count_eq_zero.mpr (hReturn.unbroken hLine), List.length_cons, ih, List.count_singleton_self]
    omega

end Text

namespace LineMap

open Text (OpensLine ClosesLine IsReturn IsLines)

variable {source above line cr : List Char} {lines : List (List Char × List Char)} {offset : Nat}

theorem dropReturn_append_return (h : IsReturn line cr) : dropReturn (line ++ cr) = line := by
  rcases h with rfl | ⟨rfl, hLine⟩
  · rw [dropReturn, List.getLast?_concat, if_pos rfl, List.dropLast_concat]
  · rw [List.append_nil, dropReturn, if_neg hLine]

theorem exists_return (line : List Char) :
    ∃ cr, line = dropReturn line ++ cr ∧ IsReturn (dropReturn line) cr := by
  unfold dropReturn
  split
  next h =>
    obtain ⟨front, rfl⟩ := List.getLast?_eq_some_iff.mp h
    exact ⟨['\r'], by rw [List.dropLast_concat], .inl rfl⟩
  next h => exact ⟨[], (List.append_nil line).symm, .inr ⟨rfl, h⟩⟩

theorem exists_isLines (source : List Char) : ∃ lines, IsLines lines source := by
  induction hLength : source.length using Nat.strongRecOn generalizing source with
  | ind length ih =>
    obtain ⟨line, rest, rfl, hLine, hClose⟩ := Text.exists_closesLine source
    obtain ⟨cr, hCut, hReturn⟩ := exists_return line
    have hShort : '\n' ∉ dropReturn line := fun h => hLine (dropReturn_subset line h)
    rcases hClose with rfl | hHead
    · refine ⟨[(dropReturn line, cr)], ?_⟩
      rw [List.append_nil]
      nth_rewrite 2 [hCut]
      exact .last hShort hReturn
    · obtain ⟨below, rfl⟩ := List.head?_eq_some_iff.mp hHead
      obtain ⟨lines, hLines⟩ := ih below.length
        (by simp only [List.length_append, List.length_cons] at hLength; omega) below rfl
      have hSource : line ++ '\n' :: below = dropReturn line ++ (cr ++ ['\n']) ++ below := by
        nth_rewrite 1 [hCut]
        simp
      rw [hSource]
      exact ⟨_, .more hShort hReturn hLines⟩

theorem lineCount_eq (source : List Char) : (ofSource source).lineCount = source.count '\n' + 1 := by
  rw [lineCount, ofSource, List.length_cons, List.length_map, length_startsAfter]

theorem lineText?_eq_none {n : Nat} (h : (ofSource source).lineCount ≤ n) :
    (ofSource source).lineText? (n + 1) = none := by
  rw [lineText?, List.getElem?_eq_none h]
  rfl

/-- The lines below `above` are told by their numbers. -/
theorem lineText?_of_isLines (h : IsLines lines source)
    (hSize : Text.byteSize (above ++ source) < 4294967296) (hOpen : OpensLine above) (n : Nat) :
    (ofSource (above ++ source)).lineText? (above.count '\n' + n + 1) =
      lines[n]?.map Prod.fst := by
  induction h generalizing above n with
  | @last line cr hLine hReturn =>
    have hUnbroken := hReturn.unbroken hLine
    cases n with
    | zero =>
      rw [← List.append_nil (above ++ (line ++ cr))] at hSize
      have hText := lineText?_at hSize hOpen hUnbroken (.inl rfl)
      rw [List.append_nil, dropReturn_append_return hReturn] at hText
      exact hText
    | succ n =>
      apply lineText?_eq_none
      rw [lineCount_eq, List.count_append, List.count_eq_zero.mpr hUnbroken]
      omega
  | @more line cr below lines hLine hReturn _ ih =>
    have hUnbroken := hReturn.unbroken hLine
    cases n with
    | zero =>
      have hCut : above ++ (line ++ (cr ++ ['\n']) ++ below) =
          above ++ (line ++ cr) ++ '\n' :: below := by simp
      rw [hCut] at hSize ⊢
      have hText := lineText?_at hSize hOpen hUnbroken (.inr rfl)
      rw [dropReturn_append_return hReturn] at hText
      simpa using hText
    | succ n =>
      have hOpens : OpensLine (above ++ (line ++ (cr ++ ['\n']))) :=
        .inr (by rw [← List.append_assoc, ← List.append_assoc, List.getLast?_concat])
      have hCount : (above ++ (line ++ (cr ++ ['\n']))).count '\n' = above.count '\n' + 1 := by
        rw [List.count_append, ← List.append_assoc, List.count_append,
          List.count_eq_zero.mpr hUnbroken, List.count_singleton_self, Nat.zero_add]
      rw [← List.append_assoc] at hSize
      have hNext := ih hSize hOpens n
      rw [hCount, List.append_assoc, Nat.add_assoc (above.count '\n'), Nat.add_comm 1 n] at hNext
      exact hNext

theorem position_eq_behind (hSize : Text.byteSize source < 4294967296)
    (hOffset : offset ≤ Text.byteSize source) :
    (ofSource source).position offset = .behind ((Text.bytes source).take offset) := by
  obtain ⟨above, line, rest, rfl, hOpen, hLine, _, hLow, hHigh⟩ := Text.exists_line_of_le hOffset
  obtain ⟨k, rfl⟩ := Nat.exists_eq_add_of_le hLow
  have hFront : (Text.bytes (above ++ line ++ rest)).take (Text.byteSize above + k) =
      Text.bytes above ++ (Text.bytes line).take k := by
    rw [Text.byteSize_append] at hHigh
    rw [Text.bytes_append, Text.bytes_append, List.append_assoc, ← Text.length_bytes above,
      List.take_length_add_append, List.take_append_of_le_length]
    rw [Text.length_bytes]
    omega
  have hPart : Text.newline ∉ (Text.bytes line).take k :=
    fun h => hLine (Text.newline_mem_bytes.mp (List.mem_of_mem_take h))
  have hOpens : Text.bytes above = [] ∨ (Text.bytes above).getLast? = some Text.newline := by
    rcases hOpen with rfl | h
    · exact .inl rfl
    · obtain ⟨front, rfl⟩ := List.getLast?_eq_some_iff.mp h
      exact .inr (by rw [Text.bytes_append]; exact List.getLast?_concat)
  rw [position_within hSize hOpen hLine hLow hHigh, hFront, Position.behind,
    Text.rtakeWhile_append hOpens hPart, List.count_append, List.count_eq_zero.mpr hPart,
    Text.count_newline_bytes, List.length_take, Text.length_bytes, Nat.add_sub_cancel_left,
    Nat.min_eq_left (by rw [Text.byteSize_append] at hHigh; omega)]

theorem editorColumn_eq (hSize : Text.byteSize source < 4294967296) {pre : List Char}
    (hPre : pre <+: source) :
    ((ofSource source).editorPosition (Text.byteSize pre)).column =
      Text.unitSize (pre.rtakeWhile (fun c => decide (c ≠ '\n'))) + 1 := by
  obtain ⟨post, rfl⟩ := hPre
  obtain ⟨above, before, rfl, hOpen, hBefore⟩ := Text.exists_opensLine pre
  rw [editorPosition_at hSize hOpen hBefore, Text.rtakeWhile_append hOpen hBefore]

/-- The position of an offset, where the start of the line is looked up by its index and the offset
is counted from there. -/
def position? (m : LineMap) (offset : Nat) : Option Position := do
  let offset := narrow offset
  let index := (m.starts.takeWhile (· ≤ offset)).length - 1
  let start ← m.starts[index]?
  if start ≤ offset then some ⟨index + 1, offset - start + 1⟩ else none

theorem length_reached_pos (source : List Char) (offset : Nat) :
    0 < ((ofSource source).starts.takeWhile (· ≤ offset)).length :=
  List.length_pos_of_mem (lineStart_mem source offset)

theorem position?_eq (source : List Char) (offset : Nat) :
    (ofSource source).position? offset = some ((ofSource source).position offset) := by
  have hPos := length_reached_pos source (narrow offset)
  have hLe := lineStart_le source (narrow offset)
  have hStart : (ofSource source).starts[((ofSource source).starts.takeWhile
      (· ≤ narrow offset)).length - 1]? =
        some ((ofSource source).lineStart (narrow offset)) := by
    unfold lineStart
    obtain ⟨rest, hRest⟩ := List.takeWhile_prefix (l := (ofSource source).starts)
      (fun n => decide (n ≤ narrow offset))
    generalize (ofSource source).starts.takeWhile (· ≤ narrow offset) = reached
      at hPos hRest ⊢
    rw [← hRest, List.getElem?_append_left (by omega), ← List.getLast?_eq_getElem?,
      List.getLast?_eq_some_getLast (List.length_pos_iff.mp hPos), List.getLastD_eq_getLast?,
      List.getLast?_eq_some_getLast (List.length_pos_iff.mp hPos)]
    rfl
  rw [position?, hStart]
  simp only [Option.bind_eq_bind, Option.bind_some, if_pos hLe, Nat.sub_add_cancel hPos]
  rfl

theorem line_pos (source : List Char) (offset : Nat) :
    0 < ((ofSource source).position offset).line :=
  length_reached_pos source _

theorem line_le_lineCount (m : LineMap) (offset : Nat) : (m.position offset).line ≤ m.lineCount :=
  (List.takeWhile_prefix _).length_le

theorem column_pos (m : LineMap) (offset : Nat) : 0 < (m.position offset).column :=
  Nat.succ_pos _

/-- Every line has a text. -/
theorem exists_lineText? (hSize : Text.byteSize source < 4294967296) {n : Nat} (hPos : 0 < n)
    (hLe : n ≤ (ofSource source).lineCount) :
    ∃ text, (ofSource source).lineText? n = some text := by
  obtain ⟨n, rfl⟩ := Nat.exists_eq_add_of_le' hPos
  obtain ⟨lines, hLines⟩ := exists_isLines source
  have hText := lineText?_of_isLines hLines (by rwa [List.nil_append])
    (show OpensLine [] from .inl rfl) n
  have hIndex : n < lines.length := by
    rw [lineCount_eq, ← hLines.length] at hLe
    exact hLe
  rw [List.nil_append, List.count_nil, Nat.zero_add, List.getElem?_eq_getElem hIndex] at hText
  exact ⟨_, hText⟩

/-- A place on a line is at most a carriage return and a newline behind the text of the line. -/
theorem exists_column_le (hSize : Text.byteSize source < 4294967296)
    (hOffset : offset ≤ Text.byteSize source) :
    ∃ text, (ofSource source).lineText? ((ofSource source).position offset).line = some text ∧
      ((ofSource source).position offset).column ≤ Text.byteSize text + 2 := by
  obtain ⟨above, line, rest, rfl, hOpen, hLine, hClose, hLow, hHigh⟩ :=
    Text.exists_line_of_le hOffset
  obtain ⟨cr, hCut, hReturn⟩ := exists_return line
  have hEnding : Text.byteSize cr ≤ 1 := by
    rcases hReturn with rfl | ⟨rfl, _⟩
    · exact Nat.le_refl 1
    · exact Nat.zero_le 1
  have hLength := congrArg Text.byteSize hCut
  rw [Text.byteSize_append] at hLength hHigh
  rw [position_within hSize hOpen hLine hLow (by rwa [Text.byteSize_append])]
  refine ⟨_, lineText?_at hSize hOpen hLine hClose, ?_⟩
  dsimp only
  omega

/-! ## What a line map tells -/

/-- What a line map is to tell of a source. -/
structure Describes (source : List Char) (m : LineMap) : Prop where
  /-- An offset is told by the bytes in front of it. -/
  position : ∀ offset ≤ Text.byteSize source,
    m.position offset = .behind ((Text.bytes source).take offset)
  /-- For an editor it is on the same line. -/
  editorLine : ∀ offset, (m.editorPosition offset).line = (m.position offset).line
  /-- Between two characters, its column there counts the code units behind the last newline. -/
  editorColumn : ∀ pre, pre <+: source → (m.editorPosition (Text.byteSize pre)).column =
    Text.unitSize (pre.rtakeWhile (fun c => decide (c ≠ '\n'))) + 1
  /-- No two offsets are at one place, and a later one is behind an earlier one. -/
  increasing : ∀ o₁ o₂, o₁ < o₂ → o₂ ≤ Text.byteSize source →
    (m.position o₁).Before (m.position o₂)
  /-- The numbers from one to the count are those of the lines, and with their endings these make up
  the source. -/
  lines : ∃ lines, IsLines lines source ∧ lines.flatMap (fun l => l.1 ++ l.2) = source ∧
    m.lineCount = lines.length ∧ m.lineText? 0 = none ∧
    ∀ n, m.lineText? (n + 1) = lines[n]?.map Prod.fst

/-- The line map of a source describes it, if offsets and line numbers fit in 32 bits. -/
theorem describes_ofSource (source : List Char) (hSize : Text.byteSize source < 4294967295) :
    Describes source (ofSource source) where
  position offset hOffset := position_eq_behind (Nat.lt_succ_of_lt hSize) hOffset
  editorLine offset := editorPosition_line source offset
  editorColumn pre hPre := editorColumn_eq (Nat.lt_succ_of_lt hSize) hPre
  increasing o₁ o₂ hLt hLe := by
    rw [position_eq_behind (by omega) (by omega), position_eq_behind (by omega) hLe]
    have hFront : ((Text.bytes source).take o₂) = (Text.bytes source).take o₁ ++
        ((Text.bytes source).drop o₁).take (o₂ - o₁) := by
      rw [← List.take_add, Nat.add_sub_cancel' (Nat.le_of_lt hLt)]
    rw [hFront]
    apply Position.behind_append
    rw [← List.length_pos_iff, List.length_take, List.length_drop, Text.length_bytes]
    omega
  lines := by
    obtain ⟨lines, hLines⟩ := exists_isLines source
    refine ⟨lines, hLines, hLines.whole, ?_, rfl, ?_⟩
    · rw [lineCount_eq, hLines.length]
    · intro n
      have hText := lineText?_of_isLines hLines (by rw [List.nil_append]; omega)
        (show OpensLine [] from .inl rfl) n
      rw [List.nil_append, List.count_nil, Nat.zero_add] at hText
      exact hText

/-- A wide character, both endings, and a carriage return without a newline. -/
theorem describes_mixed_endings : Text.byteSize "é\r\n😀x\n\r".toList < 4294967295 ∧
    Describes "é\r\n😀x\n\r".toList (ofSource "é\r\n😀x\n\r".toList) := by
  have hSize : Text.byteSize "é\r\n😀x\n\r".toList < 4294967295 := by decide
  exact ⟨hSize, describes_ofSource _ hSize⟩

end LineMap

end Stackable
