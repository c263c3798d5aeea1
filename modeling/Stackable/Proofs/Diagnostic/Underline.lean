import Stackable.Proofs.Diagnostic.Printed
import Stackable.Proofs.Sorting

/-!
# Underlines

Which columns of a line the labels that start on it cover, told by the bytes of the source in front
of their ends, and that the row below the line shows this. Labels may overlap, be empty, end on
another line or end in front of their start. No column is cut off: a place on a line is at most the
two bytes of its ending behind the text of the line, and the row is longer than that.
-/

set_option autoImplicit false

namespace Stackable

namespace Suggestion

variable {s : Suggestion} {text : List Char} {column : Nat}

/-- The two places of a line at which a suggestion cuts it. -/
def cuts (s : Suggestion) (column : Nat) (text : List Char) : Nat × Nat :=
  let start := min (column - 1) (Text.byteSize text)
  (start, min (start + s.span.length) (Text.byteSize text))

/-- Nothing but a cut inside a character fails. -/
theorem isSome_around? : (s.around? column text).isSome ↔
    Text.Boundary text (s.cuts column text).1 ∧ Text.Boundary text (s.cuts column text).2 := by
  constructor
  · intro h
    obtain ⟨⟨before, after⟩, hAround⟩ := Option.isSome_iff_exists.mp h
    obtain ⟨pre, hTake, hAround⟩ := Option.bind_eq_some_iff.mp hAround
    obtain ⟨post, hDrop, _⟩ := Option.bind_eq_some_iff.mp hAround
    obtain ⟨rest, hText, hSize⟩ := Text.takeBytes?_eq_some hTake
    obtain ⟨front, hText', hSize'⟩ := Text.dropBytes?_eq_some hDrop
    exact ⟨⟨pre, rest, hText, hSize.symm⟩, ⟨front, post, hText', hSize'.symm⟩⟩
  · rintro ⟨⟨pre, rest, hText, hStart⟩, ⟨front, post, hText', hStop⟩⟩
    have hTake : Text.takeBytes? (s.cuts column text).1 text = some pre := by
      rw [hStart]
      exact hText ▸ Text.takeBytes?_append pre rest
    have hDrop : Text.dropBytes? (s.cuts column text).2 text = some post := by
      rw [hStop]
      exact hText' ▸ Text.dropBytes?_append front post
    have hAround : s.around? column text = some (pre, post) := by
      change (Text.takeBytes? (s.cuts column text).1 text).bind (fun before =>
        (Text.dropBytes? (s.cuts column text).2 text).bind fun after => some (before, after)) = _
      rw [hTake, hDrop]
      rfl
    rw [hAround]
    rfl

end Suggestion

namespace Snippet

variable {source : List Char} {lines : LineMap} {labels : List Label} {label : Label}
  {line : MarkedLine} {d : Diagnostic} {number column : Nat}

theorem numbers_markedLines (lines : LineMap) (labels : List Label) :
    (markedLines lines labels).map (·.number) =
      ((labels.map (lineOf lines)).mergeSort fun a b => decide (a ≤ b)).eraseReps := by
  rw [markedLines, List.map_map]
  exact List.map_id _

/-- The lines that are shown are those on which labels start. -/
theorem mem_numbers_markedLines : number ∈ (markedLines lines labels).map (·.number) ↔
    ∃ label ∈ labels, lineOf lines label = number := by
  rw [numbers_markedLines, mem_eraseReps, List.mem_mergeSort, List.mem_map]

theorem ascending_markedLines (lines : LineMap) (labels : List Label) :
    ((markedLines lines labels).map (·.number)).Pairwise (· < ·) := by
  have hSorted : ((labels.map (lineOf lines)).mergeSort fun a b => decide (a ≤ b)).Pairwise
      (· ≤ ·) := by
    refine (List.pairwise_mergeSort (fun a b c => ?_) (fun a b => ?_) _).imp of_decide_eq_true
    · simp only [decide_eq_true_eq]
      exact Nat.le_trans
    · simp only [Bool.or_eq_true, decide_eq_true_eq]
      exact Nat.le_total a b
  rw [numbers_markedLines, List.eraseReps]
  refine pairwise_eraseRepsBy hSorted (fun a b hLe hDiffer => ?_) fun _ _ _ => Nat.lt_of_lt_of_le
  exact Nat.lt_of_le_of_ne hLe (by simpa using hDiffer)

/-- A marked line has the labels that start on it. -/
theorem eq_of_mem_markedLines (h : line ∈ markedLines lines labels) :
    line.text = lineText lines line.number ∧ line.underlines =
      (labels.filter (lineOf lines · == line.number)).map (underlineOf lines) := by
  obtain ⟨number, _, rfl⟩ := List.mem_map.mp h
  exact ⟨rfl, rfl⟩

theorem mem_underlines (h : line ∈ markedLines lines labels) {a : Underline} :
    a ∈ line.underlines ↔
      ∃ label ∈ labels, lineOf lines label = line.number ∧ underlineOf lines label = a := by
  rw [(eq_of_mem_markedLines h).2]
  simp only [List.mem_map, List.mem_filter, beq_iff_eq, and_assoc]

theorem underlineOf_start_pos (lines : LineMap) (label : Label) :
    0 < (underlineOf lines label).start :=
  LineMap.column_pos _ _

theorem underlineOf_start_lt_stop (lines : LineMap) (label : Label) :
    (underlineOf lines label).start < (underlineOf lines label).stop :=
  Nat.lt_of_lt_of_le (Nat.lt_succ_self _) (Nat.le_max_right _ _)

/-- Whatever is read by an index or cut out of a text to show a diagnostic is there. -/
structure InRange (lines : LineMap) (d : Diagnostic) : Prop where
  /-- The position of an offset is counted from a line that starts there or in front of it. -/
  position : ∀ offset, lines.position? offset = some (lines.position offset)
  text : ∀ line ∈ markedLines lines d.labels, lines.lineText? line.number = some line.text
  /-- The slots of the row that a label is drawn into. -/
  row : ∀ line ∈ markedLines lines d.labels, underlineRow? line = some (underlineRow line)
  /-- The messages that hang below the row, and the blanks in front of them. -/
  hanging : ∀ line ∈ markedLines lines d.labels, ∀ m i, (m, i) ∈ (messages line).dropLast.zipIdx →
    (messages line).dropLast[i]? = some m ∧ 0 < m.column
  /-- A suggestion cuts its line within the text, and only a cut inside a character fails. -/
  suggestion : ∀ s, d.help.bind (·.suggestion) = some s → ∃ text,
    lines.lineText? (lines.position s.span.start).line = some text ∧
    (s.cuts (lines.position s.span.start).column text).1 ≤ Text.byteSize text ∧
    (s.cuts (lines.position s.span.start).column text).2 ≤ Text.byteSize text ∧
    ((s.around? (lines.position s.span.start).column text).isSome ↔
      Text.Boundary text (s.cuts (lines.position s.span.start).column text).1 ∧
      Text.Boundary text (s.cuts (lines.position s.span.start).column text).2)

theorem exists_lineText_position (hSize : Text.byteSize source < 4294967296) (offset : Nat) :
    ∃ text, (LineMap.ofSource source).lineText?
      ((LineMap.ofSource source).position offset).line = some text :=
  LineMap.exists_lineText? hSize (LineMap.line_pos source offset)
    (LineMap.line_le_lineCount _ offset)

theorem column_pos_of_mem_messages {m : Message} (h : line ∈ markedLines lines labels)
    (hm : m ∈ messages line) : 0 < m.column := by
  obtain ⟨a, ha, hMessage⟩ := List.mem_filterMap.mp (List.mem_mergeSort.mp hm)
  obtain ⟨text, _, rfl⟩ := Option.map_eq_some_iff.mp hMessage
  obtain ⟨label, _, _, rfl⟩ := (mem_underlines h).mp (List.mem_mergeSort.mp ha)
  exact underlineOf_start_pos lines label

theorem inRange_ofSource (hSize : Text.byteSize source < 4294967296) (d : Diagnostic) :
    InRange (.ofSource source) d where
  position := LineMap.position?_eq source
  text line h := by
    obtain ⟨label, _, hNumber⟩ := mem_numbers_markedLines.mp (List.mem_map_of_mem h)
    obtain ⟨text, hText⟩ := exists_lineText_position hSize label.span.start
    rw [(eq_of_mem_markedLines h).1, lineText]
    change lineOf _ label = line.number at hNumber
    rw [← hNumber, lineOf, hText]
    rfl
  row line h := by
    apply underlineRow?_eq
    intro a ha
    obtain ⟨label, _, _, rfl⟩ := (mem_underlines h).mp ha
    exact ⟨underlineOf_start_pos _ label, underlineOf_start_lt_stop _ label⟩
  hanging line h m i hm := by
    have hIndex := List.mem_zipIdx_iff_getElem?.mp hm
    exact ⟨hIndex, column_pos_of_mem_messages h
      (List.dropLast_subset _ (List.mem_of_getElem? hIndex))⟩
  suggestion s _ := by
    obtain ⟨text, hText⟩ := exists_lineText_position hSize s.span.start
    exact ⟨text, hText, Nat.min_le_right _ _, Nat.min_le_right _ _, Suggestion.isSome_around?⟩

/-- Where all that is read is there, what is printed does not depend on what happens otherwise. -/
theorem InRange.format?_eq (h : InRange lines d) (file : Option String) :
    format? lines file d = some (format lines file d) := by
  have hRows : ∀ line ∈ markedLines lines d.labels,
      rowsBelow? (marginWidth (markedLines lines d.labels)) line =
        some (rowsBelow (marginWidth (markedLines lines d.labels)) line) := by
    intro line hLine
    refine rowsBelow?_eq _ (h.row line hLine) fun m hm => ?_
    obtain ⟨i, hi⟩ := List.mem_iff_getElem?.mp hm
    exact (h.hanging line hLine m i (List.mem_zipIdx_iff_getElem?.mpr hi)).2
  have hFooter := footer?_eq h.position d
  unfold format? format
  cases d.primarySpan? with
  | none =>
    dsimp only
    rw [hFooter]
    rfl
  | some primary =>
    have hBody : body? lines file d primary = some (body lines file d primary) := by
      simp only [body?, markedLines?_eq h.position, h.position, lineRows?_eq hRows,
        Option.bind_eq_bind, Option.bind_some]
      rfl
    dsimp only
    rw [hBody, hFooter]
    rfl

/-- A diagnostic is printed with one block for each marked line, from top to bottom. -/
theorem exists_format_blocks (lines : LineMap) (file : Option String) (d : Diagnostic) :
    ∃ width front blocks behind, format lines file d = front ++ blocks.flatten ++ behind ∧
      List.Forall₂ (Block width) (markedLines lines d.labels) blocks := by
  obtain ⟨blocks, hRows, hBlocks⟩ :=
    exists_blocks (marginWidth (markedLines lines d.labels)) none (markedLines lines d.labels)
  unfold format
  cases hPrimary : d.primarySpan? with
  | none =>
    -- without labels there is no line to mark
    have hLabels : d.labels = [] := by
      unfold Diagnostic.primarySpan? at hPrimary
      rw [Option.map_eq_none_iff, Option.or_eq_none_iff, List.head?_eq_none_iff] at hPrimary
      exact hPrimary.2
    have hNone : markedLines lines d.labels = [] := by
      rw [hLabels, markedLines, List.map_nil, List.mergeSort_nil]
      rfl
    refine ⟨0, header d, [], footer lines d, rfl, ?_⟩
    rw [hNone]
    exact .nil
  | some primary =>
    refine ⟨_, header d ++ arrow file (lines.position primary.start), blocks,
      closing (marginWidth (markedLines lines d.labels)) d ++ footer lines d, ?_, hBlocks⟩
    dsimp only
    rw [body, hRows]
    simp only [List.append_assoc]

/-- A label covers the columns of its line up to its end, or up to the end of the text of the line
if it ends on another one, and always the column at which it starts. -/
def Covers (source : List Char) (label : Label) (number column : Nat) : Prop :=
  let start := Position.behind ((Text.bytes source).take label.span.start)
  let stop := Position.behind ((Text.bytes source).take label.span.stop)
  start.line = number ∧ (column = start.column ∨ start.column ≤ column ∧
    if stop.line = number then column < stop.column
    else column ≤ Text.byteSize (lineText (.ofSource source) number))

/-- Both ends of a label are in the source. -/
def Within (source : List Char) (label : Label) : Prop :=
  label.span.start ≤ Text.byteSize source ∧ label.span.stop ≤ Text.byteSize source

/-- The row below a line shows what labels cover of the line. -/
structure Shows (source : List Char) (labels : List Label) (number : Nat) (row : List Char) :
    Prop where
  primary : ∀ i, row[i]? = some '^' ↔
    ∃ label ∈ labels, label.style = .primary ∧ Covers source label number (i + 1)
  secondary : ∀ i, row[i]? = some '-' ↔
    (∃ label ∈ labels, label.style = .secondary ∧ Covers source label number (i + 1)) ∧
    ¬∃ label ∈ labels, label.style = .primary ∧ Covers source label number (i + 1)
  blank : ∀ c ∈ row, c = '^' ∨ c = '-' ∨ c = ' '

section

variable (hSize : Text.byteSize source < 4294967295)
include hSize

theorem position_start (h : Within source label) :
    (LineMap.ofSource source).position label.span.start =
      .behind ((Text.bytes source).take label.span.start) :=
  LineMap.position_eq_behind (Nat.lt_succ_of_lt hSize) h.1

theorem position_stop (h : Within source label) :
    (LineMap.ofSource source).position label.span.stop =
      .behind ((Text.bytes source).take label.span.stop) :=
  LineMap.position_eq_behind (Nat.lt_succ_of_lt hSize) h.2

theorem lineOf_eq (h : Within source label) : lineOf (.ofSource source) label =
    (Position.behind ((Text.bytes source).take label.span.start)).line := by
  rw [lineOf, position_start hSize h]

theorem covers_underlineOf (h : Within source label) :
    lineOf (.ofSource source) label = number ∧
        (underlineOf (.ofSource source) label).covers column = true ↔
      Covers source label number column := by
  rw [lineOf_eq hSize h, Covers, Underline.covers, underlineOf, underlineBetween,
    position_start hSize h, position_stop hSize h, decide_eq_true_eq]
  dsimp only
  refine and_congr_right fun hLine => ?_
  rw [hLine]
  split
  · omega
  · omega

/-- No column behind the row is covered. -/
theorem column_le_of_covers (h : Within source label) (hCovers : Covers source label number column) :
    column ≤ Text.byteSize (lineText (.ofSource source) number) + 2 := by
  have hStart := LineMap.exists_column_le (Nat.lt_succ_of_lt hSize) h.1
  have hStop := LineMap.exists_column_le (Nat.lt_succ_of_lt hSize) h.2
  rw [position_start hSize h] at hStart
  rw [position_stop hSize h] at hStop
  obtain ⟨text, hText, hColumn⟩ := hStart
  obtain ⟨rfl, hCovers⟩ := hCovers
  rw [lineText, hText, Option.getD_some] at hCovers ⊢
  rcases hCovers with rfl | ⟨_, hCovers⟩
  · exact hColumn
  · split at hCovers
    next hLine =>
      obtain ⟨text', hText', hColumn'⟩ := hStop
      rw [hLine, hText] at hText'
      cases hText'
      omega
    next => omega

theorem covered_iff (hLabels : ∀ label ∈ labels, Within source label)
    (h : line ∈ markedLines (.ofSource source) labels) {style : LabelStyle} :
    line.Covered style column ↔
      ∃ label ∈ labels, label.style = style ∧ Covers source label line.number column := by
  constructor
  · rintro ⟨a, ha, hStyle, hCovers⟩
    obtain ⟨label, hLabel, hLine, rfl⟩ := (mem_underlines h).mp ha
    exact ⟨label, hLabel, hStyle,
      (covers_underlineOf hSize (hLabels label hLabel)).mp ⟨hLine, hCovers⟩⟩
  · rintro ⟨label, hLabel, hStyle, hCovers⟩
    obtain ⟨hLine, hUnder⟩ := (covers_underlineOf hSize (hLabels label hLabel)).mpr hCovers
    exact ⟨_, (mem_underlines h).mpr ⟨label, hLabel, hLine, rfl⟩, hStyle, hUnder⟩

theorem shows_underlineRow (hLabels : ∀ label ∈ labels, Within source label)
    (h : line ∈ markedLines (.ofSource source) labels) :
    Shows source labels line.number (underlineRow line) := by
  have hCovered : ∀ style column, line.Covered style column ↔
      ∃ label ∈ labels, label.style = style ∧ Covers source label line.number column :=
    fun _ _ => covered_iff hSize hLabels h
  -- what is covered has a cell
  have hIndex : ∀ {style i}, line.Covered style (i + 1) → i < Text.byteSize line.text + 10 := by
    intro style i hi
    obtain ⟨label, hLabel, _, hCovers⟩ := (hCovered style (i + 1)).mp hi
    have hLe := column_le_of_covers hSize (hLabels label hLabel) hCovers
    rw [← (eq_of_mem_markedLines h).1] at hLe
    omega
  constructor
  case primary =>
    intro i
    rw [getElem?_underlineRow, cell_eq_primary_iff, and_iff_right_of_imp hIndex, hCovered]
  case secondary =>
    intro i
    rw [getElem?_underlineRow, cell_eq_secondary_iff, and_iff_right_of_imp fun hCell => hIndex hCell.1,
      hCovered, hCovered]
  case blank =>
    intro c hc
    obtain ⟨i, hi⟩ := List.mem_iff_getElem?.mp hc
    rw [← (getElem?_underlineRow.mp hi).2]
    exact cell_cases line (i + 1)

end

/-- Printing a diagnostic about a source of which its labels are parts reads nothing that is not
there. What is printed has one block for each line on which labels start, from top to bottom, and
the row of underlines in it shows what the labels cover of the line. -/
theorem inRange_and_shows (source : List Char) (file : Option String) (d : Diagnostic)
    (hSize : Text.byteSize source < 4294967295) (hLabels : ∀ label ∈ d.labels, Within source label) :
    format? (.ofSource source) file d = some (format (.ofSource source) file d) ∧
    InRange (.ofSource source) d ∧
    (∃ width front blocks behind,
      format (.ofSource source) file d = front ++ blocks.flatten ++ behind ∧
      List.Forall₂ (Block width) (markedLines (.ofSource source) d.labels) blocks) ∧
    (∀ number, number ∈ (markedLines (.ofSource source) d.labels).map (·.number) ↔
      ∃ label ∈ d.labels,
        (Position.behind ((Text.bytes source).take label.span.start)).line = number) ∧
    ((markedLines (.ofSource source) d.labels).map (·.number)).Pairwise (· < ·) ∧
    ∀ line ∈ markedLines (.ofSource source) d.labels,
      Shows source d.labels line.number (underlineRow line) := by
  have hRange := inRange_ofSource (Nat.lt_succ_of_lt hSize) d
  refine ⟨hRange.format?_eq file, hRange, exists_format_blocks _ file d, fun number => ?_,
    ascending_markedLines _ _, fun line h => shows_underlineRow hSize hLabels h⟩
  rw [mem_numbers_markedLines]
  constructor
  · rintro ⟨label, hLabel, hNumber⟩
    exact ⟨label, hLabel, (lineOf_eq hSize (hLabels label hLabel)).symm.trans hNumber⟩
  · rintro ⟨label, hLabel, hNumber⟩
    exact ⟨label, hLabel, (lineOf_eq hSize (hLabels label hLabel)).trans hNumber⟩

/-- Labels that overlap, end inside a character, on the next line, in front of their start and at
the end of the source. -/
def overlapping : Diagnostic where
  severity := .warning
  message := "overlapping"
  labels := [⟨⟨4, 8⟩, .secondary, some "goes on"⟩, ⟨⟨0, 3⟩, .secondary, some "behind"⟩,
    ⟨⟨1, 4⟩, .primary, some "in front"⟩, ⟨⟨6, 5⟩, .primary, none⟩, ⟨⟨10, 10⟩, .secondary, none⟩]

theorem inRange_and_shows_overlapping :
    Text.byteSize "ab é\r\ncd\n".toList < 4294967295 ∧
    (∀ label ∈ overlapping.labels, Within "ab é\r\ncd\n".toList label) ∧
    format? (.ofSource "ab é\r\ncd\n".toList) none overlapping =
      some (format (.ofSource "ab é\r\ncd\n".toList) none overlapping) ∧
    InRange (.ofSource "ab é\r\ncd\n".toList) overlapping ∧
    (∃ width front blocks behind,
      format (.ofSource "ab é\r\ncd\n".toList) none overlapping =
        front ++ blocks.flatten ++ behind ∧
      List.Forall₂ (Block width)
        (markedLines (.ofSource "ab é\r\ncd\n".toList) overlapping.labels) blocks) ∧
    ∀ line ∈ markedLines (.ofSource "ab é\r\ncd\n".toList) overlapping.labels,
      Shows "ab é\r\ncd\n".toList overlapping.labels line.number (underlineRow line) := by
  have hSize : Text.byteSize "ab é\r\ncd\n".toList < 4294967295 := by decide
  have hLabels : ∀ label ∈ overlapping.labels, Within "ab é\r\ncd\n".toList label := by
    unfold Within
    decide
  obtain ⟨hFormat, hRange, hBlocks, _, _, hShows⟩ :=
    inRange_and_shows _ none overlapping hSize hLabels
  exact ⟨hSize, hLabels, hFormat, hRange, hBlocks, hShows⟩

end Snippet

end Stackable
