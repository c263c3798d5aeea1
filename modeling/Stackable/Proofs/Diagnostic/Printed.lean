import Mathlib.Data.List.SplitBy
import Stackable.Proofs.Diagnostic.Row
import Stackable.Proofs.Source.Positions

/-!
# What is printed

`format?` prints a diagnostic with reads that may fail: a position is looked up by its index, the
slots of a row are cut out of it, a hanging message is taken by its number, and a column is counted
down only where it is positive. If all of this is there, it prints what `format` prints. What is
printed has a block for each marked line, with the underlines of the line below its text.
-/

set_option autoImplicit false

namespace Stackable.Snippet

/-- The line on which a label starts, and what the label covers of it. -/
def underlineOf? (lines : LineMap) (label : Label) : Option (Nat × Underline) := do
  let start ← lines.position? label.span.start
  let stop ← lines.position? label.span.stop
  return (start.line, underlineBetween lines label start stop)

def markedLines? (lines : LineMap) (labels : List Label) : Option (List MarkedLine) := do
  let underlines ← labels.mapM (underlineOf? lines)
  let numbers := ((underlines.map (·.1)).mergeSort fun a b => decide (a ≤ b)).eraseReps
  return numbers.map fun number =>
    ⟨number, lineText lines number, (underlines.filter (·.1 == number)).map (·.2)⟩

def hangingRow? (width : Nat) (hanging : List Message) (i : Nat) : Option (List Styled) := do
  let m ← hanging[i]?
  if 0 < m.column then return hangingRow width (hanging.take i) m else none

def hangingRows? (width : Nat) (hanging : List Message) : Option (List Styled) := do
  if hanging.isEmpty then return []
  else
    let rows ← (List.range hanging.length).reverse.mapM (hangingRow? width hanging)
    return strokeRow width hanging ++ rows.flatten

def rowsBelow? (width : Nat) (line : MarkedLine) : Option (List Styled) := do
  let row := trimRight (← underlineRow? line)
  let ms := messages line
  if row.isEmpty then return []
  else
    let hanging ← hangingRows? width ms.dropLast
    return margin width ++ .plain " " :: paintRow row ++ inlineMessage ms ++ newline :: hanging

def lineRows? (width : Nat) : Option Nat → List MarkedLine → Option (List Styled)
  | _, [] => some []
  | above, line :: rest => do
    let below ← rowsBelow? width line
    let others ← lineRows? width (some line.number) rest
    return gap width above line.number ++ markedLine width line ++ below ++ others

def body? (lines : LineMap) (file : Option String) (d : Diagnostic) (primary : Span) :
    Option (List Styled) := do
  let marked ← markedLines? lines d.labels
  let p ← lines.position? primary.start
  let rows ← lineRows? (marginWidth marked) none marked
  return arrow file p ++ rows ++ closing (marginWidth marked) d

def footer? (lines : LineMap) (d : Diagnostic) : Option (List Styled) := do
  let help ← match d.help with
    | some h => do
      let rows ← match h.suggestion with
        | some s => (lines.position? s.span.start).map (suggestionRows lines s)
        | none => some []
      pure (remark "help" h.message ++ rows)
    | none => some []
  return d.notes.flatMap (remark "note") ++ help

def format? (lines : LineMap) (file : Option String) (d : Diagnostic) : Option (List Styled) := do
  let shown ← match d.primarySpan? with
    | some primary => body? lines file d primary
    | none => some []
  let below ← footer? lines d
  return header d ++ shown ++ below

theorem mapM_eq_some {α β : Type} {f : α → Option β} {g : α → β} {l : List α}
    (h : ∀ a ∈ l, f a = some (g a)) : l.mapM f = some (l.map g) := by
  induction l with
  | nil => rfl
  | cons a l ih =>
    obtain ⟨ha, hRest⟩ := List.forall_mem_cons.mp h
    rw [List.mapM_cons, ha, ih hRest]
    rfl

section

variable {lines : LineMap} {labels : List Label} {width : Nat} {hanging : List Message}
  {line : MarkedLine} {d : Diagnostic}

/-- Every position of a diagnostic is counted from the start of a line. -/
theorem markedLines?_eq (h : ∀ offset, lines.position? offset = some (lines.position offset))
    (labels : List Label) : markedLines? lines labels = some (markedLines lines labels) := by
  have hAll : ∀ label ∈ labels, underlineOf? lines label =
      some (lineOf lines label, underlineOf lines label) := by
    intro label _
    rw [underlineOf?, h, h]
    rfl
  rw [markedLines?, mapM_eq_some hAll, Option.bind_eq_bind, Option.bind_some, markedLines]
  simp only [List.map_map, List.filter_map, Function.comp_def]
  rfl

/-- The rows of hanging messages, by their number. -/
theorem map_zipIdx_eq (width : Nat) (hanging : List Message) :
    hanging.zipIdx.map (fun (m, i) => hangingRow width (hanging.take i) m) =
      (List.range hanging.length).map fun i =>
        ((hanging[i]?).map (hangingRow width (hanging.take i))).getD [] := by
  apply List.ext_getElem?
  intro i
  rw [List.getElem?_map, List.getElem?_zipIdx, List.getElem?_map]
  rcases Nat.lt_or_ge i hanging.length with hi | hi
  · rw [List.getElem?_range hi, List.getElem?_eq_getElem hi]
    simp [List.getElem?_eq_getElem hi]
  · rw [List.getElem?_eq_none hi, List.getElem?_eq_none (by rwa [List.length_range])]
    rfl

theorem hangingRows?_eq (width : Nat) (h : ∀ m ∈ hanging, 0 < m.column) :
    hangingRows? width hanging = some (hangingRows width hanging) := by
  have hAll : ∀ i ∈ (List.range hanging.length).reverse, hangingRow? width hanging i =
      some (((hanging[i]?).map (hangingRow width (hanging.take i))).getD []) := by
    intro i hi
    have hIndex : i < hanging.length := List.mem_range.mp (List.mem_reverse.mp hi)
    rw [hangingRow?, List.getElem?_eq_getElem hIndex, Option.bind_eq_bind, Option.bind_some,
      if_pos (h _ (List.getElem_mem hIndex))]
    rfl
  rw [hangingRows?, hangingRows]
  split
  · rfl
  · rw [mapM_eq_some hAll, List.map_reverse, ← map_zipIdx_eq, ← List.map_reverse,
      List.flatMap_def]
    rfl

theorem rowsBelow?_eq (width : Nat) (hRow : underlineRow? line = some (underlineRow line))
    (hHanging : ∀ m ∈ (messages line).dropLast, 0 < m.column) :
    rowsBelow? width line = some (rowsBelow width line) := by
  rw [rowsBelow?, hRow, Option.bind_eq_bind, Option.bind_some, rowsBelow]
  dsimp only
  split
  · rfl
  · rw [hangingRows?_eq width hHanging]
    rfl

theorem lineRows?_eq {marked : List MarkedLine}
    (h : ∀ line ∈ marked, rowsBelow? width line = some (rowsBelow width line))
    (above : Option Nat) : lineRows? width above marked = some (lineRows width above marked) := by
  induction marked generalizing above with
  | nil => rfl
  | cons line marked ih =>
    obtain ⟨hLine, hRest⟩ := List.forall_mem_cons.mp h
    rw [lineRows?, hLine, ih hRest]
    rfl

theorem footer?_eq (h : ∀ offset, lines.position? offset = some (lines.position offset))
    (d : Diagnostic) : footer? lines d = some (footer lines d) := by
  unfold footer? footer
  cases d.help with
  | none => rfl
  | some help =>
    cases hSuggestion : help.suggestion with
    | none => simp [hSuggestion]
    | some s => simp [hSuggestion, h]

end

section

variable {line : MarkedLine} {row : List Char}

theorem exists_trimRight (row : List Char) : ∃ n, row = trimRight row ++ List.replicate n ' ' := by
  have hBlank : ∀ c ∈ (row.reverse.takeWhile (· == ' ')).reverse, c = ' ' := by
    intro c hc
    simpa using List.mem_takeWhile_imp (List.mem_reverse.mp hc)
  refine ⟨((row.reverse.takeWhile (· == ' ')).reverse).length, ?_⟩
  rw [← List.eq_replicate_of_mem hBlank, trimRight, ← List.reverse_append,
    List.takeWhile_append_dropWhile, List.reverse_reverse]

theorem getLast?_trimRight_ne (row : List Char) : (trimRight row).getLast? ≠ some ' ' := by
  rw [trimRight, List.getLast?_reverse]
  intro h
  have hHead := List.head?_dropWhile_not (· == ' ') row.reverse
  rw [h] at hHead
  cases hHead

/-- Painting a row changes nothing but its colours. -/
theorem renderAll_paintRow (row : List Char) :
    Styled.renderAll false (paintRow row) = String.ofList row := by
  have hText : ∀ runs : List (List Char), (runs.map paintRun).map (Styled.render false) =
      runs.map String.ofList := by
    intro runs
    rw [List.map_map]
    refine List.map_congr_left fun run _ => ?_
    unfold paintRun
    dsimp only [Function.comp_apply]
    split <;> rfl
  rw [Styled.renderAll, paintRow, hText, ← String.toList_inj, String.toList_join, List.flatMap_map,
    String.toList_ofList]
  simp only [String.toList_ofList, List.flatMap_id', List.flatten_splitBy]

/-- What is printed for a line: the line behind its number, and below it, unless they are all blank,
its underlines up to the last one. The message of the rightmost label goes on behind them, and rows
with the other messages follow. -/
inductive Block (width : Nat) (line : MarkedLine) : List Styled → Prop where
  | bare {above : Option Nat} {n : Nat} (h : underlineRow line = List.replicate n ' ') :
      Block width line (gap width above line.number ++ markedLine width line)
  | underlined {above : Option Nat} {row : List Char} {n : Nat} {painted : List Styled}
      (h : underlineRow line = row ++ List.replicate n ' ') (hLast : row.getLast? ≠ some ' ')
      (hPainted : Styled.renderAll false painted = String.ofList row) :
      Block width line (gap width above line.number ++ markedLine width line ++
        (margin width ++ .plain " " :: painted ++ inlineMessage (messages line) ++
          newline :: hangingRows width (messages line).dropLast))

theorem block_lineRows (width : Nat) (above : Option Nat) (line : MarkedLine) :
    Block width line
      (gap width above line.number ++ markedLine width line ++ rowsBelow width line) := by
  obtain ⟨n, hRow⟩ := exists_trimRight (underlineRow line)
  rw [rowsBelow]
  split
  next hEmpty =>
    rw [List.isEmpty_iff.mp hEmpty] at hRow
    rw [List.append_nil]
    exact .bare hRow
  next => exact .underlined hRow (getLast?_trimRight_ne _) (renderAll_paintRow _)

theorem exists_blocks (width : Nat) (above : Option Nat) (marked : List MarkedLine) :
    ∃ blocks, lineRows width above marked = blocks.flatten ∧
      List.Forall₂ (Block width) marked blocks := by
  induction marked generalizing above with
  | nil => exact ⟨[], rfl, .nil⟩
  | cons line marked ih =>
    obtain ⟨blocks, hRows, hBlocks⟩ := ih (some line.number)
    refine ⟨_ :: blocks, ?_, .cons (block_lineRows width above line) hBlocks⟩
    rw [lineRows, hRows, List.flatten_cons]

end

end Stackable.Snippet
