import Stackable.Text.Bytes

/-!
# Spans and lines

A span is a half-open range of byte offsets. A line map turns offsets into line and column
numbers, both counted from one. Columns count bytes, or UTF-16 code units where editors are to
agree with them.
-/

set_option autoImplicit false

namespace Stackable

structure Span where
  start : Nat
  stop : Nat
deriving Repr, DecidableEq, Inhabited

namespace Span

def join (a b : Span) : Span := ⟨min a.start b.start, max a.stop b.stop⟩

def length (s : Span) : Nat := s.stop - s.start

def isEmpty (s : Span) : Bool := s.length == 0

/-- The text under the span, if the span lies in the source and on character boundaries. -/
def text? (s : Span) (source : List Char) : Option (List Char) :=
  Text.slice? source s.start s.stop

end Span

structure Position where
  line : Nat
  column : Nat
deriving Repr, DecidableEq, Inhabited

structure LineMap where
  source : List Char
  starts : List Nat

namespace LineMap

def startsAfter (offset : Nat) : List Char → List Nat
  | [] => []
  | c :: cs =>
    if c = '\n' then (offset + 1) :: startsAfter (offset + 1) cs
    else startsAfter (offset + c.utf8Size) cs

/-- Offsets are kept in 32 bits. -/
def narrow (offset : Nat) : Nat := offset % 4294967296

def ofSource (source : List Char) : LineMap :=
  ⟨source, 0 :: (startsAfter 0 source).map narrow⟩

def lineCount (m : LineMap) : Nat := m.starts.length

/-- Line and byte column of an offset: the line is the last one that starts at or before it. -/
def position (m : LineMap) (offset : Nat) : Position :=
  let offset := narrow offset
  let reached := m.starts.takeWhile (· ≤ offset)
  ⟨reached.length, offset - reached.getLastD 0 + 1⟩

/-- As `position`, with the column in UTF-16 code units. An offset inside a character keeps its
byte column. -/
def editorPosition (m : LineMap) (offset : Nat) : Position :=
  let p := m.position offset
  match Text.slice? m.source (offset - (p.column - 1)) offset with
  | some before => ⟨p.line, Text.unitSize before + 1⟩
  | none => p

def dropReturn (line : List Char) : List Char :=
  if line.getLast? = some '\r' then line.dropLast else line

def lineText? (m : LineMap) (line : Nat) : Option (List Char) :=
  match line with
  | 0 => none
  | n + 1 => do
    let start ← m.starts[n]?
    let stop := match m.starts[n + 1]? with
      | some next => next - 1
      | none => Text.byteSize m.source
    (Text.slice? m.source start stop).map dropReturn

end LineMap

end Stackable
