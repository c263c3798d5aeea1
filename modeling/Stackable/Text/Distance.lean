import Stackable.Text.Bytes

/-!
# Mistyped names

How far two texts are apart, counted in characters inserted, deleted or replaced, and which of
some candidates a name was probably meant to be.
-/

set_option autoImplicit false

namespace Stackable.Text

/-- Distances to the beginnings of a text of `n` characters, in two rows that take turns. `last` is
complete; `next` is written over it entry by entry and holds an older row until then. -/
structure Rows (n : Nat) where
  last : Vector Nat (n + 1)
  next : Vector Nat (n + 1)

namespace Rows

variable {n : Nat}

/-- The rows in front of the first character. Nothing reads `next` before it is written. -/
def first (n : Nat) : Rows n := ⟨Vector.range (n + 1), Vector.replicate (n + 1) 0⟩

/-- Writes the entry behind character `j` of the target, where `c` is the character that the next
row is for. -/
def write (target : Vector Char n) (c : Char) (rows : Rows n) (j : Fin n) : Rows n :=
  let above := rows.last[j.val + 1]
  let left := rows.next[j.val]
  let corner := rows.last[j.val]
  let entry := min (min (above + 1) (left + 1)) (corner + if c = target[j] then 0 else 1)
  { rows with next := rows.next.set (j.val + 1) entry }

/-- Writes the row for character `c`, the `i`th from zero, and lets the rows change places. -/
def advance (target : Vector Char n) (rows : Rows n) (c : Char × Nat) : Rows n :=
  let opened : Rows n := { rows with next := rows.next.set 0 (c.2 + 1) }
  let written := Fin.foldl n (write target c.1) opened
  ⟨written.next, written.last⟩

end Rows

def editDistance (source target : List Char) : Nat :=
  let chars : Vector Char target.length := ⟨target.toArray, List.size_toArray⟩
  (source.zipIdx.foldl (Rows.advance chars) (Rows.first target.length)).last[target.length]

def typoBound (bytes : Nat) : Nat := if bytes ≤ 2 then 1 else if bytes ≤ 5 then 2 else 3

def firstLeast? {α : Type} (key : α → Nat) : List α → Option α
  | [] => none
  | a :: rest =>
    match firstLeast? key rest with
    | none => some a
    | some b => if key a ≤ key b then some a else some b

def hasNearLength (name candidate : String) : Bool :=
  let n := byteSize name.toList
  let m := byteSize candidate.toList
  decide (n - m ≤ typoBound n ∧ m - n ≤ typoBound n)

def closest? (name : String) (candidates : List String) : Option String :=
  let distance := fun candidate : String => editDistance name.toList candidate.toList
  firstLeast? distance ((candidates.filter (hasNearLength name)).filter fun candidate =>
    distance candidate ≤ typoBound (byteSize name.toList))

def didYouMean? (name : String) (candidates : List String) : Option String :=
  (closest? name candidates).map fun candidate => "did you mean `" ++ candidate ++ "`?"

end Stackable.Text
