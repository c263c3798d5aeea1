/-!
# Source text by byte offset

Positions in a source text are offsets into its UTF-8 encoding. A cut of the text exists only
where both of its ends fall between two characters.
-/

set_option autoImplicit false

namespace Stackable.Text

def byteSize : List Char → Nat
  | [] => 0
  | c :: cs => c.utf8Size + byteSize cs

/-- The number of UTF-16 code units: two for a character above U+FFFF. -/
def unitSize : List Char → Nat
  | [] => 0
  | c :: cs => (if c.toNat < 0x10000 then 1 else 2) + unitSize cs

/-- What remains after the first `n` bytes, if `n` falls between two characters. -/
def dropBytes? : Nat → List Char → Option (List Char)
  | 0, cs => some cs
  | _ + 1, [] => none
  | n + 1, c :: cs => if c.utf8Size ≤ n + 1 then dropBytes? (n + 1 - c.utf8Size) cs else none

def takeBytes? : Nat → List Char → Option (List Char)
  | 0, _ => some []
  | _ + 1, [] => none
  | n + 1, c :: cs =>
    if c.utf8Size ≤ n + 1 then (takeBytes? (n + 1 - c.utf8Size) cs).map (c :: ·) else none

def slice? (cs : List Char) (start stop : Nat) : Option (List Char) :=
  if start ≤ stop then (dropBytes? start cs).bind (takeBytes? (stop - start)) else none

@[simp] theorem byteSize_append (xs ys : List Char) :
    byteSize (xs ++ ys) = byteSize xs + byteSize ys := by
  induction xs with
  | nil => simp [byteSize]
  | cons c cs ih => simp [byteSize, ih, Nat.add_assoc]

theorem exists_byteSize_cons (c : Char) (cs : List Char) : ∃ n, byteSize (c :: cs) = n + 1 ∧
    c.utf8Size ≤ n + 1 ∧ n + 1 - c.utf8Size = byteSize cs := by
  have hc := c.utf8Size_pos
  have hSize : byteSize (c :: cs) = c.utf8Size + byteSize cs := rfl
  exact ⟨byteSize (c :: cs) - 1, by omega, by omega, by omega⟩

theorem dropBytes?_append (xs ys : List Char) : dropBytes? (byteSize xs) (xs ++ ys) = some ys := by
  induction xs with
  | nil => simp [byteSize, dropBytes?]
  | cons c cs ih =>
    obtain ⟨n, hn, hle, hsub⟩ := exists_byteSize_cons c cs
    rw [hn, List.cons_append, dropBytes?, if_pos hle, hsub, ih]

theorem takeBytes?_append (xs ys : List Char) : takeBytes? (byteSize xs) (xs ++ ys) = some xs := by
  induction xs with
  | nil => simp [byteSize, takeBytes?]
  | cons c cs ih =>
    obtain ⟨n, hn, hle, hsub⟩ := exists_byteSize_cons c cs
    rw [hn, List.cons_append, takeBytes?, if_pos hle, hsub, ih, Option.map_some]

/-- The cut between two offsets on character boundaries is the text between them. -/
theorem slice?_append (pre mid post : List Char) :
    slice? (pre ++ mid ++ post) (byteSize pre) (byteSize pre + byteSize mid) = some mid := by
  simp [slice?, List.append_assoc, dropBytes?_append, takeBytes?_append]

end Stackable.Text
