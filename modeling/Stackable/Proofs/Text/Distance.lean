import Mathlib.Data.List.Induction
import Mathlib.Order.Bounds.Basic
import Mathlib.Order.MinMax
import Stackable.Text.Distance

/-!
# The distance of two texts

An edit inserts, deletes or replaces one character. The distance of two texts is the least number
of edits that turn one into the other, and it can be had from the distances of shorter texts. The
rows hold it for all beginnings of the target: each entry is written from three that are already
there, and what an older row left behind is not read.
-/

set_option autoImplicit false

namespace Stackable.Text

inductive Edit : List Char → List Char → Prop
  | insert (pre post : List Char) (c : Char) : Edit (pre ++ post) (pre ++ c :: post)
  | delete (pre post : List Char) (c : Char) : Edit (pre ++ c :: post) (pre ++ post)
  | replace (pre post : List Char) (c d : Char) : Edit (pre ++ c :: post) (pre ++ d :: post)

/-- So many edits, one after the other, turn the first text into the second. -/
inductive Edits : Nat → List Char → List Char → Prop
  | none (xs : List Char) : Edits 0 xs xs
  | more {n : Nat} {xs ys zs : List Char} : Edits n xs ys → Edit ys zs → Edits (n + 1) xs zs

variable {xs ys zs : List Char} {c d : Char} {n : Nat}

theorem Edit.cons (c : Char) (h : Edit xs ys) : Edit (c :: xs) (c :: ys) := by
  cases h with
  | insert pre post d => exact .insert (c :: pre) post d
  | delete pre post d => exact .delete (c :: pre) post d
  | replace pre post d e => exact .replace (c :: pre) post d e

theorem Edit.reverse (h : Edit xs ys) : Edit xs.reverse ys.reverse := by
  cases h with
  | insert pre post c => simpa using Edit.insert post.reverse pre.reverse c
  | delete pre post c => simpa using Edit.delete post.reverse pre.reverse c
  | replace pre post c d => simpa using Edit.replace post.reverse pre.reverse c d

theorem Edits.cons (c : Char) (h : Edits n xs ys) : Edits n (c :: xs) (c :: ys) := by
  induction h with
  | none => exact .none _
  | more _ hLast ih => exact ih.more (hLast.cons c)

theorem Edits.reverse (h : Edits n xs ys) : Edits n xs.reverse ys.reverse := by
  induction h with
  | none => exact .none _
  | more _ hLast ih => exact ih.more hLast.reverse

theorem edits_reverse_iff : Edits n xs.reverse ys.reverse ↔ Edits n xs ys := by
  constructor
  · intro h
    simpa using h.reverse
  · exact Edits.reverse

def distance : List Char → List Char → Nat
  | [], ys => ys.length
  | x :: xs, [] => (x :: xs).length
  | x :: xs, y :: ys =>
    min (min (distance xs (y :: ys) + 1) (distance (x :: xs) ys + 1))
      (distance xs ys + if x = y then 0 else 1)
termination_by xs ys => xs.length + ys.length

theorem distance_nil_left (ys : List Char) : distance [] ys = ys.length := by
  rw [distance]

theorem distance_nil_right (xs : List Char) : distance xs [] = xs.length := by
  cases xs with
  | nil => rw [distance]
  | cons x xs => rw [distance]

theorem distance_cons_cons (x y : Char) (xs ys : List Char) : distance (x :: xs) (y :: ys) =
    min (min (distance xs (y :: ys) + 1) (distance (x :: xs) ys + 1))
      (distance xs ys + if x = y then 0 else 1) := by
  rw [distance]

theorem distance_self (xs : List Char) : distance xs xs = 0 := by
  induction xs with
  | nil => exact distance_nil_left []
  | cons x xs ih =>
    rw [distance_cons_cons, ih, if_pos rfl]
    omega

theorem edits_nil_left (ys : List Char) : Edits ys.length [] ys := by
  induction ys with
  | nil => exact .none []
  | cons y ys ih => exact ih.more (.insert [] ys y)

theorem edits_nil_right (xs : List Char) : Edits xs.length xs [] := by
  induction xs with
  | nil => exact .none []
  | cons x xs ih => exact (ih.cons x).more (.delete [] [] x)

theorem edits_distance (xs ys : List Char) : Edits (distance xs ys) xs ys := by
  fun_induction distance xs ys with
  | case1 ys => exact edits_nil_left ys
  | case2 x xs => exact edits_nil_right (x :: xs)
  | case3 x xs y ys ihDelete ihInsert ihKeep =>
    have hDelete : Edits (distance xs (y :: ys) + 1) (x :: xs) (y :: ys) :=
      (ihDelete.cons x).more (.delete [] (y :: ys) x)
    have hInsert : Edits (distance (x :: xs) ys + 1) (x :: xs) (y :: ys) :=
      ihInsert.more (.insert [] ys y)
    have hKeep : Edits (distance xs ys + if x = y then 0 else 1) (x :: xs) (y :: ys) := by
      split
      next h => exact h ▸ ihKeep.cons x
      next => exact (ihKeep.cons x).more (.replace [] ys x y)
    rcases min_choice (distance xs (y :: ys) + 1) (distance (x :: xs) ys + 1) with h | h
    all_goals
      rw [h]
      rcases min_choice _ (distance xs ys + if x = y then 0 else 1) with h | h
      all_goals
        rw [h]
        assumption

theorem distance_cons_left_le (x : Char) (xs ys : List Char) :
    distance (x :: xs) ys ≤ distance xs ys + 1 := by
  cases ys with
  | nil =>
    rw [distance_nil_right, distance_nil_right]
    exact Nat.le_refl _
  | cons y ys =>
    rw [distance_cons_cons]
    omega

theorem distance_cons_right_le (xs : List Char) (y : Char) (ys : List Char) :
    distance xs (y :: ys) ≤ distance xs ys + 1 := by
  cases xs with
  | nil =>
    rw [distance_nil_left, distance_nil_left]
    exact Nat.le_refl _
  | cons x xs =>
    rw [distance_cons_cons]
    omega

theorem distance_le_cons_right (xs : List Char) (y : Char) (ys : List Char) :
    distance xs ys ≤ distance xs (y :: ys) + 1 := by
  induction xs with
  | nil =>
    rw [distance_nil_left, distance_nil_left, List.length_cons]
    omega
  | cons x xs ih =>
    have hDelete := distance_cons_left_le x xs ys
    rw [distance_cons_cons]
    omega

theorem distance_replace_le (xs ys : List Char) (c d : Char) :
    distance xs (d :: ys) ≤ distance xs (c :: ys) + 1 := by
  induction xs with
  | nil =>
    rw [distance_nil_left, distance_nil_left, List.length_cons, List.length_cons]
    omega
  | cons x xs ih =>
    rw [distance_cons_cons, distance_cons_cons]
    have hCost : (if x = d then 0 else 1) ≤ 1 := by split <;> decide
    omega

/-- What one edit can add to a distance it adds behind a common character too. -/
theorem distance_cons_mono (h : ∀ xs, distance xs zs ≤ distance xs ys + 1) (c : Char)
    (xs : List Char) : distance xs (c :: zs) ≤ distance xs (c :: ys) + 1 := by
  induction xs with
  | nil =>
    have := h []
    rw [distance_nil_left, distance_nil_left] at this ⊢
    simpa using this
  | cons x xs ih =>
    have hInsert := h (x :: xs)
    have hKeep := h xs
    rw [distance_cons_cons, distance_cons_cons]
    omega

theorem Edit.distance_le (h : Edit ys zs) (xs : List Char) : distance xs zs ≤ distance xs ys + 1 := by
  cases h with
  | insert pre post c =>
    induction pre generalizing xs with
    | nil => exact distance_cons_right_le xs c post
    | cons d pre ih => exact distance_cons_mono ih d xs
  | delete pre post c =>
    induction pre generalizing xs with
    | nil => exact distance_le_cons_right xs c post
    | cons d pre ih => exact distance_cons_mono ih d xs
  | replace pre post c d =>
    induction pre generalizing xs with
    | nil => exact distance_replace_le xs post c d
    | cons e pre ih => exact distance_cons_mono ih e xs

theorem Edits.distance_le (h : Edits n xs ys) : distance xs ys ≤ n := by
  induction h with
  | none xs => exact Nat.le_of_eq (distance_self xs)
  | more _ hLast ih => exact Nat.le_trans (hLast.distance_le _) (Nat.succ_le_succ ih)

theorem isLeast_distance (xs ys : List Char) : IsLeast {n | Edits n xs ys} (distance xs ys) :=
  ⟨edits_distance xs ys, fun _ h => h.distance_le⟩

/-- A script read from the end edits the reversed texts. -/
theorem distance_reverse (xs ys : List Char) : distance xs.reverse ys.reverse = distance xs ys := by
  apply (isLeast_distance xs.reverse ys.reverse).unique
  have hScripts : {n | Edits n xs.reverse ys.reverse} = {n | Edits n xs ys} :=
    Set.ext fun n => edits_reverse_iff
  rw [hScripts]
  exact isLeast_distance xs ys

variable {source target : List Char} {j : Nat}

/-- The distance to the first `j` characters of the target. -/
def entry (source target : List Char) (j : Nat) : Nat := distance source (target.take j)

theorem entry_nil (h : j ≤ target.length) : entry [] target j = j := by
  rw [entry, distance_nil_left, List.length_take, Nat.min_eq_left h]

theorem entry_zero (source target : List Char) : entry source target 0 = source.length := by
  rw [entry, List.take_zero, distance_nil_right]

theorem entry_concat_succ (source : List Char) (c : Char) (h : j < target.length) :
    entry (source ++ [c]) target (j + 1) =
      min (min (entry source target (j + 1) + 1) (entry (source ++ [c]) target j + 1))
        (entry source target j + if c = target[j] then 0 else 1) := by
  have hSource : (source ++ [c]).reverse = c :: source.reverse := List.reverse_concat
  have hTarget : (target.take (j + 1)).reverse = target[j] :: (target.take j).reverse := by
    rw [← List.take_append_getElem h, List.reverse_concat]
  simp only [entry]
  rw [← distance_reverse (source ++ [c]) (target.take (j + 1)),
    ← distance_reverse source (target.take (j + 1)), ← distance_reverse (source ++ [c]) (target.take j),
    ← distance_reverse source (target.take j), hSource, hTarget]
  exact distance_cons_cons ..

theorem entry_length (source target : List Char) :
    entry source target target.length = distance source target := by
  rw [entry, List.take_length]

namespace Rows

variable {chars : Vector Char n} {rows : Rows n}

/-- The last row is the one of `source`. -/
def IsBehind (chars : Vector Char n) (source : List Char) (rows : Rows n) : Prop :=
  ∀ (j : Nat) (h : j < n + 1), rows.last[j] = entry source chars.toList j

/-- The next row is the one of `source` in its first `k` entries. -/
def IsWritten (chars : Vector Char n) (source : List Char) (k : Nat) (rows : Rows n) : Prop :=
  ∀ (j : Nat) (h : j < n + 1), j < k → rows.next[j] = entry source chars.toList j

theorem isBehind_first (chars : Vector Char n) : (first n).IsBehind chars [] := by
  intro j h
  rw [entry_nil (by simpa using Nat.le_of_lt_succ h)]
  exact Vector.getElem_range h

theorem write_spec {c : Char} (k : Fin n) (hLast : rows.IsBehind chars source)
    (hNext : rows.IsWritten chars (source ++ [c]) (k + 1)) :
    (rows.write chars c k).IsBehind chars source ∧
      (rows.write chars c k).IsWritten chars (source ++ [c]) (k + 2) := by
  refine ⟨hLast, ?_⟩
  intro j h hj
  have hk : k.val < chars.toList.length := by simp
  rcases Nat.lt_or_eq_of_le (Nat.le_of_lt_succ hj) with hj | rfl
  · rw [write, Vector.getElem_set_ne _ _ (by omega)]
    exact hNext j h hj
  · rw [write, Vector.getElem_set_self, entry_concat_succ source c hk, hLast, hLast,
      hNext k (by omega) (by omega), Vector.getElem_toList]
    rfl

/-- What holds before a loop and is kept by its rounds, counted by the rounds done, holds behind it. -/
theorem foldl_invariant {α : Type} {f : α → Fin n → α} (p : Nat → α → Prop) {a : α} (h : p 0 a)
    (step : ∀ (k : Fin n) (a : α), p k a → p (k + 1) (f a k)) : p n (Fin.foldl n f a) := by
  induction n with
  | zero => exact h
  | succ n ih =>
    rw [Fin.foldl_succ_last]
    exact step (Fin.last n) _ (ih fun k a => step k.castSucc a)

/-- One more character of the source, and the rows have changed places. -/
theorem isBehind_advance (c : Char) (h : rows.IsBehind chars source) :
    (rows.advance chars (c, source.length)).IsBehind chars (source ++ [c]) := by
  let opened : Rows n := { rows with next := rows.next.set 0 (source.length + 1) }
  have hOpened : opened.IsWritten chars (source ++ [c]) 1 := by
    intro j _ hj
    obtain rfl : j = 0 := by omega
    rw [Vector.getElem_set_self, entry_zero, List.length_append]
    rfl
  have hWritten := foldl_invariant (f := write chars c)
    (fun k rows => rows.IsBehind chars source ∧ rows.IsWritten chars (source ++ [c]) (k + 1))
    (show opened.IsBehind chars source ∧ opened.IsWritten chars (source ++ [c]) (0 + 1) from
      ⟨h, hOpened⟩)
    fun k _ hRows => write_spec k hRows.1 hRows.2
  intro j hj
  exact hWritten.2 j hj hj

theorem isBehind_foldl (chars : Vector Char n) (source : List Char) :
    (source.zipIdx.foldl (advance chars) (first n)).IsBehind chars source := by
  induction source using List.reverseRecOn with
  | nil => exact isBehind_first chars
  | append_singleton source c ih =>
    rw [List.zipIdx_append, List.foldl_append, Nat.zero_add]
    exact isBehind_advance c ih

end Rows

theorem editDistance_eq (source target : List Char) :
    editDistance source target = distance source target := by
  let chars : Vector Char target.length := ⟨target.toArray, List.size_toArray⟩
  have hRow := Rows.isBehind_foldl chars source target.length (Nat.lt_succ_self _)
  exact hRow.trans (entry_length source target)

/-- The rows compute the distance of two texts: the least number of single characters to insert,
delete or replace. -/
theorem editDistance_least (source target : List Char) :
    IsLeast {n | Edits n source target} (editDistance source target) := by
  rw [editDistance_eq]
  exact isLeast_distance source target

end Stackable.Text
