/-!
# Tables

Finite maps. Every key has one entry; a later entry takes the place of an earlier one.
-/

set_option autoImplicit false

namespace Stackable

structure Table (κ α : Type) where
  entries : List (κ × α)
  nodup : (entries.map (·.1)).Nodup

theorem lookup_eq_some_iff_mem {κ α : Type} [DecidableEq κ] {l : List (κ × α)}
    (h : (l.map (·.1)).Nodup) {k : κ} {v : α} : l.lookup k = some v ↔ (k, v) ∈ l := by
  induction l with
  | nil => simp
  | cons e rest ih =>
    obtain ⟨first, found⟩ := e
    rw [List.map_cons, List.nodup_cons] at h
    rw [List.lookup_cons, List.mem_cons]
    split
    · next hEq =>
      obtain rfl := beq_iff_eq.mp hEq
      have hNot : (k, v) ∉ rest := fun hMem => h.1 (List.mem_map.mpr ⟨_, hMem, rfl⟩)
      simp [hNot, eq_comm]
    · next hEq =>
      rw [ih h.2]
      simp [beq_eq_false_iff_ne.mp hEq]

namespace Table

variable {κ α β : Type} [DecidableEq κ]

def empty : Table κ α := ⟨[], List.nodup_nil⟩

def size (t : Table κ α) : Nat := t.entries.length

def get? (t : Table κ α) (k : κ) : Option α := t.entries.lookup k

def insert (t : Table κ α) (k : κ) (v : α) : Table κ α where
  entries := (k, v) :: t.entries.filter (·.1 ≠ k)
  nodup := by
    rw [List.map_cons, List.nodup_cons]
    refine ⟨by simp, ?_⟩
    exact t.nodup.sublist (List.filter_sublist.map _)

theorem get?_eq_some_iff {t : Table κ α} {k : κ} {v : α} : t.get? k = some v ↔ (k, v) ∈ t.entries :=
  lookup_eq_some_iff_mem t.nodup

@[simp] theorem get?_empty (k : κ) : (empty : Table κ α).get? k = none := rfl

theorem get?_insert (t : Table κ α) (k : κ) (v : α) (k' : κ) :
    (t.insert k v).get? k' = if k' = k then some v else t.get? k' := by
  split
  · next h => exact get?_eq_some_iff.mpr (h ▸ List.mem_cons_self)
  · next h =>
    apply Option.ext
    intro w
    rw [get?_eq_some_iff, get?_eq_some_iff]
    simp [insert, h]

end Table

end Stackable
