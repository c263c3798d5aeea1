import Mathlib.Data.List.Nodup
import Mathlib.Data.List.Perm.Subperm
import Stackable.Table

/-!
# Tables filled from lists

What a table holds once it has been filled entry by entry. Where the keys of the list are distinct,
it holds the list.
-/

set_option autoImplicit false

namespace Stackable.Table

variable {κ α β : Type} [DecidableEq κ]

def addAll (t : Table κ α) (l : List (κ × α)) : Table κ α := l.foldl (fun t e => t.insert e.1 e.2) t

theorem addAll_append (t : Table κ α) (l l' : List (κ × α)) :
    t.addAll (l ++ l') = (t.addAll l).addAll l' :=
  List.foldl_append

/-- Of several entries for a key the last one stays. -/
theorem get?_addAll (t : Table κ α) (l : List (κ × α)) (k : κ) :
    (t.addAll l).get? k = (l.reverse.lookup k).or (t.get? k) := by
  induction l generalizing t with
  | nil => rfl
  | cons e l ih =>
    obtain ⟨first, v⟩ := e
    change ((t.insert first v).addAll l).get? k = _
    rw [ih, get?_insert, List.reverse_cons, List.lookup_append, Option.or_assoc]
    congr 1
    rw [List.lookup_cons, List.lookup_nil]
    split
    · next h => rw [beq_iff_eq.mpr h]; rfl
    · next h => rw [beq_eq_false_iff_ne.mpr h]; rfl

section Distinct

variable {l : List (κ × α)} (h : (l.map (·.1)).Nodup)

include h

theorem get?_addAll_empty_iff {k : κ} {v : α} :
    ((empty : Table κ α).addAll l).get? k = some v ↔ (k, v) ∈ l := by
  rw [get?_addAll, get?_empty, Option.or_none, lookup_eq_some_iff_mem, List.mem_reverse]
  rwa [List.map_reverse, List.nodup_reverse]

theorem size_addAll_empty : ((empty : Table κ α).addAll l).size = l.length := by
  apply List.Perm.length_eq
  rw [List.perm_ext_iff_of_nodup (.of_map _ (nodup _)) (.of_map _ h)]
  rintro ⟨k, v⟩
  rw [← get?_eq_some_iff, get?_addAll_empty_iff h]

end Distinct

/-- There are at least as many entries as keys that are known to have one. -/
theorem length_le_size {t : Table κ α} {keys : List κ} (hNodup : keys.Nodup)
    (h : ∀ k ∈ keys, (t.get? k).isSome) : keys.length ≤ t.size := by
  have hSubset : keys ⊆ t.entries.map (·.1) := fun k hk => by
    obtain ⟨v, hv⟩ := Option.isSome_iff_exists.mp (h k hk)
    exact List.mem_map.mpr ⟨_, get?_eq_some_iff.mp hv, rfl⟩
  have hLength := (List.subperm_of_subset hNodup hSubset).length_le
  rwa [List.length_map] at hLength

def mapValues (f : α → β) (t : Table κ α) : Table κ β where
  entries := t.entries.map fun e => (e.1, f e.2)
  nodup := by simpa [List.map_map, Function.comp_def] using t.nodup

theorem get?_mapValues (f : α → β) (t : Table κ α) (k : κ) :
    (t.mapValues f).get? k = (t.get? k).map f := by
  apply Option.ext
  intro v
  simp [get?_eq_some_iff, mapValues]

omit [DecidableEq κ] in
theorem size_mapValues (f : α → β) (t : Table κ α) : (t.mapValues f).size = t.size :=
  List.length_map _

theorem addAll_mapValues (f : α → β) (t : Table κ α) (l : List (κ × α)) :
    (t.mapValues f).addAll (l.map fun e => (e.1, f e.2)) = (t.addAll l).mapValues f := by
  induction l generalizing t with
  | nil => rfl
  | cons e l ih =>
    have hInsert : (t.mapValues f).insert e.1 (f e.2) = (t.insert e.1 e.2).mapValues f := by
      simp [insert, mapValues, List.filter_map, Function.comp_def]
    change ((t.mapValues f).insert e.1 (f e.2)).addAll _ = _
    rw [hInsert, ih]
    rfl

end Stackable.Table
