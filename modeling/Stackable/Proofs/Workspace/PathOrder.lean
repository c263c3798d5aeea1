import Stackable.Proofs.Sorting
import Stackable.Workspace.Sources

/-!
# The order of paths

Paths are compared by their components, and components by their kind before their text. This is a
linear order on lists of components, so what is arranged by it ascends strictly and is determined by
which paths it holds.
-/

set_option autoImplicit false

namespace Stackable.Path

open Std

/-- The place of a kind of component among the kinds. -/
def Component.rank : Component → Nat
  | .root => 0
  | .here => 1
  | .up => 2
  | .name _ => 3

theorem Component.compare_eq :
    (compare : Component → Component → Ordering) =
      compareLex (compareOn rank) (compareOn text) := by
  funext a b
  cases a <;> cases b <;> first | rfl | skip
  next s t =>
    show (compare s t).then .eq = compare s t
    cases compare s t <;> rfl

instance : TransOrd Component := by
  show TransCmp (compare : Component → Component → Ordering)
  rw [Component.compare_eq]
  infer_instance

instance : LawfulEqOrd Component where
  eq_of_compare {a b} h := by
    rw [Component.compare_eq, compareLex_eq_eq] at h
    obtain ⟨hRank, hText⟩ := h
    have hRank : a.rank = b.rank := LawfulEqCmp.eq_of_compare hRank
    have hText : a.text = b.text := LawfulEqCmp.eq_of_compare hText
    cases a <;> cases b <;> simp_all [Component.rank, Component.text]

theorem compareComponents_eq : compareComponents = List.compareLex compare := by
  funext a b
  induction a generalizing b with
  | nil => cases b <;> rfl
  | cons x a ih =>
    cases b with
    | nil => rfl
    | cons y b => rw [compareComponents, List.compareLex_cons_cons, ih]

instance : TransCmp compareComponents := by
  rw [compareComponents_eq]
  infer_instance

instance : LawfulEqCmp compareComponents := by
  rw [compareComponents_eq]
  infer_instance

/-- One path comes in front of another one. -/
def Before (a b : String) : Prop := compareComponents (components a) (components b) = .lt

theorem same_iff {a b : String} : same a b = true ↔ components a = components b := by
  rw [same, beq_iff_eq]

theorem le_iff {a b : String} : le a b = true ↔ Before a b ∨ components a = components b := by
  rw [le, Before, Ordering.isLE_iff_eq_lt_or_eq_eq, LawfulEqCmp.compare_eq_iff_eq]

theorem le_trans (a b c : String) (hab : le a b = true) (hbc : le b c = true) : le a c = true :=
  TransCmp.isLE_trans hab hbc

theorem le_total (a b : String) : (le a b || le b a) = true := by
  have hSwap : compareComponents (components b) (components a) =
      (compareComponents (components a) (components b)).swap := OrientedCmp.eq_swap
  rw [le, le, hSwap]
  cases compareComponents (components a) (components b) <;> rfl

theorem Before.trans_le {a b c : String} (hab : Before a b) (hbc : le b c = true) : Before a c :=
  TransCmp.lt_of_lt_of_isLE hab hbc

/-- Lists that ascend strictly and hold the same paths are the same. -/
theorem map_components_eq {l l' : List String} (h : l.Pairwise Before) (h' : l'.Pairwise Before)
    (hMem : ∀ a ∈ l, ∃ b ∈ l', components b = components a)
    (hMem' : ∀ b ∈ l', ∃ a ∈ l, components a = components b) :
    l.map components = l'.map components := by
  have hSorted : ∀ {l : List String}, l.Pairwise Before →
      (l.map components).Pairwise (compareComponents · · = .lt) :=
    fun h => List.pairwise_map.mpr h
  have hNodup : ∀ {l : List String}, l.Pairwise Before → (l.map components).Nodup := fun h =>
    (hSorted h).imp fun hLt hEq => by simp [hEq, ReflCmp.compare_self] at hLt
  refine List.Perm.eq_of_pairwise (fun a b _ _ hab hba => ?_) (hSorted h) (hSorted h')
    ((List.perm_ext_iff_of_nodup (hNodup h) (hNodup h')).mpr fun k => ?_)
  · exact absurd hba (OrientedCmp.not_lt_of_lt hab)
  · rw [List.mem_map, List.mem_map]
    constructor
    · rintro ⟨a, ha, rfl⟩
      exact hMem a ha
    · rintro ⟨b, hb, rfl⟩
      exact hMem' b hb

end Stackable.Path

namespace Stackable.Sources

theorem pairwise_arrange {paths : List String} : (arrange paths).Pairwise Path.Before :=
  pairwise_eraseRepsBy (List.pairwise_mergeSort Path.le_trans Path.le_total paths)
    (fun _ _ hLe hDiffer => (Path.le_iff.mp hLe).resolve_right fun hSame =>
      Bool.eq_false_iff.mp hDiffer (Path.same_iff.mpr hSame))
    fun _ _ _ => Path.Before.trans_le

theorem mem_of_mem_arrange {paths : List String} {q : String} (h : q ∈ arrange paths) : q ∈ paths :=
  List.mem_mergeSort.mp (mem_of_mem_eraseRepsBy h)

theorem exists_mem_arrange {paths : List String} {q : String} (h : q ∈ paths) :
    ∃ f ∈ arrange paths, Path.components f = Path.components q :=
  exists_mem_eraseRepsBy (fun _ _ => Path.same_iff.mp) (List.mem_mergeSort.mpr h)

end Stackable.Sources
