/-!
# Sorted lists without repetitions

Equal elements of a sorted list stand together, so that leaving out what repeats the element in
front of it leaves each of them once.
-/

set_option autoImplicit false

namespace Stackable

variable {α β : Type} {r : α → α → Bool} {x : α} {l : List α}

theorem eraseRepsBy_cons_cons {a b : α} : (a :: b :: l).eraseRepsBy r =
    if r a b then (a :: l).eraseRepsBy r else a :: (b :: l).eraseRepsBy r := by
  have hLoop : ∀ (l : List α) (a : α) (acc : List α),
      List.eraseRepsBy.loop r a l acc = acc.reverse ++ List.eraseRepsBy.loop r a l [] := by
    intro l
    induction l with
    | nil => intro a acc; simp [List.eraseRepsBy.loop]
    | cons b l ih =>
      intro a acc
      simp only [List.eraseRepsBy.loop]
      cases r a b with
      | true => exact ih a acc
      | false =>
        dsimp only
        rw [ih b (a :: acc), ih b [a], List.reverse_cons, List.reverse_singleton, List.append_assoc]
  simp only [List.eraseRepsBy, List.eraseRepsBy.loop]
  cases r a b with
  | true => rfl
  | false => exact hLoop l b [a]

theorem mem_of_mem_eraseRepsBy (h : x ∈ l.eraseRepsBy r) : x ∈ l := by
  cases l with
  | nil => exact h
  | cons a l =>
    induction l generalizing a with
    | nil => exact h
    | cons b l ih =>
      rw [eraseRepsBy_cons_cons] at h
      split at h
      · rcases List.mem_cons.mp (ih a h) with rfl | hx
        · exact List.mem_cons_self
        · exact List.mem_cons_of_mem _ (List.mem_cons_of_mem _ hx)
      · rcases List.mem_cons.mp h with rfl | hx
        · exact List.mem_cons_self
        · exact List.mem_cons_of_mem _ (ih b hx)

/-- What repeats an element has its key. -/
theorem exists_mem_eraseRepsBy {key : α → β} (hKey : ∀ a b, r a b = true → key a = key b)
    (hx : x ∈ l) : ∃ y ∈ l.eraseRepsBy r, key y = key x := by
  cases l with
  | nil => exact absurd hx List.not_mem_nil
  | cons a l =>
    induction l generalizing a x with
    | nil => exact ⟨x, hx, rfl⟩
    | cons b l ih =>
      rw [eraseRepsBy_cons_cons]
      split
      · next hSame =>
        rw [List.mem_cons, List.mem_cons] at hx
        rcases hx with rfl | rfl | hx
        · exact ih x List.mem_cons_self
        · rw [← hKey _ _ hSame]
          exact ih a List.mem_cons_self
        · exact ih a (List.mem_cons_of_mem _ hx)
      · rcases List.mem_cons.mp hx with rfl | hx
        · exact ⟨x, List.mem_cons_self, rfl⟩
        · obtain ⟨y, hy, hEq⟩ := ih b hx
          exact ⟨y, List.mem_cons_of_mem _ hy, hEq⟩

theorem mem_eraseReps [BEq α] [LawfulBEq α] : x ∈ l.eraseReps ↔ x ∈ l := by
  constructor
  · exact mem_of_mem_eraseRepsBy
  · intro hx
    obtain ⟨y, hy, hEq⟩ : ∃ y ∈ l.eraseReps, id y = id x :=
      exists_mem_eraseRepsBy (fun _ _ h => eq_of_beq h) hx
    exact (show y = x from hEq) ▸ hy

/-- A list in order ascends strictly if neighbours that are no repetitions do. -/
theorem pairwise_eraseRepsBy {le lt : α → α → Prop} (h : l.Pairwise le)
    (hLt : ∀ a b, le a b → r a b = false → lt a b) (hTrans : ∀ a b c, lt a b → le b c → lt a c) :
    (l.eraseRepsBy r).Pairwise lt := by
  cases l with
  | nil => exact .nil
  | cons a l =>
    induction l generalizing a with
    | nil => exact List.pairwise_singleton _ _
    | cons b l ih =>
      obtain ⟨hA, hRest⟩ := List.pairwise_cons.mp h
      obtain ⟨hB, hTail⟩ := List.pairwise_cons.mp hRest
      rw [eraseRepsBy_cons_cons]
      split
      · exact ih a (List.pairwise_cons.mpr ⟨fun x hx => hA x (List.mem_cons_of_mem _ hx), hTail⟩)
      · next hDiffer =>
        have hBefore : lt a b := hLt a b (hA b List.mem_cons_self) (by simpa using hDiffer)
        refine List.pairwise_cons.mpr ⟨fun x hx => ?_, ih b hRest⟩
        rcases List.mem_cons.mp (mem_of_mem_eraseRepsBy hx) with rfl | hx
        · exact hBefore
        · exact hTrans a b x hBefore (hB x hx)

end Stackable
