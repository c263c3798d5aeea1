import Stackable.Proofs.Source.Lines
import Stackable.Proofs.Text.Distance

/-!
# The candidate that a name was meant to be

A name is answered with the first of the closest candidates among those that a typing error can
reach. Distances count characters, but candidates whose length in bytes is too far off are left
aside unseen. So the answer is missed exactly if the closest candidate is one of these, and it is
never missed in ASCII, where a text has as many bytes as characters.
-/

set_option autoImplicit false

namespace Stackable.Text

section FirstLeast

variable {α : Type} {key : α → Nat} {p q : α → Prop} {l : List α} {a b x : α}

/-- Of the elements with `p`, this one has the least key, and it is the first to have it. -/
def IsFirstLeast (key : α → Nat) (p : α → Prop) (l : List α) (a : α) : Prop :=
  ∃ pre post, l = pre ++ a :: post ∧ p a ∧
    (∀ x ∈ pre, p x → key a < key x) ∧ ∀ x ∈ post, p x → key a ≤ key x

theorem IsFirstLeast.holds (h : IsFirstLeast key p l a) : a ∈ l ∧ p a := by
  obtain ⟨pre, post, rfl, ha, _⟩ := h
  exact ⟨by simp, ha⟩

theorem IsFirstLeast.le (h : IsFirstLeast key p l a) (hx : x ∈ l) (hp : p x) : key a ≤ key x := by
  obtain ⟨pre, post, rfl, _, hPre, hPost⟩ := h
  rcases List.mem_append.mp hx with hx | hx
  · exact Nat.le_of_lt (hPre x hx hp)
  · rcases List.mem_cons.mp hx with rfl | hx
    · exact Nat.le_refl _
    · exact hPost x hx hp

/-- Among fewer elements it still is the first. -/
theorem IsFirstLeast.mono (h : IsFirstLeast key p l a) (hq : ∀ x, q x → p x) (ha : q a) :
    IsFirstLeast key q l a := by
  obtain ⟨pre, post, hl, _, hPre, hPost⟩ := h
  exact ⟨pre, post, hl, ha, fun x hx h => hPre x hx (hq x h), fun x hx h => hPost x hx (hq x h)⟩

theorem not_isFirstLeast_nil : ¬IsFirstLeast key p [] a := by
  rintro ⟨pre, post, hl, _⟩
  exact absurd hl.symm (by simp)

theorem isFirstLeast_cons : IsFirstLeast key p (x :: l) a ↔
    (x = a ∧ p a ∧ ∀ y ∈ l, p y → key a ≤ key y) ∨
      (IsFirstLeast key p l a ∧ (p x → key a < key x)) := by
  constructor
  · rintro ⟨pre, post, hl, ha, hPre, hPost⟩
    cases pre with
    | nil =>
      obtain ⟨rfl, rfl⟩ := List.cons.inj hl
      exact .inl ⟨rfl, ha, hPost⟩
    | cons y pre =>
      obtain ⟨rfl, rfl⟩ := List.cons.inj hl
      exact .inr ⟨⟨pre, post, rfl, ha, fun z hz => hPre z (List.mem_cons_of_mem _ hz), hPost⟩,
        hPre x List.mem_cons_self⟩
  · rintro (⟨rfl, ha, hPost⟩ | ⟨⟨pre, post, rfl, ha, hPre, hPost⟩, hx⟩)
    · exact ⟨[], l, rfl, ha, by simp, hPost⟩
    · exact ⟨x :: pre, post, rfl, ha, List.forall_mem_cons.mpr ⟨hx, hPre⟩, hPost⟩

theorem firstLeast?_eq_none_iff : firstLeast? key l = none ↔ l = [] := by
  cases l with
  | nil => exact iff_of_true rfl rfl
  | cons x l =>
    refine iff_of_false ?_ (List.cons_ne_nil x l)
    rw [firstLeast?]
    cases firstLeast? key l with
    | none => exact nofun
    | some b =>
      dsimp only
      split <;> exact nofun

theorem firstLeast?_cons_eq_some_iff : firstLeast? key (x :: l) = some a ↔
    (x = a ∧ ∀ b, firstLeast? key l = some b → key a ≤ key b) ∨
      (firstLeast? key l = some a ∧ key a < key x) := by
  rw [firstLeast?]
  cases firstLeast? key l with
  | none => simp
  | some b =>
    dsimp only
    split
    next hLe =>
      constructor
      · rintro ⟨⟩
        exact .inl ⟨rfl, fun _ h => Option.some.inj h ▸ hLe⟩
      · rintro (⟨rfl, _⟩ | ⟨⟨⟩, hLt⟩)
        · rfl
        · exact absurd hLe (Nat.not_le_of_lt hLt)
    next hLe =>
      constructor
      · rintro ⟨⟩
        exact .inr ⟨rfl, Nat.lt_of_not_le hLe⟩
      · rintro (⟨rfl, hAll⟩ | ⟨h, _⟩)
        · exact absurd (hAll b rfl) hLe
        · exact h

theorem firstLeast?_eq_some_iff :
    firstLeast? key l = some a ↔ IsFirstLeast key (fun _ => True) l a := by
  induction l generalizing a with
  | nil => exact iff_of_false nofun not_isFirstLeast_nil
  | cons x l ih =>
    -- the least of the rest is no farther than any other element of it
    have hRest : (∀ b, firstLeast? key l = some b → key a ≤ key b) ↔ ∀ y ∈ l, key a ≤ key y := by
      constructor
      · intro h y hy
        cases hLeast : firstLeast? key l with
        | none => exact absurd hy (firstLeast?_eq_none_iff.mp hLeast ▸ List.not_mem_nil)
        | some b => exact Nat.le_trans (h b hLeast) ((ih.mp hLeast).le hy trivial)
      · exact fun h b hb => h b (ih.mp hb).holds.1
    rw [firstLeast?_cons_eq_some_iff, isFirstLeast_cons, hRest, ih]
    simp only [true_and, true_imp_iff]

theorem isFirstLeast_filter [DecidablePred p] :
    IsFirstLeast key (fun _ => True) (l.filter fun x => decide (p x)) a ↔ IsFirstLeast key p l a := by
  induction l with
  | nil => exact iff_of_false not_isFirstLeast_nil not_isFirstLeast_nil
  | cons x l ih =>
    rw [isFirstLeast_cons]
    by_cases hx : p x
    · rw [List.filter_cons_of_pos (by simpa using hx), isFirstLeast_cons, ih]
      have hFirst : x = a → p a := fun h => h ▸ hx
      simp only [List.mem_filter, decide_eq_true_eq, and_imp, true_imp_iff, true_and, hx]
      exact or_congr_left (and_congr_right fun h => (and_iff_right (hFirst h)).symm)
    · rw [List.filter_cons_of_neg (by simpa using hx), ih]
      constructor
      · exact fun h => .inr ⟨h, fun hp => absurd hp hx⟩
      · rintro (⟨rfl, hp, _⟩ | ⟨h, _⟩)
        · exact absurd hp hx
        · exact h

theorem firstLeast?_filter_eq_some_iff [DecidablePred p] :
    firstLeast? key (l.filter fun x => decide (p x)) = some a ↔ IsFirstLeast key p l a :=
  firstLeast?_eq_some_iff.trans isFirstLeast_filter

theorem exists_isFirstLeast [DecidablePred p] (key : α → Nat) (hx : x ∈ l) (hp : p x) :
    ∃ a, IsFirstLeast key p l a := by
  cases h : firstLeast? key (l.filter fun x => decide (p x)) with
  | none =>
    have hNil := firstLeast?_eq_none_iff.mp h
    exact absurd hp (by simpa using List.filter_eq_nil_iff.mp hNil x hx)
  | some a => exact ⟨a, firstLeast?_filter_eq_some_iff.mp h⟩

end FirstLeast

variable {name candidate text : String} {candidates : List String}

/-- The characters to insert, delete or replace. -/
def distanceTo (name candidate : String) : Nat := distance name.toList candidate.toList

/-- A typing error can make the name of the candidate. -/
def IsTypoOf (name candidate : String) : Prop :=
  distanceTo name candidate ≤ typoBound (byteSize name.toList)

instance : DecidableRel IsTypoOf := fun _ _ => inferInstanceAs (Decidable (_ ≤ _))

/-- The first of the closest candidates. -/
def IsNearest (name : String) (candidates : List String) (candidate : String) : Prop :=
  IsFirstLeast (distanceTo name) (IsTypoOf name) candidates candidate

/-- The nearest candidate is the answer, and there is none only if there is no candidate near. -/
structure AnswersNearest (name : String) (candidates : List String) (answer : Option String) :
    Prop where
  some_iff : ∀ text, answer = some text ↔
    ∃ c, IsNearest name candidates c ∧ text = "did you mean `" ++ c ++ "`?"
  none_iff : answer = none ↔ ∀ c ∈ candidates, ¬IsTypoOf name c

theorem closest?_eq_some_iff : closest? name candidates = some candidate ↔
    IsFirstLeast (distanceTo name) (fun c => IsTypoOf name c ∧ hasNearLength name c = true)
      candidates candidate := by
  have hKey : (fun c : String => editDistance name.toList c.toList) = distanceTo name :=
    funext fun c => editDistance_eq name.toList c.toList
  have hKeep : ∀ c ∈ candidates, (decide (distanceTo name c ≤ typoBound (byteSize name.toList)) &&
      hasNearLength name c) = decide (IsTypoOf name c ∧ hasNearLength name c = true) := by
    intro c _
    rw [Bool.decide_and, Bool.decide_eq_true]
    rfl
  rw [← firstLeast?_filter_eq_some_iff, ← List.filter_congr hKeep, ← List.filter_filter, ← hKey]
  rfl

theorem question_injective {c d : String}
    (h : "did you mean `" ++ c ++ "`?" = "did you mean `" ++ d ++ "`?") : c = d := by
  have hList := congrArg String.toList h
  simp only [String.toList_append, List.append_cancel_left_eq, List.append_cancel_right_eq] at hList
  exact String.toList_inj.mp hList

theorem didYouMean?_eq_some_iff : didYouMean? name candidates = some text ↔
    ∃ c, closest? name candidates = some c ∧ text = "did you mean `" ++ c ++ "`?" := by
  rw [didYouMean?, Option.map_eq_some_iff]
  exact exists_congr fun c => and_congr_right fun _ => eq_comm

theorem didYouMean?_eq_none_iff :
    didYouMean? name candidates = none ↔ closest? name candidates = none := by
  rw [didYouMean?, Option.map_eq_none_iff]

/-- An answer that is right is not one that was left aside. -/
theorem AnswersNearest.hasNearLength (h : AnswersNearest name candidates (didYouMean? name candidates))
    (hNearest : IsNearest name candidates candidate) : hasNearLength name candidate = true := by
  obtain ⟨c, hc, hText⟩ := didYouMean?_eq_some_iff.mp ((h.some_iff _).mpr ⟨candidate, hNearest, rfl⟩)
  rw [question_injective hText]
  exact (closest?_eq_some_iff.mp hc).holds.2.2

theorem answersNearest_of_hasNearLength
    (h : ∀ c, IsNearest name candidates c → hasNearLength name c = true) :
    AnswersNearest name candidates (didYouMean? name candidates) := by
  have found : ∀ c, IsNearest name candidates c → closest? name candidates = some c :=
    fun c hc => closest?_eq_some_iff.mpr (IsFirstLeast.mono hc (fun _ hx => hx.1) ⟨hc.holds.2, h c hc⟩)
  have near : ∀ c ∈ candidates, IsTypoOf name c → ∃ d, IsNearest name candidates d :=
    fun c hc hTypo => exists_isFirstLeast (distanceTo name) hc hTypo
  constructor
  · intro text
    rw [didYouMean?_eq_some_iff]
    constructor
    · rintro ⟨c, hc, rfl⟩
      have hHolds := (closest?_eq_some_iff.mp hc).holds
      obtain ⟨d, hd⟩ := near c hHolds.1 hHolds.2.1
      obtain rfl : d = c := Option.some.inj ((found d hd).symm.trans hc)
      exact ⟨d, hd, rfl⟩
    · rintro ⟨c, hc, rfl⟩
      exact ⟨c, found c hc, rfl⟩
  · rw [didYouMean?_eq_none_iff]
    constructor
    · intro hNone c hc hTypo
      obtain ⟨d, hd⟩ := near c hc hTypo
      exact absurd ((found d hd).symm.trans hNone) nofun
    · intro hNone
      rw [Option.eq_none_iff_forall_ne_some]
      intro c hc
      have hHolds := (closest?_eq_some_iff.mp hc).holds
      exact hNone c hHolds.1 hHolds.2.1

variable {xs ys : List Char} {n : Nat}

theorem Edit.length_le (h : Edit xs ys) : xs.length ≤ ys.length + 1 ∧ ys.length ≤ xs.length + 1 := by
  cases h with
  | insert pre post c =>
    simp only [List.length_append, List.length_cons]
    omega
  | delete pre post c =>
    simp only [List.length_append, List.length_cons]
    omega
  | replace pre post c d =>
    simp only [List.length_append, List.length_cons]
    omega

theorem Edits.length_le (h : Edits n xs ys) : xs.length ≤ ys.length + n ∧ ys.length ≤ xs.length + n := by
  induction h with
  | none xs => exact ⟨Nat.le_refl _, Nat.le_refl _⟩
  | more _ hLast ih =>
    have := hLast.length_le
    omega

theorem byteSize_of_ascii (h : ∀ c ∈ xs, c.toNat < 128) : byteSize xs = xs.length := by
  induction xs with
  | nil => rfl
  | cons c xs ih =>
    obtain ⟨hc, hRest⟩ := List.forall_mem_cons.mp h
    have hSize : c.utf8Size = 1 := by
      rcases utf8Size_cases c with ⟨_, hSize⟩ | ⟨hWide, _⟩ | ⟨hWide, _⟩
      · exact hSize
      · omega
      · omega
    rw [byteSize, hSize, ih hRest, List.length_cons, Nat.add_comm]

theorem hasNearLength_of_ascii (hName : ∀ c ∈ name.toList, c.toNat < 128)
    (hCandidate : ∀ c ∈ candidate.toList, c.toNat < 128) (h : IsTypoOf name candidate) :
    hasNearLength name candidate = true := by
  have hLengths := (edits_distance name.toList candidate.toList).length_le
  rw [IsTypoOf, distanceTo, byteSize_of_ascii hName] at h
  rw [hasNearLength, byteSize_of_ascii hName, byteSize_of_ascii hCandidate, decide_eq_true_eq]
  omega

/-- The nearest candidate is the answer exactly if its length in bytes is near too. In any case the
answer is the nearest of the candidates whose length is near; and in ASCII these are all that a
typing error can reach. -/
theorem answersNearest_iff (name : String) (candidates : List String) :
    (AnswersNearest name candidates (didYouMean? name candidates) ↔
      ∀ c, IsNearest name candidates c → hasNearLength name c = true) ∧
    (∀ text, didYouMean? name candidates = some text ↔
      ∃ c, IsFirstLeast (distanceTo name) (fun c => IsTypoOf name c ∧ hasNearLength name c = true)
        candidates c ∧ text = "did you mean `" ++ c ++ "`?") ∧
    ((∀ s ∈ name :: candidates, ∀ c ∈ s.toList, c.toNat < 128) →
      AnswersNearest name candidates (didYouMean? name candidates)) := by
  refine ⟨⟨fun h c hc => h.hasNearLength hc, answersNearest_of_hasNearLength⟩, ?_, ?_⟩
  · intro text
    rw [didYouMean?_eq_some_iff]
    exact exists_congr fun c => and_congr_left fun _ => closest?_eq_some_iff
  · intro hAscii
    obtain ⟨hName, hCandidates⟩ := List.forall_mem_cons.mp hAscii
    apply answersNearest_of_hasNearLength
    intro c hc
    exact hasNearLength_of_ascii hName (hCandidates c hc.holds.1) hc.holds.2

theorem answersNearest_missing_digit :
    (∀ s ∈ ["E010", "E0101", "E0102"], ∀ c ∈ s.toList, c.toNat < 128) ∧
    AnswersNearest "E010" ["E0101", "E0102"] (didYouMean? "E010" ["E0101", "E0102"]) := by
  have hAscii : ∀ s ∈ ["E010", "E0101", "E0102"], ∀ c ∈ s.toList, c.toNat < 128 := by simp
  exact ⟨hAscii, (answersNearest_iff _ _).2.2 hAscii⟩

theorem edits_replace_three (as bs cs ds : List Char) (c d : Char) :
    Edits 3 (as ++ c :: (bs ++ c :: (cs ++ c :: ds))) (as ++ d :: (bs ++ d :: (cs ++ d :: ds))) := by
  have hFirst := Edit.replace as (bs ++ c :: (cs ++ c :: ds)) c d
  have hSecond := Edit.replace (as ++ d :: bs) (cs ++ c :: ds) c d
  have hThird := Edit.replace (as ++ d :: bs ++ d :: cs) ds c d
  simp only [List.append_assoc, List.cons_append] at hSecond hThird
  exact (((Edits.none _).more hFirst).more hSecond).more hThird

/-- A name with long dashes for its three hyphens is as near as a typing error leaves it, but six
bytes too long. -/
theorem exists_nearest_left_aside : ¬AnswersNearest "perf/small–array–on–stack"
    ["perf/small-array-on-stack"]
    (didYouMean? "perf/small–array–on–stack" ["perf/small-array-on-stack"]) := by
  intro h
  have hName : "perf/small–array–on–stack".toList = "perf/small".toList ++ '–' ::
      ("array".toList ++ '–' :: ("on".toList ++ '–' :: "stack".toList)) := by decide +kernel
  have hCandidate : "perf/small-array-on-stack".toList = "perf/small".toList ++ '-' ::
      ("array".toList ++ '-' :: ("on".toList ++ '-' :: "stack".toList)) := by decide +kernel
  have hBound : typoBound (byteSize "perf/small–array–on–stack".toList) = 3 := by decide +kernel
  have hTypo : IsTypoOf "perf/small–array–on–stack" "perf/small-array-on-stack" := by
    rw [IsTypoOf, hBound, distanceTo, hName, hCandidate]
    exact (edits_replace_three ..).distance_le
  have hNone : didYouMean? "perf/small–array–on–stack" ["perf/small-array-on-stack"] = none := by
    decide +kernel
  exact h.none_iff.mp hNone _ (List.mem_singleton_self _) hTypo

end Stackable.Text
