import Stackable.Proofs.Token.Offsets
import Stackable.Proofs.Types.Grammar

/-!
# Text that is cut into given marks

A text made of words and marks is cut where it was put together if nothing runs on: no word into a
word, no mark into a longer one. Only a `>` may stand in front of another one; the two are cut as one
token, which counts for both.
-/

set_option autoImplicit false

namespace Stackable

namespace Lexer

/-- The marks of types, `>` apart. -/
def typeMarks : List Punct := [.lt, .comma, .dot, .lBracket, .rBracket, .question, .star]

/-- The text is put together from units that stand for the given marks. -/
inductive Writes : List Char → List TokenKind → Prop where
  | nil : Writes [] []
  | blank {cs : List Char} {w : List TokenKind} (stop : ∀ d ∈ cs.head?, isBlank d = false)
      (rest : Writes cs w) : Writes (' ' :: cs) w
  | word {c : Char} {more cs : List Char} {w : List TokenKind} (start : isNameStart c = true)
      (part : ∀ d ∈ more, isNamePart d = true) (stop : ∀ d ∈ cs.head?, isNamePart d = false)
      (rest : Writes cs w) :
      Writes (c :: (more ++ cs)) (wordKind (String.ofList (c :: more)) :: w)
  | mark {p : Punct} {cs : List Char} {w : List TokenKind} (isMark : p ∈ typeMarks)
      (longest : Punct.longest? (p.chars ++ cs) = some p) (rest : Writes cs w) :
      Writes (p.chars ++ cs) (.punct p :: w)
  | close {cs : List Char} {w : List TokenKind} (stop : cs.head? ≠ some '=') (rest : Writes cs w) :
      Writes ('>' :: cs) (.punct .gt :: w)

variable {cs : List Char} {w : List TokenKind} {offset budget : Nat}

/-- The tokens of a text count for the given marks, and there is no error. -/
def CutsTo (cs : List Char) (w : List TokenKind) : Prop :=
  ∀ offset budget, budget ≠ 0 →
    Tokens.halves (run offset budget cs).tokens = w ∧ (run offset budget cs).errors = []

theorem CutsTo.token {a : Char} {k : TokenKind} (hk : (munch a cs).piece = .token k)
    (h : CutsTo (cs.drop (munch a cs).extra) w) : CutsTo (a :: cs) (k.halves ++ w) := by
  intro offset budget hBudget
  rw [run_token hBudget hk rfl]
  obtain ⟨hTokens, hErrors⟩ := h _ budget hBudget
  exact ⟨by rw [Tokens.halves_cons, hTokens], hErrors⟩

theorem not_isBlank_of_isNameStart {c : Char} (h : isNameStart c = true) : isBlank c = false := by
  simp only [isNameStart, Bool.or_eq_true, Bool.and_eq_true, decide_eq_true_eq, beq_iff_eq] at h
  simp only [isBlank, Bool.or_eq_false_iff, beq_eq_false_iff_ne]
  refine ⟨⟨⟨⟨?_, ?_⟩, ?_⟩, ?_⟩, ?_⟩ <;> rintro rfl <;> revert h <;> decide

theorem not_isDigit_of_isNameStart {c : Char} (h : isNameStart c = true) :
    Literal.isDigit c = false := by
  simp only [isNameStart, Bool.or_eq_true, Bool.and_eq_true, decide_eq_true_eq, beq_iff_eq,
    Char.le_def, UInt32.le_iff_toNat_le] at h
  simp only [Literal.isDigit, Bool.and_eq_false_iff, decide_eq_false_iff_not, Char.le_def,
    UInt32.le_iff_toNat_le, Nat.not_le]
  rcases h with (⟨hLow, _⟩ | ⟨hLow, _⟩) | rfl
  · exact .inr (Nat.lt_of_lt_of_le (by decide) hLow)
  · exact .inr (Nat.lt_of_lt_of_le (by decide) hLow)
  · exact .inr (by decide)

theorem takeWhile_append_of_stop {q : Char → Bool} {more : List Char} (hMore : ∀ d ∈ more, q d = true)
    (hStop : ∀ d ∈ cs.head?, q d = false) : (more ++ cs).takeWhile q = more := by
  rw [List.takeWhile_append_of_pos hMore]
  cases cs with
  | nil => simp
  | cons d cs =>
    rw [List.takeWhile_cons_of_neg, List.append_nil]
    rw [hStop d rfl]
    exact Bool.false_ne_true

theorem wordKind_halves (text : String) : (wordKind text).halves = [wordKind text] := by
  apply TokenKind.halves_of_ne
  unfold wordKind
  split
  · rintro ⟨⟩
  · split
    · rintro ⟨⟩
    · split <;> rintro ⟨⟩

theorem CutsTo.word {c : Char} {more : List Char} (start : isNameStart c = true)
    (part : ∀ d ∈ more, isNamePart d = true) (stop : ∀ d ∈ cs.head?, isNamePart d = false)
    (h : CutsTo cs w) :
    CutsTo (c :: (more ++ cs)) (wordKind (String.ofList (c :: more)) :: w) := by
  have hMunch : munch c (more ++ cs) =
      ⟨more.length, .token (wordKind (String.ofList (c :: more)))⟩ := by
    rw [munch, if_neg (by rw [not_isBlank_of_isNameStart start]; exact Bool.false_ne_true),
      if_neg (by rw [not_isDigit_of_isNameStart start]; exact Bool.false_ne_true), if_pos start,
      Lexer.word, takeWhile_append_of_stop part stop]
  have hCut : CutsTo ((more ++ cs).drop (munch c (more ++ cs)).extra) w := by
    rw [hMunch, List.drop_left]
    exact h
  have hToken := hCut.token (k := wordKind (String.ofList (c :: more))) (by rw [hMunch])
  rwa [wordKind_halves] at hToken

theorem CutsTo.blank (stop : ∀ d ∈ cs.head?, isBlank d = false) (h : CutsTo cs w) :
    CutsTo (' ' :: cs) w := by
  intro offset budget hBudget
  have hMunch : munch ' ' cs = ⟨0, .blank⟩ := by
    have hNone : ([] ++ cs).takeWhile isBlank = [] := takeWhile_append_of_stop (by simp) stop
    rw [List.nil_append] at hNone
    change (⟨(cs.takeWhile isBlank).length, .blank⟩ : Munch) = _
    rw [hNone]
    rfl
  rw [run_blank hBudget (by rw [hMunch]), hMunch]
  exact h _ budget hBudget

theorem munch_mark {p : Punct} (h : p ∈ .gt :: typeMarks) (cs : List Char) :
    ∃ c, p.chars = [c] ∧ munch c cs = punctuation c cs := by
  simp only [typeMarks, List.mem_cons, List.not_mem_nil, or_false] at h
  rcases h with rfl | rfl | rfl | rfl | rfl | rfl | rfl | rfl <;> exact ⟨_, rfl, rfl⟩

theorem CutsTo.mark {p : Punct} (isMark : p ∈ typeMarks)
    (longest : Punct.longest? (p.chars ++ cs) = some p) (h : CutsTo cs w) :
    CutsTo (p.chars ++ cs) (.punct p :: w) := by
  obtain ⟨c, hChars, hMunch⟩ := munch_mark (List.mem_cons_of_mem _ isMark) cs
  rw [hChars, List.singleton_append] at longest ⊢
  rw [punctuation, longest] at hMunch
  dsimp only at hMunch
  rw [hChars] at hMunch
  have hHalves : (TokenKind.punct p).halves = [.punct p] := by
    apply TokenKind.halves_of_ne
    rintro ⟨⟩
    revert isMark
    decide
  have hPiece : (munch c cs).piece = .token (.punct p) := by rw [hMunch]
  have hToken := CutsTo.token hPiece (by rwa [hMunch])
  rwa [hHalves] at hToken

theorem longest?_gt (h : ∀ d ∈ cs.head?, d ≠ '=' ∧ d ≠ '>') :
    Punct.longest? ('>' :: cs) = some .gt := by
  cases cs with
  | nil => rfl
  | cons d cs =>
    obtain ⟨hEq, hGt⟩ := h d rfl
    simp [Punct.longest?, Punct.all, Punct.chars, hEq.symm, hGt.symm]

theorem longest?_gtGt (h : cs.head? ≠ some '=') :
    Punct.longest? ('>' :: '>' :: cs) = some .gtGt := by
  cases cs with
  | nil => rfl
  | cons d cs =>
    have hEq : '=' ≠ d := fun hd => h (by rw [List.head?_cons, hd])
    simp [Punct.longest?, Punct.all, Punct.chars, hEq]

/-- A `>` that another one follows has been written by itself. -/
theorem Writes.of_gt (h : Writes ('>' :: cs) w) :
    ∃ v, w = .punct .gt :: v ∧ cs.head? ≠ some '=' ∧ Writes cs v := by
  generalize hs : '>' :: cs = text at h
  cases h with
  | nil => cases hs
  | blank => cases hs
  | word start =>
    cases hs
    cases start
  | @mark p _ _ isMark longest rest =>
    simp only [typeMarks, List.mem_cons, List.not_mem_nil, or_false] at isMark
    rcases isMark with rfl | rfl | rfl | rfl | rfl | rfl | rfl <;> cases hs
  | close stop rest =>
    cases hs
    exact ⟨_, rfl, stop, rest⟩

theorem Writes.cutsTo (h : Writes cs w) : CutsTo cs w := by
  induction hn : cs.length using Nat.strongRecOn generalizing cs w with
  | ind n ih =>
    subst hn
    cases h with
    | nil => exact fun _ _ _ => ⟨by rw [run]; rfl, by rw [run]⟩
    | blank stop rest => exact .blank stop (ih _ (by simp) rest rfl)
    | word start part stop rest =>
      refine .word start part stop (ih _ ?_ rest rfl)
      simp only [List.length_cons, List.length_append]
      omega
    | mark isMark longest rest =>
      refine .mark isMark longest (ih _ ?_ rest rfl)
      obtain ⟨c, hChars, _⟩ := munch_mark (List.mem_cons_of_mem _ isMark) []
      simp [hChars]
    | @close cs v stop rest =>
      by_cases hNext : cs.head? = some '>'
      · obtain ⟨cs, rfl⟩ := List.head?_eq_some_iff.mp hNext
        obtain ⟨v, rfl, hStop, hRest⟩ := rest.of_gt
        have hMunch : munch '>' ('>' :: cs) = ⟨1, .token (.punct .gtGt)⟩ := by
          change punctuation '>' ('>' :: cs) = _
          rw [punctuation, longest?_gtGt hStop]
          rfl
        refine CutsTo.token (k := .punct .gtGt) (by rw [hMunch]) ?_
        rw [hMunch]
        refine ih _ ?_ hRest rfl
        simp only [List.length_cons, List.drop_succ_cons, List.drop_zero]
        omega
      · have hMunch : munch '>' cs = ⟨0, .token (.punct .gt)⟩ := by
          change punctuation '>' cs = _
          rw [punctuation, longest?_gt]
          · rfl
          · intro d hd
            rw [Option.mem_def] at hd
            exact ⟨fun h => stop (h ▸ hd), fun h => hNext (h ▸ hd)⟩
        refine CutsTo.token (k := .punct .gt) (by rw [hMunch]) ?_
        rw [hMunch]
        exact ih _ (by simp) rest rfl

end Lexer

end Stackable
