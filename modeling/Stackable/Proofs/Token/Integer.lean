import Stackable.Proofs.Token.Alone

/-!
# Integer literals

An integer is spelled with the digits of a base, in either case, with zeros in front of them and
underscores among them, and with a suffix behind them. Such a text, read as a source, is one token
with the value of the digits while this fits in 64 bits, and one error over all of the text from
there on.
-/

set_option autoImplicit false

namespace Stackable

open Literal

/-- The character is the digit `d`, in either case. -/
def IsDigitOf (d : Nat) (c : Char) : Prop := c = d.digitChar ∨ c = d.digitChar.toUpper

/-- The digits of a number in a base, the last one least, with underscores anywhere among them. -/
inductive Numeral (base : Nat) : Nat → List Char → Prop
  | first {d : Nat} {c : Char} (marks : Nat) : d < base → IsDigitOf d c →
      Numeral base d (List.replicate marks '_' ++ [c])
  | digit {n d : Nat} {cs : List Char} {c : Char} : Numeral base n cs → d < base → IsDigitOf d c →
      Numeral base (n * base + d) (cs ++ [c])
  | mark {n : Nat} {cs : List Char} : Numeral base n cs → Numeral base n (cs ++ ['_'])

/-- The letters of a suffix, in any order and either case. -/
inductive SpellsSuffix : Option IntSuffix → List Char → Prop
  | none : SpellsSuffix none []
  | u {c : Char} : c = 'u' ∨ c = 'U' → SpellsSuffix (some .u) [c]
  | l {c : Char} : c = 'l' ∨ c = 'L' → SpellsSuffix (some .l) [c]
  | ul {c d : Char} : c = 'u' ∨ c = 'U' → d = 'l' ∨ d = 'L' → SpellsSuffix (some .ul) [c, d]
  | lu {c d : Char} : c = 'l' ∨ c = 'L' → d = 'u' ∨ d = 'U' → SpellsSuffix (some .ul) [c, d]

/-- What stands between a zero and the digits in a base other than ten. -/
inductive MarksBase : Nat → Char → Prop
  | hex {c : Char} : c = 'x' ∨ c = 'X' → MarksBase 16 c
  | binary {c : Char} : c = 'b' ∨ c = 'B' → MarksBase 2 c

/-- The literals of integers. A decimal one starts with a digit. -/
inductive IntLiteral : Nat → Option IntSuffix → List Char → Prop
  | decimal {n : Nat} {suffix : Option IntSuffix} {digits letters : List Char} :
      Numeral 10 n digits → digits.head? ≠ some '_' → SpellsSuffix suffix letters →
      IntLiteral n suffix (digits ++ letters)
  | marked {base n : Nat} {suffix : Option IntSuffix} {mark : Char} {digits letters : List Char} :
      MarksBase base mark → Numeral base n digits → SpellsSuffix suffix letters →
      IntLiteral n suffix ('0' :: mark :: digits ++ letters)

/-- A character that digits in a base may hold. -/
def OfBase (base : Nat) (c : Char) : Prop := c = '_' ∨ ∃ d < base, IsDigitOf d c

section Digits

variable {base n d : Nat} {c : Char} {cs : List Char}

theorem digitValue?_of_isDigitOf (hd : d < 16) (hc : IsDigitOf d c) :
    Decimal.digitValue? c = some d := by
  have hBoth : ∀ d < 16, Decimal.digitValue? d.digitChar = some d ∧
      Decimal.digitValue? d.digitChar.toUpper = some d := by decide
  rcases hc with rfl | rfl
  · exact (hBoth d hd).1
  · exact (hBoth d hd).2

theorem OfBase.orUnderscore {isMember : Char → Bool} (h : OfBase base c)
    (hMember : ∀ d < base, isMember d.digitChar = true ∧ isMember d.digitChar.toUpper = true) :
    orUnderscore isMember c = true := by
  rw [Literal.orUnderscore, Bool.or_eq_true, beq_iff_eq]
  rcases h with rfl | ⟨d, hd, rfl | rfl⟩
  · exact .inr rfl
  · exact .inl (hMember d hd).1
  · exact .inl (hMember d hd).2

theorem OfBase.hex (h : OfBase 16 c) : Literal.orUnderscore isHexDigit c = true :=
  h.orUnderscore (by decide)

theorem OfBase.binary (h : OfBase 2 c) : Literal.orUnderscore isBinaryDigit c = true :=
  h.orUnderscore (by decide)

theorem OfBase.decimal (h : OfBase 10 c) : Literal.orUnderscore isDigit c = true :=
  h.orUnderscore (by decide)

theorem ne_underscore_of_isDigitOf (hd : d < 16) (hc : IsDigitOf d c) : c ≠ '_' := by
  rintro rfl
  have hValue := digitValue?_of_isDigitOf hd hc
  cases hValue

theorem digitsValue_concat (base : Nat) (cs : List Char) (c : Char) :
    Decimal.digitsValue base (cs ++ [c]) =
      Decimal.digitsValue base cs * base + (Decimal.digitValue? c).getD 0 := by
  rw [Decimal.digitsValue, List.foldl_append]
  rfl

theorem dropUnderscores_concat (hd : d < 16) (hc : IsDigitOf d c) (cs : List Char) :
    dropUnderscores (cs ++ [c]) = dropUnderscores cs ++ [c] := by
  have hKept : [c].filter (· != '_') = [c] :=
    List.filter_cons_of_pos (bne_iff_ne.mpr (ne_underscore_of_isDigitOf hd hc))
  rw [dropUnderscores, List.filter_append, hKept, dropUnderscores]

/-- The digits of a numeral have its value, and there are some. -/
theorem Numeral.value (hBase : base ≤ 16) (h : Numeral base n cs) :
    Decimal.digitsValue base (dropUnderscores cs) = n ∧ dropUnderscores cs ≠ [] := by
  induction h with
  | @first d c marks hd hc =>
    have hMarks : dropUnderscores (List.replicate marks '_') = [] := by
      rw [dropUnderscores, List.filter_replicate_of_neg (by decide)]
    rw [dropUnderscores_concat (by omega) hc, hMarks, digitsValue_concat,
      digitValue?_of_isDigitOf (by omega) hc]
    exact ⟨by simp [Decimal.digitsValue], by simp⟩
  | digit _ hd hc ih =>
    rw [dropUnderscores_concat (by omega) hc, digitsValue_concat, ih.1,
      digitValue?_of_isDigitOf (by omega) hc]
    exact ⟨rfl, by simp⟩
  | mark _ ih =>
    have hDropped : ['_'].filter (· != '_') = [] := rfl
    rw [dropUnderscores, List.filter_append, hDropped, List.append_nil]
    exact ih

theorem Numeral.ofBase (h : Numeral base n cs) : ∀ c ∈ cs, OfBase base c := by
  -- one more character of the base keeps the others
  have concat : ∀ {cs c}, (∀ a ∈ cs, OfBase base a) → OfBase base c →
      ∀ a ∈ cs ++ [c], OfBase base a := by
    intro cs c hAll hc a ha
    rcases List.mem_append.mp ha with ha | ha
    · exact hAll a ha
    · exact List.mem_singleton.mp ha ▸ hc
  induction h with
  | first marks hd hc =>
    exact concat (fun a ha => .inl (List.eq_of_mem_replicate ha)) (.inr ⟨_, hd, hc⟩)
  | digit _ hd hc ih => exact concat ih (.inr ⟨_, hd, hc⟩)
  | mark _ ih => exact concat ih (.inl rfl)

theorem Numeral.ne_nil (h : Numeral base n cs) : cs ≠ [] := by
  cases h <;> simp

end Digits

section Suffixes

variable {suffix : Option IntSuffix} {digits letters : List Char}

theorem SpellsSuffix.intSuffix (h : SpellsSuffix suffix letters) :
    intSuffix letters = (letters.length, suffix) := by
  cases h with
  | none => rfl
  | u hc | l hc => rcases hc with rfl | rfl <;> rfl
  | ul hc hd | lu hc hd => rcases hc with rfl | rfl <;> rcases hd with rfl | rfl <;> rfl

theorem SpellsSuffix.letter (h : SpellsSuffix suffix letters) :
    ∀ c ∈ letters, c = 'u' ∨ c = 'U' ∨ c = 'l' ∨ c = 'L' := by
  cases h <;> grind

/-- The digits end where the suffix starts. -/
theorem SpellsSuffix.takeWhile {q : Char → Bool} (h : SpellsSuffix suffix letters)
    (hLetters : ∀ c, c = 'u' ∨ c = 'U' ∨ c = 'l' ∨ c = 'L' → q c = false)
    (hDigits : ∀ c ∈ digits, q c = true) : (digits ++ letters).takeWhile q = digits := by
  rw [List.takeWhile_append_of_pos hDigits]
  cases letters with
  | nil => simp
  | cons c letters => simp [hLetters c (h.letter c (by simp))]

end Suffixes

namespace Lexer

variable {base n : Nat} {suffix : Option IntSuffix} {mark : Char} {digits letters : List Char}

theorem intPiece_numeral (hBase : base ≤ 16) (h : Numeral base n digits) :
    intPiece base digits suffix =
      if n < Nat.pow 2 64 then .token (.int n suffix) else .fault .invalidNumber := by
  obtain ⟨hValue, hSome⟩ := h.value hBase
  have hInt : intValue? base digits = if n < Nat.pow 2 64 then some n else none := by
    simp only [intValue?, hValue, List.isEmpty_eq_false_iff.mpr hSome, Bool.false_or]
    by_cases hn : n < Nat.pow 2 64
    · rw [if_pos hn, if_neg]
      simpa using hn
    · rw [if_neg hn, if_pos]
      simpa using hn
  rw [intPiece, hInt]
  by_cases hn : n < Nat.pow 2 64
  · rw [if_pos hn, if_pos hn]
  · rw [if_neg hn, if_neg hn]

theorem intPiece_underscores (base marks : Nat) :
    intPiece base (List.replicate marks '_') suffix = .fault .invalidNumber := by
  have hNone : dropUnderscores (List.replicate marks '_') = [] :=
    List.filter_replicate_of_neg (by decide)
  rw [intPiece, intValue?, hNone]
  rfl

theorem radixNumber_eq {isMember : Char → Bool} (hSuffix : SpellsSuffix suffix letters)
    (hLetters : ∀ c, c = 'u' ∨ c = 'U' ∨ c = 'l' ∨ c = 'L' → orUnderscore isMember c = false)
    (hDigits : ∀ c ∈ digits, orUnderscore isMember c = true) :
    radixNumber base isMember (digits ++ letters) =
      ⟨1 + digits.length + letters.length, intPiece base digits suffix⟩ := by
  simp only [radixNumber, hSuffix.takeWhile hLetters hDigits, List.drop_left, hSuffix.intSuffix]

/-- Behind `0x` or `0b` stand the digits of one base, if only underscores. -/
theorem number_marked (hMark : MarksBase base mark) (hSome : digits ≠ [])
    (hDigits : ∀ c ∈ digits, OfBase base c) (hSuffix : SpellsSuffix suffix letters) :
    number '0' (mark :: digits ++ letters) =
      ⟨(mark :: digits ++ letters).length, intPiece base digits suffix⟩ := by
  have hLength : (mark :: digits ++ letters).length = 1 + digits.length + letters.length := by
    rw [List.length_append, List.length_cons, Nat.add_comm digits.length]
  rw [hLength]
  obtain ⟨a, digits, rfl⟩ := List.exists_cons_of_ne_nil hSome
  have hFirst := hDigits a (List.mem_cons_self ..)
  cases hMark with
  | hex hMark =>
    have hNumber : number '0' (mark :: (a :: digits) ++ letters) =
        radixNumber 16 isHexDigit (a :: digits ++ letters) := by
      rcases hMark with rfl | rfl <;> simp [number, hFirst.hex]
    rw [hNumber]
    refine radixNumber_eq hSuffix ?_ fun c hc => (hDigits c hc).hex
    rintro c (rfl | rfl | rfl | rfl) <;> decide
  | binary hMark =>
    have hNumber : number '0' (mark :: (a :: digits) ++ letters) =
        radixNumber 2 isBinaryDigit (a :: digits ++ letters) := by
      rcases hMark with rfl | rfl <;> simp [number, hFirst.binary]
    rw [hNumber]
    refine radixNumber_eq hSuffix ?_ fun c hc => (hDigits c hc).binary
    rintro c (rfl | rfl | rfl | rfl) <;> decide

/-- Behind a first digit stand the others, without a letter that marks a base. -/
theorem number_decimal {a : Char} (hDigits : ∀ c ∈ digits, OfBase 10 c)
    (hSuffix : SpellsSuffix suffix letters) :
    number a (digits ++ letters) =
      ⟨(digits ++ letters).length, intPiece 10 (a :: digits) suffix⟩ := by
  have hMark : ∀ c ∈ digits ++ letters, c ≠ 'x' ∧ c ≠ 'X' ∧ c ≠ 'b' ∧ c ≠ 'B' := by
    intro c hc
    rcases List.mem_append.mp hc with hc | hc
    · have hDecimal := (hDigits c hc).decimal
      refine ⟨?_, ?_, ?_, ?_⟩ <;> (rintro rfl; cases hDecimal)
    · rcases hSuffix.letter c hc with rfl | rfl | rfl | rfl <;> decide
  have hNumber : number a (digits ++ letters) = decimalNumber a (digits ++ letters) := by
    unfold number
    cases hText : digits ++ letters with
    | nil => simp
    | cons b rest =>
      obtain ⟨hx, hX, hb, hB⟩ := hMark b (hText ▸ List.mem_cons_self ..)
      simp [hx, hX, hb, hB]
  have hTake : (digits ++ letters).takeWhile (orUnderscore Literal.isDigit) = digits := by
    refine hSuffix.takeWhile ?_ fun c hc => (hDigits c hc).decimal
    rintro c (rfl | rfl | rfl | rfl) <;> decide
  have hWhole : (intSuffix letters).1 = letters.length := by rw [hSuffix.intSuffix]
  rw [hNumber, decimalNumber_eq, hTake, List.drop_left, decimalRest_of_intSuffix hWhole,
    hSuffix.intSuffix, List.length_append]

/-- All that is read of a text is one token over the whole of it. -/
def oneToken (kind : TokenKind) (text : List Char) : Result :=
  ⟨[⟨kind, 0, Text.byteSize text⟩, ⟨.eof, Text.byteSize text, Text.byteSize text⟩], []⟩

/-- All that is read of a text is one error over the whole of it. -/
def oneError (cause : LexError.Cause) (text : List Char) : Result :=
  ⟨[⟨.eof, Text.byteSize text, Text.byteSize text⟩], [⟨cause, 0, Text.byteSize text⟩]⟩

theorem tokenize_eq_oneToken {a : Char} {cs : List Char} {kind : TokenKind}
    (h : munch a cs = ⟨cs.length, .token kind⟩) : tokenize (a :: cs) = oneToken kind (a :: cs) := by
  have hPiece : (munch a cs).piece = .token kind := by rw [h]
  have hExtra : (munch a cs).extra = cs.length := by rw [h]
  exact tokenize_of_munch hPiece (Nat.le_of_eq hExtra.symm)

theorem tokenize_invalidNumber {a : Char} {cs : List Char}
    (h : munch a cs = ⟨cs.length, .fault .invalidNumber⟩) :
    tokenize (a :: cs) = oneError .invalidNumber (a :: cs) := by
  have hStop : 0 + a.utf8Size + Text.byteSize (cs.take (munch a cs).extra) =
      Text.byteSize (a :: cs) := by
    rw [h, List.take_length, Text.byteSize, Nat.zero_add]
  have hRest : cs.drop (munch a cs).extra = [] := by rw [h, List.drop_length]
  have hPiece : (munch a cs).piece = .fault .invalidNumber := by rw [h]
  rw [tokenize, run, if_neg (by decide)]
  simp only [hPiece, hStop, hRest, run, List.nil_append]
  rfl

theorem munch_of_isDigit {a : Char} (ha : Literal.isDigit a = true) (cs : List Char) :
    munch a cs = number a cs := by
  have hBlank : isBlank a ≠ true := by
    intro hBlank
    simp only [isBlank, Bool.or_eq_true, beq_iff_eq] at hBlank
    rcases hBlank with (((rfl | rfl) | rfl) | rfl) | rfl <;> cases ha
  rw [munch, if_neg hBlank, if_pos ha]

/-- An integer is cut off whole. -/
theorem munch_of_intLiteral {text : List Char} (h : IntLiteral n suffix text) :
    ∃ a cs, text = a :: cs ∧ munch a cs = ⟨cs.length,
      if n < Nat.pow 2 64 then .token (.int n suffix) else .fault .invalidNumber⟩ := by
  cases h with
  | @decimal _ _ digits letters hDigits hFirst hSuffix =>
    obtain ⟨a, more, rfl⟩ := List.exists_cons_of_ne_nil hDigits.ne_nil
    have hAll := hDigits.ofBase
    have ha : Literal.isDigit a = true := by
      have hDecimal := (hAll a (List.mem_cons_self ..)).decimal
      rw [orUnderscore, Bool.or_eq_true, beq_iff_eq] at hDecimal
      refine hDecimal.resolve_right fun hMark => hFirst ?_
      rw [List.head?_cons, hMark]
    refine ⟨a, more ++ letters, rfl, ?_⟩
    rw [munch_of_isDigit ha, number_decimal (fun c hc => hAll c (List.mem_cons_of_mem _ hc)) hSuffix,
      intPiece_numeral (by decide) hDigits]
  | @marked base _ _ mark digits letters hMark hDigits hSuffix =>
    have hBase : base ≤ 16 := by cases hMark <;> decide
    refine ⟨'0', mark :: digits ++ letters, rfl, ?_⟩
    rw [munch_of_isDigit (by decide), number_marked hMark hDigits.ne_nil hDigits.ofBase hSuffix,
      intPiece_numeral hBase hDigits]

/-- An integer literal in any spelling is read as one token with the value of its digits and its
suffix if the value fits in 64 bits, and as one error over the whole of it otherwise. The same error
stands over a literal in base sixteen or two that has no digit. -/
theorem integer_of_literal :
    (∀ n suffix text, IntLiteral n suffix text → tokenize text =
      if n < Nat.pow 2 64 then oneToken (.int n suffix) text else oneError .invalidNumber text) ∧
    (∀ base mark marks suffix letters, MarksBase base mark → 0 < marks →
      SpellsSuffix suffix letters →
      tokenize ('0' :: mark :: List.replicate marks '_' ++ letters) =
        oneError .invalidNumber ('0' :: mark :: List.replicate marks '_' ++ letters)) ∧
    LexError.Cause.invalidNumber.message = "Invalid number" := by
  refine ⟨?_, ?_, rfl⟩
  · intro n suffix text h
    obtain ⟨a, cs, rfl, hMunch⟩ := munch_of_intLiteral h
    split
    next hFits =>
      rw [if_pos hFits] at hMunch
      exact tokenize_eq_oneToken hMunch
    next hLarge =>
      rw [if_neg hLarge] at hMunch
      exact tokenize_invalidNumber hMunch
  · intro base mark marks suffix letters hMark hMarks hSuffix
    have hSome : List.replicate marks '_' ≠ [] :=
      List.ne_nil_of_length_pos (by rwa [List.length_replicate])
    have hBase : ∀ c ∈ List.replicate marks '_', OfBase base c :=
      fun c hc => .inl (List.eq_of_mem_replicate hc)
    have hNumber := number_marked hMark hSome hBase hSuffix
    rw [intPiece_underscores, ← munch_of_isDigit (by decide)] at hNumber
    exact tokenize_invalidNumber hNumber

/-- A literal in base sixteen with letters of both cases, and underscores in place of digits. -/
theorem integer_of_literal_mixed :
    (IntLiteral 4095 (some .ul) "0x_0F_fFlU".toList ∧
      tokenize "0x_0F_fFlU".toList = oneToken (.int 4095 (some .ul)) "0x_0F_fFlU".toList) ∧
    tokenize "0b__L".toList = oneError .invalidNumber "0b__L".toList := by
  obtain ⟨hRead, hEmpty, _⟩ := integer_of_literal
  have hLiteral : IntLiteral 4095 (some .ul) "0x_0F_fFlU".toList := by
    have hZero : Numeral 16 0 "_0".toList := .first 1 (by decide) (.inl rfl)
    have hOne : Numeral 16 15 "_0F_".toList := .mark (hZero.digit (d := 15) (by decide) (.inr rfl))
    have hTwo : Numeral 16 255 "_0F_f".toList := hOne.digit (d := 15) (by decide) (.inl rfl)
    have hAll : Numeral 16 4095 "_0F_fF".toList := hTwo.digit (d := 15) (by decide) (.inr rfl)
    exact .marked (.hex (.inl rfl)) hAll (.lu (.inl rfl) (.inr rfl))
  exact ⟨⟨hLiteral, hRead _ _ _ hLiteral⟩,
    hEmpty 2 'b' 2 (some .l) ['L'] (.binary (.inl rfl)) (by decide) (.l (.inr rfl))⟩

end Lexer

end Stackable
