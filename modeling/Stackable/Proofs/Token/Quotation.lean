import Stackable.Proofs.Token.Integer

/-!
# Literals of text

A character stands in a literal as itself, behind a backslash by a letter of its own, or by its code
in base sixteen. Recognising a literal and resolving its escapes go over the text apart from each
other, and both split it into the same spellings: whatever spelling is chosen for each character, the
literal is read as the text that was written.
-/

set_option autoImplicit false

namespace Stackable

open Literal

/-- The characters that have a letter of their own behind a backslash, with the letter. -/
def shortEscapes : List (Char × Char) :=
  [('\n', 'n'), ('\r', 'r'), ('\t', 't'), ('\x07', 'a'), ('\x08', 'b'), ('\x0c', 'f'),
   ('\x0b', 'v'), ('\\', '\\'), ('\x00', '0'), ('\'', '\''), ('"', '"')]

/-- How a character may be spelled between two quotes. -/
inductive SpellsChar (quote c : Char) : List Char → Prop
  | raw : c ≠ quote → c ≠ '\\' → c ≠ '\n' → SpellsChar quote c [c]
  | short {letter : Char} : (c, letter) ∈ shortEscapes → SpellsChar quote c ['\\', letter]
  | code {digits : List Char} : digits.length = 4 → '_' ∉ digits → Numeral 16 c.toNat digits →
      SpellsChar quote c ('\\' :: 'u' :: digits)

/-- How a text may be spelled between two quotes, character by character. -/
inductive SpellsText (quote : Char) : List Char → List Char → Prop
  | nil : SpellsText quote [] []
  | cons {c : Char} {cs part text : List Char} : SpellsChar quote c part → SpellsText quote cs text →
      SpellsText quote (c :: cs) (part ++ text)

/-- How a text is spelled in a verbatim literal: each double quote is written twice. -/
def doubleQuotes : List Char → List Char
  | [] => []
  | c :: cs => if c = '"' then '"' :: '"' :: doubleQuotes cs else c :: doubleQuotes cs

section Character

variable {quote c : Char} {part digits rest : List Char}

/-- The letter behind a backslash is none that starts digits, and no newline. -/
theorem letter_of_shortEscapes {letter : Char} (h : (c, letter) ∈ shortEscapes) :
    letter ≠ 'u' ∧ letter ≠ 'x' ∧ letter ≠ '\n' ∧
      ∀ rest, escape? (letter :: rest) = some (c, 1) := by
  simp only [shortEscapes, List.mem_cons, Prod.mk.injEq, List.not_mem_nil, or_false] at h
  rcases h with ⟨rfl, rfl⟩ | ⟨rfl, rfl⟩ | ⟨rfl, rfl⟩ | ⟨rfl, rfl⟩ | ⟨rfl, rfl⟩ | ⟨rfl, rfl⟩ |
    ⟨rfl, rfl⟩ | ⟨rfl, rfl⟩ | ⟨rfl, rfl⟩ | ⟨rfl, rfl⟩ | ⟨rfl, rfl⟩ <;>
  exact ⟨by decide, by decide, by decide, fun _ => rfl⟩

/-- The digits of a code are digits all through. -/
theorem isHexDigit_of_numeral {n : Nat} (h : Numeral 16 n digits) (hMark : '_' ∉ digits) :
    ∀ a ∈ digits, isHexDigit a = true := by
  intro a ha
  have hHex := (h.ofBase a ha).hex
  rw [orUnderscore, Bool.or_eq_true, beq_iff_eq] at hHex
  refine hHex.resolve_right fun hEq => ?_
  rw [hEq] at ha
  exact hMark ha

theorem takeWhile_code {n : Nat} (hLength : digits.length = 4) (hMark : '_' ∉ digits)
    (h : Numeral 16 n digits) : ((digits ++ rest).take 4).takeWhile isHexDigit = digits := by
  have hAll : (digits ++ []).takeWhile isHexDigit = digits ++ [].takeWhile isHexDigit :=
    List.takeWhile_append_of_pos (isHexDigit_of_numeral h hMark)
  rw [← hLength, List.take_left]
  simpa using hAll

theorem escape?_code (hLength : digits.length = 4) (hMark : '_' ∉ digits)
    (h : Numeral 16 c.toNat digits) : escape? ('u' :: (digits ++ rest)) = some (c, 5) := by
  have hDigits : dropUnderscores digits = digits := by
    rw [dropUnderscores, List.filter_eq_self]
    intro a ha
    rw [bne_iff_ne]
    rintro rfl
    exact hMark ha
  have hValue : Decimal.digitsValue 16 digits = c.toNat := by
    rw [← (h.value (by decide)).1, hDigits]
  have hCode : charOfCode? c.toNat = some c := by
    rw [charOfCode?, if_pos (show c.toNat.isValidChar from c.valid), Char.ofNat_toNat]
  have hHex : hexEscape? 4 4 (digits ++ rest) = some (c, 4) := by
    simp only [hexEscape?, takeWhile_code hLength hMark h, hLength, hValue, hCode]
    rfl
  simp only [escape?, hHex]
  rfl

theorem unescape?_part (h : SpellsChar quote c part) (rest : List Char) :
    unescape? (part ++ rest) = (unescape? rest).map (c :: ·) := by
  cases h with
  | raw _ hSlash _ => rw [List.singleton_append, unescape?, if_neg hSlash]
  | short hLetter =>
    obtain ⟨_, _, _, hEscape⟩ := letter_of_shortEscapes hLetter
    rw [List.cons_append, unescape?, if_pos rfl, List.singleton_append, hEscape]
    rfl
  | @code digits hLength hMark hCode =>
    have hDrop : ('u' :: (digits ++ rest)).drop 5 = rest := by
      rw [List.drop_succ_cons, ← hLength, List.drop_left]
    rw [List.cons_append, List.cons_append, unescape?, if_pos rfl, escape?_code hLength hMark hCode]
    simp only [hDrop]

/-- Neither a quote nor a newline nor a backslash. -/
def IsPlain (c : Char) : Prop := c ≠ '"' ∧ c ≠ '\\' ∧ c ≠ '\n'

theorem quotedExtent_plain {cs : List Char} (h : ∀ c ∈ cs, IsPlain c) (rest : List Char) :
    quotedExtent (cs ++ rest) = (quotedExtent rest).map (· + cs.length) id := by
  induction cs with
  | nil => rfl
  | cons a cs ih =>
    obtain ⟨hQuote, hSlash, hNewline⟩ := h a (List.mem_cons_self ..)
    rw [List.cons_append, quotedExtent, ih fun c hc => h c (List.mem_cons_of_mem _ hc)]
    · simp [Prod.map, Nat.add_assoc]
    all_goals grind

theorem isPlain_of_isHexDigit {a : Char} (h : isHexDigit a = true) : IsPlain a := by
  refine ⟨?_, ?_, ?_⟩ <;> (rintro rfl; cases h)

/-- A spelled character is passed over as a whole. -/
theorem quotedExtent_part (h : SpellsChar '"' c part) (rest : List Char) :
    quotedExtent (part ++ rest) = (quotedExtent rest).map (· + part.length) id := by
  cases h with
  | raw hQuote hSlash hNewline =>
    refine quotedExtent_plain (fun a ha => ?_) rest
    rw [List.mem_singleton.mp ha]
    exact ⟨hQuote, hSlash, hNewline⟩
  | short hLetter =>
    obtain ⟨_, _, hNewline, _⟩ := letter_of_shortEscapes hLetter
    rw [List.cons_append, List.singleton_append, quotedExtent]
    · rfl
    · exact hNewline
  | @code digits hLength hMark hCode =>
    have hPlain : ∀ a ∈ digits, IsPlain a := fun a ha =>
      isPlain_of_isHexDigit (isHexDigit_of_numeral hCode hMark a ha)
    simp [quotedExtent, quotedExtent_plain hPlain, Prod.map, Nat.add_assoc]

/-- A character between single quotes ends at the second one. -/
theorem characterExtent?_part (h : SpellsChar '\'' c part) :
    characterExtent? (part ++ ['\'']) = some part.length := by
  cases h with
  | raw hQuote hSlash hNewline => simp [characterExtent?, hQuote, hSlash, hNewline]
  | short hLetter =>
    obtain ⟨hu, hx, hNewline, _⟩ := letter_of_shortEscapes hLetter
    rw [List.cons_append, List.singleton_append, characterExtent?, if_neg hNewline]
    · rfl
    · exact hu
    · exact hx
  | @code digits hLength hMark hCode =>
    have hClosed : (digits ++ ['\''])[digits.length]? = some '\'' := by
      rw [List.getElem?_append_right (Nat.le_refl _), Nat.sub_self]
      rfl
    rw [List.cons_append, List.cons_append, characterExtent?, characterExtent?.closedHex?,
      takeWhile_code hLength hMark hCode]
    exact if_pos ⟨Nat.le_of_eq hLength.symm, hClosed⟩

end Character

section Text

variable {quote : Char} {cs text : List Char}

theorem unescape?_text (h : SpellsText quote cs text) : unescape? text = some cs := by
  induction h with
  | nil => rw [unescape?]
  | cons hPart _ ih => rw [unescape?_part hPart, ih, Option.map_some]

theorem quotedExtent_text (h : SpellsText '"' cs text) (rest : List Char) :
    quotedExtent (text ++ '"' :: rest) = (text.length, true) := by
  induction h with
  | nil => rfl
  | cons hPart _ ih =>
    rw [List.append_assoc, quotedExtent_part hPart, ih, List.length_append, Nat.add_comm]
    rfl

theorem undouble_doubleQuotes (cs : List Char) : undouble (doubleQuotes cs) = cs := by
  induction cs with
  | nil => rfl
  | cons c cs ih =>
    rw [doubleQuotes]
    split
    next hQuote => rw [undouble, ih, hQuote]
    next hOther =>
      rw [undouble, ih]
      exact fun _ hEq _ => hOther hEq

theorem verbatimExtent_doubleQuotes (cs : List Char) :
    verbatimExtent (doubleQuotes cs ++ ['"']) = ((doubleQuotes cs).length, true) := by
  induction cs with
  | nil => rfl
  | cons c cs ih =>
    rw [doubleQuotes]
    split
    next hQuote =>
      rw [List.cons_append, List.cons_append, verbatimExtent, ih]
      rfl
    next hOther =>
      rw [List.cons_append, verbatimExtent, ih]
      · rfl
      · exact fun _ hEq _ => hOther hEq
      · exact hOther

end Text

namespace Lexer

variable {cs text : List Char}

theorem quoted_text (opening : Nat) (h : SpellsText '"' cs text) :
    quoted opening (text ++ ['"']) =
      ⟨opening + (text ++ ['"']).length, .token (.string (String.ofList cs))⟩ := by
  simp only [quoted, quotedExtent_text h [], if_true, List.take_left, unescape?_text h,
    List.length_append, List.length_singleton, Nat.add_assoc]

theorem verbatim_doubleQuotes (cs : List Char) :
    verbatim (doubleQuotes cs ++ ['"']) =
      ⟨('"' :: doubleQuotes cs ++ ['"']).length, .token (.string (String.ofList cs))⟩ := by
  simp only [verbatim, verbatimExtent_doubleQuotes, if_true, List.take_left, undouble_doubleQuotes,
    List.cons_append, List.length_cons, List.length_append, List.length_nil]

theorem character_part {c : Char} {part : List Char} (h : SpellsChar '\'' c part) :
    character (part ++ ['\'']) = ⟨(part ++ ['\'']).length, .token (.char c)⟩ := by
  have hUnescape : unescape? part = some [c] := by
    have hPart := unescape?_part h []
    rwa [List.append_nil, unescape?] at hPart
  simp only [character, characterExtent?_part h, List.take_left, hUnescape, List.length_append,
    List.length_singleton]

/-- Whatever spelling is chosen for each of its characters, a text between double quotes, with or
without a dollar sign in front, is read as one token with that text, and so is the text in a verbatim
literal with its double quotes doubled. A character between single quotes is read as that
character. -/
theorem text_of_literal :
    (∀ (s : String) (text : List Char), SpellsText '"' s.toList text →
      tokenize ('"' :: text ++ ['"']) = oneToken (.string s) ('"' :: text ++ ['"']) ∧
      tokenize ('$' :: '"' :: text ++ ['"']) =
        oneToken (.string s) ('$' :: '"' :: text ++ ['"'])) ∧
    (∀ s : String, tokenize ('@' :: '"' :: doubleQuotes s.toList ++ ['"']) =
      oneToken (.string s) ('@' :: '"' :: doubleQuotes s.toList ++ ['"'])) ∧
    ∀ (c : Char) (part : List Char), SpellsChar '\'' c part →
      tokenize ('\'' :: part ++ ['\'']) = oneToken (.char c) ('\'' :: part ++ ['\'']) := by
  refine ⟨fun s text h => ⟨?_, ?_⟩, fun s => ?_, fun c part h => ?_⟩
  · have hQuoted := quoted_text 0 h
    rw [String.ofList_toList, Nat.zero_add] at hQuoted
    exact tokenize_eq_oneToken hQuoted
  · have hQuoted := quoted_text 1 h
    rw [String.ofList_toList, Nat.add_comm] at hQuoted
    exact tokenize_eq_oneToken hQuoted
  · have hVerbatim := verbatim_doubleQuotes s.toList
    rw [String.ofList_toList] at hVerbatim
    exact tokenize_eq_oneToken hVerbatim
  · exact tokenize_eq_oneToken (character_part h)

/-- A text with an accent as it is, a newline by its letter and a double quote by its code, and a
character by its code. -/
theorem text_of_literal_mixed :
    (SpellsText '"' "é\n\"".toList "é\\n\\u0022".toList ∧
      tokenize "\"é\\n\\u0022\"".toList = oneToken (.string "é\n\"") "\"é\\n\\u0022\"".toList) ∧
    SpellsChar '\'' '"' "\\u0022".toList ∧
      tokenize "'\\u0022'".toList = oneToken (.char '"') "'\\u0022'".toList := by
  obtain ⟨hText, _, hChar⟩ := text_of_literal
  have hCode : Numeral 16 34 "0022".toList := by
    have hZero : Numeral 16 0 "0".toList := .first 0 (by decide) (.inl rfl)
    have hTwo : Numeral 16 2 "002".toList :=
      (hZero.digit (d := 0) (by decide) (.inl rfl)).digit (d := 2) (by decide) (.inl rfl)
    exact hTwo.digit (d := 2) (by decide) (.inl rfl)
  have hLetter : ('\n', 'n') ∈ shortEscapes := by decide
  have hQuote : ∀ quote, SpellsChar quote '"' "\\u0022".toList :=
    fun _ => .code (by decide) (by decide) hCode
  have hSpelled : SpellsText '"' "é\n\"".toList "é\\n\\u0022".toList :=
    .cons (.raw (by decide) (by decide) (by decide))
      (.cons (.short hLetter) (.cons (hQuote '"') .nil))
  exact ⟨⟨hSpelled, (hText "é\n\"" _ hSpelled).1⟩, hQuote '\'', hChar '"' _ (hQuote '\'')⟩

end Lexer

end Stackable
