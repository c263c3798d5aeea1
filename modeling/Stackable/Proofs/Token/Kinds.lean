import Stackable.Proofs.Token.Locality

/-!
# What a token of a text can hold

An identifier is a name, with or without an `@` in front of it in the text, and an integer fits in 64
bits. A keyword or a mark has one spelling, and this is the text under it.
-/

set_option autoImplicit false

namespace Stackable

/-- A letter or underscore, then letters, digits and underscores. -/
def IsName (name : String) : Prop :=
  ∃ c more, name = String.ofList (c :: more) ∧ Lexer.isNameStart c = true ∧
    ∀ d ∈ more, Lexer.isNamePart d = true

def TokenKind.WellFormed : TokenKind → Prop
  | .ident name => IsName name
  | .int value _ => value < Nat.pow 2 64
  | _ => True

/-- How words and marks with a single spelling are spelled. -/
def TokenKind.spelling? : TokenKind → Option (List Char)
  | .keyword word => some word.text.toList
  | .punct mark => some mark.chars
  | _ => none

namespace Lexer

variable {a : Char} {cs : List Char}

def Munch.WellFormed (m : Munch) : Prop := ∀ k, m.piece = .token k → k.WellFormed

theorem Munch.WellFormed.ite {cond : Prop} [Decidable cond] {m n : Munch} (hm : m.WellFormed)
    (hn : n.WellFormed) : (if cond then m else n).WellFormed := by
  split
  · exact hm
  · exact hn

theorem Munch.WellFormed.of_isFault {m : Munch} (h : m.IsFault) : m.WellFormed := by
  obtain ⟨cause, h⟩ := h
  intro k hk
  rw [h] at hk
  cases hk

theorem wellFormed_blank (n : Nat) : (⟨n, .blank⟩ : Munch).WellFormed := by
  rintro k ⟨⟩

theorem lt_of_intValue? {base value : Nat} {digits : List Char}
    (h : Literal.intValue? base digits = some value) : value < Nat.pow 2 64 := by
  unfold Literal.intValue? at h
  dsimp only at h
  split at h
  · cases h
  next hFits =>
    simp only [Bool.or_eq_true, decide_eq_true_eq, not_or, Nat.not_le] at hFits
    cases h
    exact hFits.2

theorem wellFormed_int (n base : Nat) (digits : List Char) (suffix : Option IntSuffix) :
    (⟨n, intPiece base digits suffix⟩ : Munch).WellFormed := by
  intro k hk
  dsimp only at hk
  unfold intPiece at hk
  split at hk
  next hValue =>
    cases hk
    exact lt_of_intValue? hValue
  next => cases hk

theorem wellFormed_number (a : Char) (cs : List Char) : (number a cs).WellFormed := by
  unfold number
  dsimp only
  refine .ite (wellFormed_int _ _ _ _) (.ite (wellFormed_int _ _ _ _) ?_)
  rw [decimalNumber_eq]
  unfold decimalRest
  dsimp only
  refine .ite (wellFormed_int _ _ _ _) ?_
  rintro k ⟨⟩
  trivial

theorem isName_takeWhile {c : Char} (start : isNameStart c = true) (cs : List Char) :
    IsName (String.ofList (c :: cs.takeWhile isNamePart)) :=
  ⟨c, _, rfl, start, List.all_eq_true.mp List.all_takeWhile⟩

theorem wellFormed_wordKind {text : String} (h : IsName text) : (wordKind text).WellFormed := by
  unfold wordKind
  split
  · trivial
  · split
    · trivial
    · split
      · trivial
      · exact h

theorem wellFormed_quoted (opening : Nat) (cs : List Char) : (quoted opening cs).WellFormed := by
  intro k hk
  unfold quoted at hk
  dsimp only at hk
  split at hk
  · dsimp only at hk
    split at hk <;> cases hk
    trivial
  · cases hk

theorem wellFormed_verbatim (cs : List Char) : (verbatim cs).WellFormed := by
  intro k hk
  unfold verbatim at hk
  dsimp only at hk
  split at hk <;> cases hk
  trivial

theorem wellFormed_character (cs : List Char) : (character cs).WellFormed := by
  unfold character
  split
  · intro k hk
    dsimp only at hk
    split at hk <;> cases hk
    trivial
  · exact .of_isFault (isFault_brokenCharacter cs)

theorem wellFormed_marked (a : Char) (cs : List Char) : (marked a cs).WellFormed := by
  match cs with
  | [] => rintro k ⟨⟩
  | b :: cs =>
    by_cases hQuote : b = '"'
    · subst hQuote
      rw [marked_quote]
      exact .ite (wellFormed_verbatim cs) (wellFormed_quoted 1 cs)
    · by_cases hName : (a == '@' && isNameStart b) = true
      · rw [marked_name hQuote hName]
        rintro k ⟨⟩
        exact isName_takeWhile (Bool.and_eq_true_iff.mp hName).2 cs
      · exact .of_isFault (isFault_marked hQuote hName cs)

theorem wellFormed_punctuation (a : Char) (cs : List Char) : (punctuation a cs).WellFormed := by
  intro k hk
  unfold punctuation at hk
  split at hk <;> cases hk
  trivial

theorem wellFormed_munch (a : Char) (cs : List Char) : (munch a cs).WellFormed := by
  unfold munch
  refine .ite (wellFormed_blank _) (.ite (wellFormed_number a cs) ?_)
  split
  next start =>
    rintro k ⟨⟩
    exact wellFormed_wordKind (isName_takeWhile start cs)
  next =>
    exact .ite (wellFormed_blank _) (.ite (wellFormed_quoted 0 cs) (.ite (wellFormed_character cs)
      (.ite (wellFormed_marked a cs) (.ite (wellFormed_blank _) (.ite (wellFormed_blank _)
        (wellFormed_punctuation a cs))))))

theorem wellFormed_of_mem_tokenize {source : List Char} {t : Token}
    (h : t ∈ (tokenize source).tokens) : t.kind.WellFormed := by
  rcases List.mem_append.mp h with h | h
  · obtain ⟨_, a, rest, _, hPiece, _⟩ := exists_munch_of_mem_run h
    exact wellFormed_munch a rest t.kind hPiece
  · rw [List.mem_singleton.mp h]
    trivial

theorem wordKind_eq_keyword {w : String} {k : Keyword} (h : wordKind w = .keyword k) :
    w = k.text := by
  unfold wordKind at h
  split at h
  · cases h
  · split at h
    · cases h
    · split at h
      next found hFound =>
        cases h
        have hText := List.find?_some hFound
        exact (beq_iff_eq.mp hText).symm
      next => cases h

theorem wordKind_ne_punct (w : String) (p : Punct) : wordKind w ≠ .punct p := by
  unfold wordKind
  split
  · simp
  · split
    · simp
    · split <;> simp

/-- The cut is no word and no mark with a single spelling. -/
def Munch.IsOther (m : Munch) : Prop := ∀ k, m.piece = .token k → k.spelling? = none

theorem Munch.IsOther.ite {cond : Prop} [Decidable cond] {m n : Munch} (hm : m.IsOther)
    (hn : n.IsOther) : (if cond then m else n).IsOther := by
  split
  · exact hm
  · exact hn

theorem isOther_blank (n : Nat) : (⟨n, .blank⟩ : Munch).IsOther := by
  rintro k ⟨⟩

theorem isOther_of_isFault {m : Munch} (h : m.IsFault) : m.IsOther := by
  obtain ⟨cause, h⟩ := h
  intro k hk
  rw [h] at hk
  cases hk

theorem isOther_int (n base : Nat) (digits : List Char) (suffix : Option IntSuffix) :
    (⟨n, intPiece base digits suffix⟩ : Munch).IsOther := by
  intro k hk
  dsimp only at hk
  unfold intPiece at hk
  split at hk <;> cases hk
  rfl

theorem isOther_number (a : Char) (cs : List Char) : (number a cs).IsOther := by
  unfold number
  dsimp only
  refine .ite (isOther_int _ _ _ _) (.ite (isOther_int _ _ _ _) ?_)
  rw [decimalNumber_eq]
  unfold decimalRest
  dsimp only
  refine .ite (isOther_int _ _ _ _) ?_
  rintro k ⟨⟩
  rfl

theorem isOther_quoted (opening : Nat) (cs : List Char) : (quoted opening cs).IsOther := by
  intro k hk
  unfold quoted at hk
  dsimp only at hk
  split at hk
  · dsimp only at hk
    split at hk <;> cases hk
    rfl
  · cases hk

theorem isOther_verbatim (cs : List Char) : (verbatim cs).IsOther := by
  intro k hk
  unfold verbatim at hk
  dsimp only at hk
  split at hk <;> cases hk
  rfl

theorem isOther_character (cs : List Char) : (character cs).IsOther := by
  unfold character
  split
  · intro k hk
    dsimp only at hk
    split at hk <;> cases hk
    rfl
  · exact isOther_of_isFault (isFault_brokenCharacter cs)

theorem isOther_marked (a : Char) (cs : List Char) : (marked a cs).IsOther := by
  match cs with
  | [] => rintro k ⟨⟩
  | b :: cs =>
    by_cases hQuote : b = '"'
    · subst hQuote
      rw [marked_quote]
      exact .ite (isOther_verbatim cs) (isOther_quoted 1 cs)
    · by_cases hName : (a == '@' && isNameStart b) = true
      · rw [marked_name hQuote hName]
        rintro k ⟨⟩
        rfl
      · exact isOther_of_isFault (isFault_marked hQuote hName cs)

theorem munch_cases (a : Char) (cs : List Char) :
    munch a cs = word a cs ∨ munch a cs = punctuation a cs ∨ (munch a cs).IsOther := by
  unfold munch
  split
  · exact .inr (.inr (isOther_blank _))
  split
  · exact .inr (.inr (isOther_number a cs))
  split
  · exact .inl rfl
  split
  · exact .inr (.inr (isOther_blank _))
  split
  · exact .inr (.inr (isOther_quoted 0 cs))
  split
  · exact .inr (.inr (isOther_character cs))
  split
  · exact .inr (.inr (isOther_marked a cs))
  split
  · exact .inr (.inr (isOther_blank _))
  split
  · exact .inr (.inr (isOther_blank _))
  · exact .inr (.inl rfl)

theorem chars_of_longest? {p : Punct} (h : Punct.longest? (a :: cs) = some p) :
    a :: cs.take (p.chars.length - 1) = p.chars := by
  have hPrefix := List.find?_some h
  rw [List.isPrefixOf_iff_prefix] at hPrefix
  have hPos : p.chars.length = p.chars.length - 1 + 1 := by cases p <;> rfl
  rw [← List.take_succ_cons, ← hPos]
  exact (List.prefix_iff_eq_take.mp hPrefix).symm

/-- Only a word is a keyword. -/
theorem munch_eq_word {k : Keyword} (h : (munch a cs).piece = .token (.keyword k)) :
    munch a cs = word a cs := by
  rcases munch_cases a cs with hWord | hMark | hOther
  · exact hWord
  · rw [hMark, punctuation] at h
    split at h <;> cases h
  · cases hOther _ h

/-- The text under a keyword spells it. -/
theorem text_of_munch_keyword {k : Keyword} (h : (munch a cs).piece = .token (.keyword k)) :
    a :: cs.takeWhile isNamePart = k.text.toList ∧
      (munch a cs).extra = (cs.takeWhile isNamePart).length := by
  have hWord := munch_eq_word h
  rw [hWord] at h ⊢
  have hKind : wordKind (String.ofList (a :: cs.takeWhile isNamePart)) = .keyword k := by
    injection h
  rw [← wordKind_eq_keyword hKind, String.toList_ofList]
  exact ⟨rfl, rfl⟩

theorem text_of_munch_punct {p : Punct} (h : (munch a cs).piece = .token (.punct p)) :
    a :: cs.take (munch a cs).extra = p.chars := by
  rcases munch_cases a cs with hWord | hMark | hOther
  · rw [hWord] at h
    have hKind : wordKind (String.ofList (a :: cs.takeWhile isNamePart)) = .punct p := by
      injection h
    exact absurd hKind (wordKind_ne_punct _ p)
  · rw [hMark, punctuation] at h ⊢
    split at h
    next hLongest =>
      cases h
      exact chars_of_longest? hLongest
    next => cases h
  · cases hOther _ h

/-- The text under a word or mark with a single spelling is the spelling. -/
theorem text_of_munch {k : TokenKind} {text : List Char} (h : (munch a cs).piece = .token k)
    (hText : k.spelling? = some text) : a :: cs.take (munch a cs).extra = text := by
  cases k with
  | keyword word =>
    cases hText
    obtain ⟨hSpelled, hExtra⟩ := text_of_munch_keyword h
    rw [hExtra, ← hSpelled, ← List.prefix_iff_eq_take.mp (List.takeWhile_prefix isNamePart)]
  | punct mark =>
    cases hText
    exact text_of_munch_punct h
  | _ => cases hText

theorem spelled_of_mem_tokenize {source text : List Char} {t : Token}
    (h : t ∈ (tokenize source).tokens) (hText : t.kind.spelling? = some text) :
    ∃ pre post, source = pre ++ (text ++ post) ∧ t.span.start = Text.byteSize pre ∧
      t.span.stop = t.span.start + Text.byteSize text := by
  rcases List.mem_append.mp h with h | h
  · obtain ⟨pre, a, rest, rfl, hPiece, hStart, hStop⟩ := exists_munch_of_mem_run h
    have hCut := text_of_munch hPiece hText
    refine ⟨pre, rest.drop (munch a rest).extra, ?_, hStart.trans (Nat.zero_add _), hCut ▸ hStop⟩
    rw [← hCut, List.cons_append, List.take_append_drop]
  · obtain rfl := List.mem_singleton.mp h
    cases hText

end Lexer

end Stackable
