import Stackable.Proofs.Token.Locality

/-!
# Tokens on their own

A token is cut off alike when the text ends behind it: digits, names and literals end where they
ended, and no letter that made a number longer is missed. So the text of a token, read alone, is
that token again.
-/

set_option autoImplicit false

namespace Stackable

open Literal

variable {p x : List Char} {c : Char}

/-- A run of characters that ends within a text is the run of that text. -/
theorem takeWhile_of_append {q : Char → Bool} (h : ((p ++ x).takeWhile q).length ≤ p.length) :
    p.takeWhile q = (p ++ x).takeWhile q := by
  induction p with
  | nil =>
    have hNil := List.eq_nil_of_length_eq_zero (Nat.le_zero.mp h)
    rw [List.nil_append] at hNil
    rw [List.nil_append, hNil, List.takeWhile_nil]
  | cons a p ih =>
    rw [List.cons_append, List.takeWhile_cons] at h
    rw [List.cons_append, List.takeWhile_cons, List.takeWhile_cons]
    split
    next ha =>
      rw [if_pos ha, List.length_cons, List.length_cons] at h
      rw [ih (Nat.le_of_succ_le_succ h)]
    · rfl

theorem intSuffix_of_append (h : (intSuffix (p ++ x)).1 = p.length) :
    intSuffix p = intSuffix (p ++ x) := by
  match p with
  | [] =>
    cases x with
    | nil => rfl
    | cons a x =>
      rw [List.nil_append, intSuffix] at h
      grind [intSuffix]
  | [a] =>
    rw [List.cons_append, List.nil_append, intSuffix] at h
    grind [intSuffix]
  | a :: b :: p => rfl

theorem realSuffix_of_append (h : (realSuffix (p ++ x)).1 = p.length) :
    realSuffix p = realSuffix (p ++ x) := by
  match p with
  | [] =>
    cases x with
    | nil => rfl
    | cons a x =>
      rw [List.nil_append, realSuffix] at h
      grind [realSuffix]
  | a :: p => rfl

def signSize (sign : Char) : Nat := if sign == '+' || sign == '-' then 1 else 0

theorem signSize_le (sign : Char) : signSize sign ≤ 1 := by
  unfold signSize
  split <;> decide

/-- An exponent, its digits apart from its mark and its sign. -/
def exponentOf (mark sign : Char) (digits : List Char) : Option (Nat × Int) :=
  if mark == 'e' || mark == 'E' then
    if digits.isEmpty then none
    else some (1 + signSize sign + digits.length,
      if sign == '-' then -(Decimal.digitsValue 10 digits : Int) else Decimal.digitsValue 10 digits)
  else none

theorem exponent?_cons (a : Char) (p : List Char) :
    exponent? (a :: p) = exponentOf a (p.headD ' ')
      ((p.drop (signSize (p.headD ' '))).takeWhile Literal.isDigit) := rfl

theorem size_of_exponentOf {mark sign : Char} {digits : List Char} {n : Nat} {power : Int}
    (h : exponentOf mark sign digits = some (n, power)) :
    n = 1 + signSize sign + digits.length ∧ 0 < digits.length := by
  unfold exponentOf at h
  split at h
  · split at h
    · cases h
    next hDigits =>
      rw [List.isEmpty_iff_length_eq_zero] at hDigits
      cases h
      exact ⟨rfl, Nat.pos_of_ne_zero hDigits⟩
  · cases h

theorem exponent?_of_append {n : Nat} {power : Int} (h : exponent? (p ++ x) = some (n, power))
    (hn : n ≤ p.length) : exponent? p = some (n, power) := by
  match p with
  | [] =>
    cases x with
    | nil => cases h
    | cons a x =>
      have hSize := size_of_exponentOf h
      rw [List.length_nil] at hn
      omega
  | [a] =>
    have hSize := size_of_exponentOf h
    rw [List.length_singleton] at hn
    omega
  | a :: b :: p =>
    rw [List.cons_append, exponent?_cons, List.cons_append, List.headD_cons] at h
    rw [exponent?_cons, List.headD_cons]
    have hSign := signSize_le b
    have hDrop : (b :: (p ++ x)).drop (signSize b) = (b :: p).drop (signSize b) ++ x := by
      rw [← List.cons_append]
      apply List.drop_append_of_le_length
      rw [List.length_cons]
      omega
    have hSize := size_of_exponentOf h
    rw [hDrop] at h hSize
    rw [takeWhile_of_append, h]
    simp only [List.length_drop, List.length_cons] at hn ⊢
    omega

theorem exponent?_eq_none (h : p.length ≤ 1) : exponent? p = none := by
  match p with
  | [] => rfl
  | [a] => simp [exponent?]
  | _ :: _ :: _ => simp at h

theorem realSuffix_le (p : List Char) : (realSuffix p).1 ≤ 1 := by
  cases p with
  | nil => exact Nat.zero_le _
  | cons a p =>
    unfold realSuffix
    grind

theorem fractionDigits_of_append (h : pointExtent (p ++ x) ≤ p.length)
    (hPoint : pointExtent (p ++ x) = 0 → p.head? ≠ some '.') :
    fractionDigits p = fractionDigits (p ++ x) := by
  by_cases hFraction : fractionDigits (p ++ x) = []
  · have hZero : pointExtent (p ++ x) = 0 := by simp [pointExtent, hFraction]
    rw [hFraction, fractionDigits, if_neg fun hHead => hPoint hZero hHead.1]
  · have hSize : pointExtent (p ++ x) = 1 + (fractionDigits (p ++ x)).length := by
      simp [pointExtent, hFraction]
    have hPos := List.length_pos_iff.mpr hFraction
    cases p with
    | nil => simp only [List.length_nil] at h; omega
    | cons a p =>
      cases p with
      | nil => simp only [List.length_singleton] at h; omega
      | cons b p =>
        have hDigits : fractionDigits (a :: b :: p ++ x) =
            if a = '.' ∧ Literal.isDigit b then
              (b :: p ++ x).takeWhile (Literal.orUnderscore Literal.isDigit) else [] := by
          simp [fractionDigits]
        have hDigits' : fractionDigits (a :: b :: p) =
            if a = '.' ∧ Literal.isDigit b then
              (b :: p).takeWhile (Literal.orUnderscore Literal.isDigit) else [] := by
          simp [fractionDigits]
        rw [hSize, hDigits] at h
        rw [hDigits, hDigits']
        split
        next hHead =>
          rw [if_pos hHead] at h
          apply takeWhile_of_append
          simp only [List.length_cons] at h ⊢
          omega
        · rfl

/-- The letters that close an integer are none that a real number needs. -/
theorem decimalRest_of_intSuffix {digits : List Char} {size : Nat}
    (h : (intSuffix p).1 = p.length) :
    decimalRest digits p size = ⟨size + p.length, Lexer.intPiece 10 digits (intSuffix p).2⟩ := by
  cases p with
  | nil => rfl
  | cons a p =>
    have hLetter : a = 'u' ∨ a = 'U' ∨ a = 'l' ∨ a = 'L' := by
      rw [intSuffix] at h
      grind
    have hFraction : fractionDigits (a :: p) = [] := by
      rcases hLetter with rfl | rfl | rfl | rfl <;> simp [fractionDigits]
    have hExponent : exponent? (a :: p) = none := by
      rcases hLetter with rfl | rfl | rfl | rfl <;> simp [exponent?]
    have hSuffix : realSuffix (a :: p) = (0, none) := by
      rcases hLetter with rfl | rfl | rfl | rfl <;> rfl
    have hPoint : pointExtent (a :: p) = 0 := by simp [pointExtent, hFraction]
    simp [decimalRest, hPoint, hExponent, hSuffix, h]

/-- A number with a fraction, an exponent or a suffix of its own is real. -/
theorem decimalRest_of_real {digits : List Char} {size point exponentSize suffixSize : Nat}
    {power : Int} {suffix : Option RealSuffix} {exponent : Option (Nat × Int)}
    (hPoint : pointExtent p = point) (hExponent : exponent? (p.drop point) = exponent)
    (hPower : exponent.getD (0, 0) = (exponentSize, power))
    (hSuffix : realSuffix (p.drop (point + exponentSize)) = (suffixSize, suffix)) :
    decimalRest digits p size =
      if point = 0 ∧ exponent = none ∧ suffix = none then
        ⟨size + (intSuffix p).1, Lexer.intPiece 10 digits (intSuffix p).2⟩
      else ⟨size + point + exponentSize + suffixSize,
        .token (.real (realValue digits (fractionDigits p) power) suffix)⟩ := by
  subst hPoint
  subst hExponent
  simp only [decimalRest, hPower, hSuffix]

theorem decimalRest_of_append {digits : List Char} {size : Nat} {kind : TokenKind}
    (h : decimalRest digits (p ++ x) size = ⟨size + p.length, .token kind⟩) :
    decimalRest digits p size = ⟨size + p.length, .token kind⟩ := by
  generalize hPoint : pointExtent (p ++ x) = point
  generalize hExponent : exponent? ((p ++ x).drop point) = exponent
  generalize hPower : exponent.getD (0, 0) = found
  obtain ⟨exponentSize, power⟩ := found
  generalize hSuffix : realSuffix ((p ++ x).drop (point + exponentSize)) = last
  obtain ⟨suffixSize, suffix⟩ := last
  rw [decimalRest_of_real hPoint hExponent hPower hSuffix] at h
  split at h
  next hInt =>
    obtain ⟨hSize, hPiece⟩ := Lexer.Munch.mk.inj h
    have hWhole := Nat.add_left_cancel hSize
    have hSame := intSuffix_of_append hWhole
    rw [decimalRest_of_intSuffix (hSame ▸ hWhole), hSame, hPiece]
  next hReal =>
    obtain ⟨hSize, hPiece⟩ := Lexer.Munch.mk.inj h
    have hHead : pointExtent (p ++ x) = 0 → p.head? ≠ some '.' := by
      intro hZero hDot
      obtain ⟨rest, rfl⟩ := List.head?_eq_some_iff.mp hDot
      obtain rfl : point = 0 := hPoint.symm.trans hZero
      obtain rfl : none = exponent := hExponent
      cases hPower
      cases hSuffix
      exact hReal ⟨rfl, rfl, rfl⟩
    have hFraction := fractionDigits_of_append (p := p) (x := x) (by omega) hHead
    have hPoint' : pointExtent p = point := by
      rw [← hPoint, pointExtent, pointExtent, hFraction]
    have hOne := realSuffix_le ((p ++ x).drop (point + exponentSize))
    rw [hSuffix] at hOne
    rw [List.drop_append_of_le_length (by omega)] at hExponent hSuffix
    have hExponent' : exponent? (p.drop point) = exponent := by
      cases exponent with
      | some found =>
        cases hPower
        apply exponent?_of_append hExponent
        rw [List.length_drop]
        omega
      | none =>
        cases hPower
        apply exponent?_eq_none
        rw [List.length_drop]
        omega
    have hSuffix' : realSuffix (p.drop (point + exponentSize)) = (suffixSize, suffix) := by
      rw [realSuffix_of_append, hSuffix]
      rw [hSuffix, List.length_drop]
      omega
    rw [decimalRest_of_real hPoint' hExponent' hPower hSuffix', if_neg hReal, hFraction, hSize, hPiece]

namespace Lexer

/-- A token that is cut off with `p` is cut off alike where `p` is the whole text. -/
def SelfContained (f : List Char → Munch) : Prop :=
  ∀ p x kind, f (p ++ x) = ⟨p.length, .token kind⟩ → f p = ⟨p.length, .token kind⟩

theorem SelfContained.ite {f g : List Char → Munch} {cond : Prop} [Decidable cond]
    (hf : SelfContained f) (hg : SelfContained g) :
    SelfContained fun cs => if cond then f cs else g cs := by
  by_cases h : cond
  · simp only [if_pos h]
    exact hf
  · simp only [if_neg h]
    exact hg

theorem decimalNumber_selfContained (c : Char) : SelfContained (decimalNumber c) := by
  intro p x kind h
  rw [decimalNumber_eq] at h
  have hSize : ((p ++ x).takeWhile (Literal.orUnderscore Literal.isDigit)).length ≤ p.length := by
    have hExtra := congrArg Munch.extra h
    unfold decimalRest at hExtra
    dsimp only at hExtra
    split at hExtra <;> (dsimp only at hExtra; omega)
  have hMore := takeWhile_of_append hSize
  rw [← hMore] at h hSize
  have hLength : p.length = (p.takeWhile (Literal.orUnderscore Literal.isDigit)).length +
      (p.drop (p.takeWhile (Literal.orUnderscore Literal.isDigit)).length).length := by
    rw [List.length_drop]
    omega
  rw [drop_takeWhile, hLength] at h
  rw [decimalNumber_eq, decimalRest_of_append h, ← hLength]

theorem radixNumber_selfContained {base : Nat} {isMember : Char → Bool} {kind : TokenKind}
    (h : radixNumber base isMember (p ++ x) = ⟨1 + p.length, .token kind⟩) :
    radixNumber base isMember p = ⟨1 + p.length, .token kind⟩ := by
  unfold radixNumber at h ⊢
  dsimp only at h ⊢
  obtain ⟨hSize, hPiece⟩ := Munch.mk.inj h
  have hDigits := takeWhile_of_append (p := p) (x := x) (q := orUnderscore isMember) (by omega)
  rw [← hDigits, drop_takeWhile] at hSize hPiece
  have hSuffix := intSuffix_of_append (p := p.drop (p.takeWhile (orUnderscore isMember)).length)
    (x := x) (by rw [List.length_drop]; omega)
  rw [hSuffix, hSize, hPiece]

/-- Behind `0x` or `0b` stands a digit. -/
theorem length_of_radixNumber (base : Nat) {isMember : Char → Bool} {cs : List Char}
    (h : orUnderscore isMember (cs.headD ' ') = true) (hBlank : orUnderscore isMember ' ' = false) :
    2 ≤ (radixNumber base isMember cs).extra := by
  cases cs with
  | nil =>
    rw [List.headD_nil, hBlank] at h
    cases h
  | cons a cs =>
    unfold radixNumber
    dsimp only
    rw [List.headD_cons] at h
    rw [List.takeWhile_cons, if_pos h, List.length_cons]
    omega

/-- A number of one or two characters has no room for `0x` or `0b` and a digit. -/
theorem number_of_extra_lt {cs : List Char} (h : (number c cs).extra < 2) :
    number c cs = decimalNumber c cs := by
  unfold number at h ⊢
  dsimp only at h ⊢
  split
  next hHex =>
    rw [if_pos hHex] at h
    rw [Bool.and_eq_true] at hHex
    have hLong := length_of_radixNumber 16 hHex.2 (by decide)
    omega
  next hHex =>
    rw [if_neg hHex] at h
    split
    next hBinary =>
      rw [if_pos hBinary] at h
      rw [Bool.and_eq_true] at hBinary
      have hLong := length_of_radixNumber 2 hBinary.2 (by decide)
      omega
    · rfl

theorem number_of_short (h : p.length ≤ 1) : number c p = decimalNumber c p := by
  match p with
  | [] => simp [number]
  | [a] => simp [number, orUnderscore, isBinaryDigit, show isHexDigit ' ' = false by decide]
  | _ :: _ :: _ => simp at h

theorem number_selfContained (c : Char) : SelfContained (number c) := by
  intro p x kind h
  match p with
  | a :: b :: p =>
    have hLength : (a :: b :: p).length = 1 + (b :: p).length := by
      rw [List.length_cons, Nat.add_comm]
    rw [hLength] at h ⊢
    unfold number at h ⊢
    simp only [List.cons_append, List.headD_cons, List.drop_one, List.tail_cons] at h ⊢
    split
    next hHex =>
      rw [if_pos hHex] at h
      exact radixNumber_selfContained h
    next hHex =>
      rw [if_neg hHex] at h
      split
      next hBinary =>
        rw [if_pos hBinary] at h
        exact radixNumber_selfContained h
      next hBinary =>
        rw [if_neg hBinary] at h
        rw [← hLength] at h ⊢
        exact decimalNumber_selfContained c _ x kind h
  | [] | [a] =>
    rw [number_of_short (by simp)]
    apply decimalNumber_selfContained c _ x kind
    rw [← number_of_extra_lt, h]
    rw [h]
    simp

theorem word_selfContained (c : Char) : SelfContained (word c) := by
  intro p x kind h
  have hSize := congrArg Munch.extra h
  unfold word at h hSize ⊢
  dsimp only at h hSize ⊢
  rw [takeWhile_of_append (Nat.le_of_eq hSize), h]

theorem not_isFault_token {m : Munch} {n : Nat} {kind : TokenKind} (h : m = ⟨n, .token kind⟩) :
    ¬m.IsFault := by
  rintro ⟨cause, hCause⟩
  rw [h] at hCause
  cases hCause

theorem quoted_of_append {opening : Nat} {kind : TokenKind}
    (h : quoted opening (p ++ x) = ⟨opening + p.length, .token kind⟩) :
    quoted opening p = ⟨opening + p.length, .token kind⟩ := by
  have hSame := quoted_append (y := []) (Nat.le_of_eq (congrArg Munch.extra h))
    (not_isFault_token h)
  rw [List.append_nil] at hSame
  rw [hSame, h]

theorem verbatim_of_append {kind : TokenKind}
    (h : verbatim (p ++ x) = ⟨1 + p.length, .token kind⟩) :
    verbatim p = ⟨1 + p.length, .token kind⟩ := by
  have hExtra : (verbatim (p ++ x)).extra ≤ p.length + 1 :=
    Nat.le_of_eq ((congrArg Munch.extra h).trans (Nat.add_comm 1 p.length))
  have hSame := verbatim_append (y := []) (by simp) hExtra (not_isFault_token h)
  rw [List.append_nil] at hSame
  rw [hSame, h]

theorem quoted_selfContained : SelfContained (quoted 0) := by
  intro p x kind h
  rw [← Nat.zero_add p.length] at h ⊢
  exact quoted_of_append h

theorem character_selfContained : SelfContained character := by
  intro p x kind h
  unfold character at h ⊢
  cases hExtent : characterExtent? (p ++ x) with
  | none =>
    rw [hExtent] at h
    exact absurd (isFault_brokenCharacter _) (not_isFault_token h)
  | some size =>
    rw [hExtent] at h
    have hSize : size < p.length := Nat.lt_of_succ_le (Nat.le_of_eq (congrArg Munch.extra h))
    have hSame := characterExtent?_append (y := []) hExtent hSize
    rw [List.append_nil] at hSame
    rw [hSame, ← h]
    dsimp only
    rw [List.take_append_of_le_length (Nat.le_of_lt hSize)]

/-- A mark that the text starts with starts also a shorter text it has room in. -/
theorem longest?_of_append {m : Punct} (h : Punct.longest? (p ++ x) = some m)
    (hLength : m.chars.length ≤ p.length) : Punct.longest? p = some m := by
  unfold Punct.longest? at h ⊢
  rw [List.find?_eq_some_iff_append] at h ⊢
  obtain ⟨hStarts, before, after, hAll, hOther⟩ := h
  rw [List.isPrefixOf_iff_prefix] at hStarts
  refine ⟨?_, before, after, hAll, ?_⟩
  · rw [List.isPrefixOf_iff_prefix]
    exact List.prefix_of_prefix_length_le hStarts (List.prefix_append p x) hLength
  · intro other hMem
    have hLonger := hOther other hMem
    rw [Bool.not_eq_true', ← Bool.not_eq_true, List.isPrefixOf_iff_prefix] at hLonger ⊢
    exact fun hStart => hLonger (hStart.trans (List.prefix_append p x))

theorem punctuation_selfContained (c : Char) : SelfContained (punctuation c) := by
  intro p x kind h
  unfold punctuation at h ⊢
  cases hFound : Punct.longest? (c :: (p ++ x)) with
  | none =>
    rw [hFound] at h
    exact absurd ⟨_, rfl⟩ (not_isFault_token h)
  | some m =>
    rw [hFound] at h
    obtain ⟨hSize, hPiece⟩ := Munch.mk.inj h
    rw [longest?_of_append (p := c :: p) hFound]
    · exact h
    · rw [List.length_cons]
      omega

/-- A mark is no token without what follows it. -/
theorem extra_pos_of_marked {a : Char} {cs : List Char} (h : ¬(marked a cs).IsFault) :
    0 < (marked a cs).extra := by
  cases cs with
  | nil => exact absurd ⟨_, rfl⟩ h
  | cons b cs =>
    by_cases hQuote : b = '"'
    · subst hQuote
      rw [marked_quote]
      split
      · unfold verbatim
        dsimp only
        split <;> exact Nat.succ_pos _
      · unfold quoted
        dsimp only
        split <;> (dsimp only; omega)
    · rw [marked_name hQuote (name_of_marked hQuote h)]
      dsimp only
      omega

theorem marked_selfContained (a : Char) : SelfContained (marked a) := by
  intro p x kind h
  have hFault := not_isFault_token h
  cases p with
  | nil =>
    have hPos := extra_pos_of_marked hFault
    rw [h] at hPos
    exact absurd hPos (Nat.lt_irrefl _)
  | cons b p =>
    rw [List.cons_append] at h hFault
    rw [List.length_cons, Nat.add_comm] at h ⊢
    by_cases hQuote : b = '"'
    · subst hQuote
      rw [marked_quote] at h ⊢
      split at h
      next ha =>
        rw [if_pos ha]
        exact verbatim_of_append h
      next ha =>
        rw [if_neg ha]
        exact quoted_of_append h
    · have hName := name_of_marked hQuote hFault
      rw [marked_name hQuote hName] at h ⊢
      obtain ⟨hSize, hPiece⟩ := Munch.mk.inj h
      rw [takeWhile_of_append (x := x) (by omega), h]

theorem SelfContained.blank {f : List Char → Munch} (h : ∀ cs, (f cs).piece = .blank) :
    SelfContained f := by
  intro p x kind hToken
  have hPiece := h (p ++ x)
  rw [hToken] at hPiece
  cases hPiece

/-- Where the next character makes no comment, neither does the end of the text. -/
theorem SelfContained.ite_head {f g : List Char → Munch} {b : Bool} {m : Char}
    (hf : ∀ cs, (f cs).piece = .blank) (hg : SelfContained g) :
    SelfContained fun cs => if (b && cs.head? == some m) = true then f cs else g cs := by
  intro p x kind h
  dsimp only at h ⊢
  split at h
  · have hPiece := hf (p ++ x)
    rw [h] at hPiece
    cases hPiece
  next hHead =>
    rw [if_neg, hg p x kind h]
    intro hCond
    apply hHead
    rw [Bool.and_eq_true, beq_iff_eq] at hCond ⊢
    refine ⟨hCond.1, ?_⟩
    rw [List.head?_append, hCond.2, Option.some_or]

theorem munch_selfContained (a : Char) : SelfContained (munch a) := by
  have line : ∀ cs, (toLineEnd cs).piece = .blank := fun _ => rfl
  refine .ite (.blank fun _ => rfl) (.ite (number_selfContained a) (.ite (word_selfContained a)
    (.ite (.blank line) (.ite quoted_selfContained (.ite character_selfContained
    (.ite (marked_selfContained a) (.ite_head line (.ite_head (fun _ => rfl)
    (punctuation_selfContained a)))))))))

/-- A token is cut off its own text as off a longer one. -/
theorem munch_take {a : Char} {cs : List Char} {kind : TokenKind}
    (h : (munch a cs).piece = .token kind) :
    munch a (cs.take (munch a cs).extra) = munch a cs := by
  by_cases hLe : (munch a cs).extra ≤ cs.length
  · have hLength := List.length_take_of_le hLe
    have hMunch : munch a cs = ⟨(cs.take (munch a cs).extra).length, .token kind⟩ := by
      rw [hLength, ← h]
    have hSplit : munch a (cs.take (munch a cs).extra ++ cs.drop (munch a cs).extra) =
        ⟨(cs.take (munch a cs).extra).length, .token kind⟩ := by
      rw [List.take_append_drop]
      exact hMunch
    rw [munch_selfContained a _ _ kind hSplit]
    exact hMunch.symm
  · rw [List.take_of_length_le (Nat.le_of_not_le hLe)]

/-- A text that is cut off as one token is read as that token. -/
theorem tokenize_of_munch {a : Char} {cs : List Char} {kind : TokenKind}
    (h : (munch a cs).piece = .token kind) (hWhole : cs.length ≤ (munch a cs).extra) :
    tokenize (a :: cs) = ⟨[⟨kind, 0, Text.byteSize (a :: cs)⟩,
      ⟨.eof, Text.byteSize (a :: cs), Text.byteSize (a :: cs)⟩], []⟩ := by
  have hStop : Text.byteSize (a :: cs) =
      0 + a.utf8Size + Text.byteSize (cs.take (munch a cs).extra) := by
    rw [List.take_of_length_le hWhole, Text.byteSize, Nat.zero_add]
  unfold tokenize
  rw [run_token (by decide) h hStop, List.drop_eq_nil_of_le hWhole, run]
  rfl

/-- The text of a token, read alone, is that token and the end. -/
theorem tokenize_token_text {a : Char} {cs : List Char} {kind : TokenKind}
    (h : (munch a cs).piece = .token kind) :
    tokenize (a :: cs.take (munch a cs).extra) =
      ⟨[⟨kind, 0, Text.byteSize (a :: cs.take (munch a cs).extra)⟩,
        ⟨.eof, Text.byteSize (a :: cs.take (munch a cs).extra),
          Text.byteSize (a :: cs.take (munch a cs).extra)⟩], []⟩ := by
  have hSame := munch_take h
  apply tokenize_of_munch
  · rw [hSame, h]
  · rw [hSame]
    exact List.length_take_le _ _

end Lexer

end Stackable
