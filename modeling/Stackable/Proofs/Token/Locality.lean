import Stackable.Proofs.Token.Offsets

/-!
# How far a cut looks

What is cut off a text depends on the cut and on one or two characters behind it. A letter that
neither numbers nor marks contain ends them as the end of the text would; names, comments and quoted
literals that end in front of it never see it. So one word of a text can be exchanged for another,
where a token ends in front of it, and the text up to it is cut as before.
-/

set_option autoImplicit false

namespace Stackable

open Literal

variable {p x y z : List Char} {c d : Char}

/-- The first letters of the two words that are exchanged. -/
def OpensWord (c : Char) : Prop := c = 'n' ∨ c = 's'

theorem takeWhile_append_stop {q : Char → Bool} (h : q c = false) :
    (p ++ c :: x).takeWhile q = p.takeWhile q := by
  induction p with
  | nil => simp [h]
  | cons a p ih =>
    rw [List.cons_append, List.takeWhile_cons, List.takeWhile_cons, ih]

theorem drop_takeWhile {q : Char → Bool} :
    (p ++ z).drop (p.takeWhile q).length = p.drop (p.takeWhile q).length ++ z :=
  List.drop_append_of_le_length (List.takeWhile_prefix q).length_le

theorem OpensWord.headD (hc : OpensWord c) {q : Char → Bool} (hn : q 'n' = q ' ')
    (hs : q 's' = q ' ') : q ((p ++ c :: x).headD ' ') = q (p.headD ' ') := by
  cases p with
  | nil =>
    rcases hc with rfl | rfl
    · exact hn
    · exact hs
  | cons a p => rfl

theorem intSuffix_append (hc : OpensWord c) : intSuffix (p ++ c :: x) = intSuffix p := by
  match p with
  | [] => rcases hc with rfl | rfl <;> rfl
  | [a] => rcases hc with rfl | rfl <;> simp [intSuffix]
  | a :: b :: p => rfl

theorem realSuffix_append (hc : OpensWord c) : realSuffix (p ++ c :: x) = realSuffix p := by
  cases p with
  | nil => rcases hc with rfl | rfl <;> rfl
  | cons a p => rfl

theorem OpensWord.isDigit (hc : OpensWord c) : isDigit c = false := by
  rcases hc with rfl | rfl <;> rfl

theorem OpensWord.orUnderscore (hc : OpensWord c) {isMember : Char → Bool}
    (h : isMember c = false) : orUnderscore isMember c = false := by
  unfold Literal.orUnderscore
  rw [h]
  rcases hc with rfl | rfl <;> rfl

theorem exponent?_append (hc : OpensWord c) : exponent? (p ++ c :: x) = exponent? p := by
  match p with
  | [] => rcases hc with rfl | rfl <;> rfl
  | [a] => rcases hc with rfl | rfl <;> simp [exponent?, isDigit]
  | a :: b :: p =>
    have hDigits : ∀ n ≤ 1, ((b :: (p ++ c :: x)).drop n).takeWhile Literal.isDigit =
        ((b :: p).drop n).takeWhile Literal.isDigit := by
      intro n hn
      rw [← List.cons_append, List.drop_append_of_le_length (by simp; omega),
        takeWhile_append_stop hc.isDigit]
    have hNone := hDigits 0 (by decide)
    have hOne := hDigits 1 (by decide)
    simp only [List.cons_append, exponent?, List.headD_cons]
    by_cases hSign : (b == '+' || b == '-') = true
    · simp only [hSign, if_true, hOne]
    · simp only [hSign, if_false, Bool.false_eq_true, hNone]

theorem le_length_of_exponent? {n : Nat} {power : Int} (h : exponent? p = some (n, power)) :
    n ≤ p.length := by
  cases p with
  | nil => cases h
  | cons a p =>
    unfold exponent? at h
    dsimp only at h
    generalize (if (p.headD ' ' == '+' || p.headD ' ' == '-') = true then 1 else 0) = signSize at h
    have hLength := (List.takeWhile_prefix (l := p.drop signSize) Literal.isDigit).length_le
    rw [List.length_drop] at hLength
    split at h
    · split at h
      · cases h
      next hDigits =>
        have hPos : 0 < ((p.drop signSize).takeWhile Literal.isDigit).length := by
          rw [List.length_pos_iff]
          simpa using hDigits
        simp only [Option.some.injEq, Prod.mk.injEq] at h
        rw [List.length_cons, ← h.1]
        omega
    · cases h

theorem radixNumber_append {base : Nat} {isMember : Char → Bool} (hc : OpensWord c)
    (h : isMember c = false) :
    Lexer.radixNumber base isMember (p ++ c :: x) = Lexer.radixNumber base isMember p := by
  unfold Lexer.radixNumber
  simp only [takeWhile_append_stop (hc.orUnderscore h), drop_takeWhile, intSuffix_append hc]

/-- The digits behind the point of a number, if a digit follows the point. -/
def fractionDigits (rest : List Char) : List Char :=
  if rest.head? = some '.' ∧ Literal.isDigit ((rest.drop 1).headD ' ') then
    (rest.drop 1).takeWhile (Literal.orUnderscore Literal.isDigit)
  else []

theorem fractionDigits_append (hc : OpensWord c) :
    fractionDigits (p ++ c :: x) = fractionDigits p := by
  match p with
  | [] => rcases hc with rfl | rfl <;> simp [fractionDigits]
  | [a] => rcases hc with rfl | rfl <;> simp [fractionDigits, Literal.isDigit]
  | a :: b :: p =>
    have hDigit := hc.orUnderscore hc.isDigit
    unfold fractionDigits
    simp only [List.cons_append, List.head?_cons, List.drop_one, List.tail_cons, List.headD_cons]
    rw [← List.cons_append, takeWhile_append_stop hDigit]

/-- The length of a fraction with its point. -/
def pointExtent (rest : List Char) : Nat :=
  if (fractionDigits rest).isEmpty then 0 else 1 + (fractionDigits rest).length

theorem pointExtent_le : pointExtent p ≤ p.length := by
  cases p with
  | nil => exact Nat.le_refl _
  | cons a p =>
    have hLength := (List.takeWhile_prefix (l := p) (Literal.orUnderscore Literal.isDigit)).length_le
    have hDigits : (fractionDigits (a :: p)).length ≤ p.length := by
      unfold fractionDigits
      split
      · exact hLength
      · exact Nat.zero_le _
    unfold pointExtent
    rw [List.length_cons]
    split <;> omega

/-- A decimal literal, its first digits apart from the rest. -/
def decimalRest (digits rest : List Char) (size : Nat) : Lexer.Munch :=
  let exponent := exponent? (rest.drop (pointExtent rest))
  let (exponentSize, power) := exponent.getD (0, 0)
  let (realSize, suffix) := realSuffix (rest.drop (pointExtent rest + exponentSize))
  if pointExtent rest = 0 ∧ exponent = none ∧ suffix = none then
    ⟨size + (intSuffix rest).1, Lexer.intPiece 10 digits (intSuffix rest).2⟩
  else
    ⟨size + pointExtent rest + exponentSize + realSize,
      .token (.real (realValue digits (fractionDigits rest) power) suffix)⟩

theorem decimalNumber_eq (cs : List Char) :
    Lexer.decimalNumber d cs =
      decimalRest (d :: cs.takeWhile (Literal.orUnderscore Literal.isDigit))
        (cs.drop (cs.takeWhile (Literal.orUnderscore Literal.isDigit)).length)
        (cs.takeWhile (Literal.orUnderscore Literal.isDigit)).length := rfl

theorem decimalRest_append (hc : OpensWord c) (digits : List Char) (size : Nat) :
    decimalRest digits (p ++ c :: x) size = decimalRest digits p size := by
  have hFraction := fractionDigits_append (p := p) (x := x) hc
  have hPoint : pointExtent (p ++ c :: x) = pointExtent p := by
    unfold pointExtent
    rw [hFraction]
  have hExponent : exponent? ((p ++ c :: x).drop (pointExtent p)) =
      exponent? (p.drop (pointExtent p)) := by
    rw [List.drop_append_of_le_length pointExtent_le, exponent?_append hc]
  have hSuffix : realSuffix ((p ++ c :: x).drop
      (pointExtent p + ((exponent? (p.drop (pointExtent p))).getD (0, 0)).1)) =
      realSuffix (p.drop
        (pointExtent p + ((exponent? (p.drop (pointExtent p))).getD (0, 0)).1)) := by
    rw [List.drop_append_of_le_length, realSuffix_append hc]
    have hLe := pointExtent_le (p := p)
    cases h : exponent? (p.drop (pointExtent p)) with
    | none => simpa using hLe
    | some found =>
      have hSize := le_length_of_exponent? h
      rw [List.length_drop] at hSize
      simp only [Option.getD_some]
      omega
  unfold decimalRest
  simp only [hFraction, hPoint, hExponent, hSuffix, intSuffix_append hc]

theorem decimalNumber_append (hc : OpensWord c) :
    Lexer.decimalNumber d (p ++ c :: x) = Lexer.decimalNumber d p := by
  rw [decimalNumber_eq, decimalNumber_eq, takeWhile_append_stop (hc.orUnderscore hc.isDigit),
    drop_takeWhile, decimalRest_append hc]

theorem number_append (hc : OpensWord c) : Lexer.number d (p ++ c :: x) = Lexer.number d p := by
  have hHex : Literal.isHexDigit c = false := by
    rcases hc with rfl | rfl <;> decide
  have hBinary : Literal.isBinaryDigit c = false := by
    rcases hc with rfl | rfl <;> rfl
  match p with
  | [] =>
    have hDecimal := decimalNumber_append (d := d) (p := []) (x := x) hc
    rcases hc with rfl | rfl <;> simpa [Lexer.number] using hDecimal
  | a :: p =>
    have hDecimal := decimalNumber_append (d := d) (p := a :: p) (x := x) hc
    have hHexHead : Literal.orUnderscore Literal.isHexDigit ((p ++ c :: x).headD ' ') =
        Literal.orUnderscore Literal.isHexDigit (p.headD ' ') :=
      hc.headD (by decide) (by decide)
    have hBinaryHead : Literal.orUnderscore Literal.isBinaryDigit ((p ++ c :: x).headD ' ') =
        Literal.orUnderscore Literal.isBinaryDigit (p.headD ' ') :=
      hc.headD (by decide) (by decide)
    unfold Lexer.number
    simp only [List.cons_append, List.headD_cons, List.drop_one, List.tail_cons, hHexHead,
      hBinaryHead, radixNumber_append hc hHex, radixNumber_append hc hBinary]
    rw [List.cons_append] at hDecimal
    rw [hDecimal]

theorem isPrefixOf_append {l : List Char} (h : c ∉ l) :
    l.isPrefixOf (p ++ c :: x) = l.isPrefixOf p := by
  induction l generalizing p with
  | nil => simp
  | cons a l ih =>
    rw [List.mem_cons, not_or] at h
    cases p with
    | nil => simp [List.isPrefixOf, Ne.symm h.1]
    | cons b p => rw [List.cons_append, List.isPrefixOf, List.isPrefixOf, ih h.2]

theorem OpensWord.not_mem_chars (hc : OpensWord c) (m : Punct) : c ∉ m.chars := by
  rcases hc with rfl | rfl <;> cases m <;> decide

theorem punctuation_append (hc : OpensWord c) :
    Lexer.punctuation d (p ++ c :: x) = Lexer.punctuation d p := by
  have hLongest : Punct.longest? (d :: p ++ c :: x) = Punct.longest? (d :: p) := by
    unfold Punct.longest?
    congr 1
    funext m
    exact isPrefixOf_append (hc.not_mem_chars m)
  unfold Lexer.punctuation
  rw [← List.cons_append, hLongest]

/-- A run of characters that ends in front of a text ends alike in front of any. -/
theorem takeWhile_append_of_le {q : Char → Bool} (hc : q c = true)
    (h : ((p ++ c :: x).takeWhile q).length ≤ p.length) :
    (p ++ z).takeWhile q = (p ++ c :: x).takeWhile q := by
  induction p with
  | nil => simp [hc] at h
  | cons a p ih =>
    rw [List.cons_append, List.takeWhile_cons] at h
    rw [List.cons_append, List.cons_append, List.takeWhile_cons, List.takeWhile_cons]
    split
    next ha =>
      rw [if_pos ha, List.length_cons, List.length_cons] at h
      rw [ih (Nat.le_of_succ_le_succ h)]
    · rfl

theorem commentExtent_append (hc : OpensWord c) (hd : OpensWord d)
    (h : Lexer.commentExtent (p ++ c :: x) ≤ p.length) :
    Lexer.commentExtent (p ++ d :: y) = Lexer.commentExtent (p ++ c :: x) := by
  induction p with
  | nil => rcases hc with rfl | rfl <;> simp [Lexer.commentExtent] at h
  | cons a p ih =>
    by_cases hClose : a = '*' ∧ p.head? = some '/'
    · obtain ⟨rfl, hSlash⟩ := hClose
      obtain ⟨rest, rfl⟩ := List.head?_eq_some_iff.mp hSlash
      rfl
    · have open_ : ∀ {e z}, OpensWord e → ∀ tail, a = '*' → p ++ e :: z = '/' :: tail → False := by
        intro e z he tail ha hTail
        cases p with
        | nil =>
          obtain ⟨rfl, _⟩ := List.cons.inj hTail
          rcases he with he | he <;> cases he
        | cons b p =>
          obtain ⟨rfl, _⟩ := List.cons.inj hTail
          exact hClose ⟨ha, rfl⟩
      rw [List.cons_append, Lexer.commentExtent.eq_3 _ _ (open_ hc)] at h
      rw [List.cons_append, List.cons_append, Lexer.commentExtent.eq_3 _ _ (open_ hc),
        Lexer.commentExtent.eq_3 _ _ (open_ hd), ih (Nat.le_of_succ_le_succ h)]

theorem exists_cons_of_append {z : List Char} (h : p ++ x = c :: z) (hp : 0 < p.length) :
    ∃ rest, p = c :: rest ∧ rest ++ x = z := by
  cases p with
  | nil => simp at hp
  | cons a p =>
    obtain ⟨rfl, hTail⟩ := List.cons.inj h
    exact ⟨p, rfl, hTail⟩

theorem closed_of_map {k n : Nat} {r : Nat × Bool} (h : r.map (· + k) id = (n, true)) :
    r = (n - k, true) ∧ k ≤ n := by
  obtain ⟨m, closed⟩ := r
  simp only [Prod.map_apply, id_eq, Prod.mk.injEq] at h ⊢
  obtain ⟨rfl, rfl⟩ := h
  exact ⟨⟨(Nat.add_sub_cancel m k).symm, rfl⟩, Nat.le_add_left k m⟩

/-- A literal that is closed in front of a text is closed there in front of any. -/
theorem quotedExtent_append {n : Nat} (h : quotedExtent (p ++ x) = (n, true)) (hn : n < p.length) :
    quotedExtent (p ++ y) = (n, true) := by
  generalize hz : p ++ x = z at h
  fun_induction quotedExtent z generalizing p n with
  | case1 | case3 | case4 | case5 => cases h
  | case2 tail =>
    cases h
    obtain ⟨rest, rfl, _⟩ := exists_cons_of_append hz hn
    rfl
  | case6 a cs ha ih =>
    obtain ⟨hInner, hLe⟩ := closed_of_map h
    obtain ⟨inner, rfl, hInnerRest⟩ := exists_cons_of_append hz (by omega)
    rw [List.length_cons] at hn
    obtain ⟨rest, rfl, hRest⟩ := exists_cons_of_append hInnerRest (by omega)
    rw [List.length_cons] at hn
    rw [List.cons_append, List.cons_append, quotedExtent.eq_6 _ _ ha, ih (by omega) hRest hInner]
    simp only [Prod.map_apply, id_eq, Prod.mk.injEq, and_true]
    omega
  | case7 a cs hQuote hLine hLast hBreak hEscape ih =>
    obtain ⟨hInner, hLe⟩ := closed_of_map h
    obtain ⟨rest, rfl, hRest⟩ := exists_cons_of_append hz (by omega)
    have hBackslash : a ≠ '\\' := by
      intro ha
      cases cs with
      | nil => exact hLast ha rfl
      | cons b cs => exact hEscape b cs ha rfl
    rw [List.length_cons] at hn
    rw [List.cons_append, quotedExtent.eq_7 _ _ hQuote hLine (fun ha => absurd ha hBackslash)
      (fun _ ha => absurd ha hBackslash) (fun _ _ ha => absurd ha hBackslash),
      ih (by omega) hRest hInner]
    simp only [Prod.map_apply, id_eq, Prod.mk.injEq, and_true]
    omega

/-- A doubled quote does not close a literal: what follows it may not start with a quote. -/
theorem verbatimExtent_append {n : Nat} (hy : y.head? ≠ some '"')
    (h : verbatimExtent (p ++ x) = (n, true)) (hn : n < p.length) :
    verbatimExtent (p ++ y) = (n, true) := by
  generalize hz : p ++ x = z at h
  fun_induction verbatimExtent z generalizing p n with
  | case1 => cases h
  | case2 cs ih =>
    obtain ⟨hInner, hLe⟩ := closed_of_map h
    obtain ⟨inner, rfl, hInnerRest⟩ := exists_cons_of_append hz (by omega)
    rw [List.length_cons] at hn
    obtain ⟨rest, rfl, hRest⟩ := exists_cons_of_append hInnerRest (by omega)
    rw [List.length_cons] at hn
    rw [List.cons_append, List.cons_append, verbatimExtent, ih (by omega) hRest hInner]
    simp only [Prod.map_apply, id_eq, Prod.mk.injEq, and_true]
    omega
  | case3 cs hQuote =>
    cases h
    obtain ⟨rest, rfl, rfl⟩ := exists_cons_of_append hz hn
    refine verbatimExtent.eq_3 _ fun tail hTail => ?_
    cases rest with
    | nil => exact hy (List.head?_eq_some_iff.mpr ⟨tail, hTail⟩)
    | cons a rest =>
      obtain ⟨rfl, _⟩ := List.cons.inj hTail
      exact hQuote _ rfl
  | case4 a cs _ hQuote ih =>
    obtain ⟨hInner, hLe⟩ := closed_of_map h
    obtain ⟨rest, rfl, hRest⟩ := exists_cons_of_append hz (by omega)
    rw [List.length_cons] at hn
    rw [List.cons_append, verbatimExtent.eq_4 _ _ (fun _ ha => absurd ha hQuote) hQuote,
      ih (by omega) hRest hInner]
    simp only [Prod.map_apply, id_eq, Prod.mk.injEq, and_true]
    omega

/-- Digits that end at a quote end there whatever follows it. -/
theorem takeWhile_take_append {q : Char → Bool} (hc : q c = false) (most : Nat) :
    ((p ++ c :: x).take most).takeWhile q = (p.take most).takeWhile q := by
  rw [List.take_append]
  cases most - p.length with
  | zero => rw [List.take_zero, List.append_nil]
  | succ k => rw [List.take_succ_cons, takeWhile_append_stop hc]

theorem closedHex?_append {least most n : Nat}
    (h : characterExtent?.closedHex? least most (p ++ x) = some n) (hn : n < p.length + 2) :
    characterExtent?.closedHex? least most (p ++ y) = some n := by
  unfold characterExtent?.closedHex? at h ⊢
  dsimp only at h ⊢
  generalize hSize : (((p ++ x).take most).takeWhile Literal.isHexDigit).length = size at h
  split at h
  next hClosed =>
    obtain ⟨hLeast, hQuote⟩ := hClosed
    cases h
    have hLt : size < p.length := by omega
    rw [List.getElem?_append_left hLt] at hQuote
    obtain ⟨_, hGet⟩ := List.getElem?_eq_some_iff.mp hQuote
    have hSplit : p = p.take size ++ '\'' :: p.drop (size + 1) := by
      rw [← hGet, ← List.drop_eq_getElem_cons, List.take_append_drop]
    have hRun : ∀ z, ((p ++ z).take most).takeWhile Literal.isHexDigit =
        ((p.take size).take most).takeWhile Literal.isHexDigit := by
      intro z
      have hAppend : p ++ z = p.take size ++ '\'' :: (p.drop (size + 1) ++ z) := by
        rw [← List.cons_append, ← List.append_assoc, ← hSplit]
      rw [hAppend]
      exact takeWhile_take_append (by decide) most
    rw [hRun] at hSize ⊢
    rw [hSize, List.getElem?_append_left hLt, if_pos ⟨hLeast, hQuote⟩]
  next => cases h

theorem characterExtent?_append {n : Nat} (h : characterExtent? (p ++ x) = some n)
    (hn : n < p.length) : characterExtent? (p ++ y) = some n := by
  have escaped : ∀ {least most cs}, characterExtent?.closedHex? least most cs = some n → 2 ≤ n := by
    intro least most cs hHex
    unfold characterExtent?.closedHex? at hHex
    dsimp only at hHex
    split at hHex
    · cases hHex
      exact Nat.le_add_left 2 _
    · cases hHex
  generalize hz : p ++ x = z at h
  fun_cases characterExtent? z with
  | case1 cs | case2 cs =>
    have hTwo := escaped h
    obtain ⟨inner, rfl, hInner⟩ := exists_cons_of_append hz (by omega)
    rw [List.length_cons] at hn
    obtain ⟨rest, rfl, rfl⟩ := exists_cons_of_append hInner (by omega)
    exact closedHex?_append h hn
  | case3 => cases h
  | case4 c tail hu hx hLine =>
    rw [characterExtent?.eq_3 _ _ hu hx, if_neg hLine] at h
    cases h
    obtain ⟨inner, rfl, hInner⟩ := exists_cons_of_append hz (by omega)
    rw [List.length_cons] at hn
    obtain ⟨rest, rfl, hRest⟩ := exists_cons_of_append hInner (by omega)
    rw [List.length_cons] at hn
    obtain ⟨rest', rfl, _⟩ := exists_cons_of_append hRest (by omega)
    rw [List.cons_append, List.cons_append, List.cons_append, characterExtent?.eq_3 _ _ hu hx,
      if_neg hLine]
  | case5 c tail hQuote hBad =>
    rw [characterExtent?.eq_4 _ _ hQuote, if_pos hBad] at h
    cases h
  | case6 c tail hQuote hGood =>
    rw [characterExtent?.eq_4 _ _ hQuote, if_neg hGood] at h
    cases h
    obtain ⟨inner, rfl, hInner⟩ := exists_cons_of_append hz (by omega)
    rw [List.length_cons] at hn
    obtain ⟨rest, rfl, _⟩ := exists_cons_of_append hInner (by omega)
    rw [List.cons_append, List.cons_append, characterExtent?.eq_4, if_neg hGood]
    exact fun _ hc => absurd (.inr (.inl hc)) hGood
  | case7 z hu hx hEscape hPlain =>
    rw [characterExtent?.eq_5 _ hu hx hEscape hPlain] at h
    cases h

/-! ## Cuts -/

namespace Lexer

def Munch.IsFault (m : Munch) : Prop := ∃ cause, m.piece = .fault cause

/-- A cut that is no fault and ends in front of a word is the same in front of another one. -/
def Local (f : List Char → Munch) : Prop :=
  ∀ p x y c d, OpensWord c → OpensWord d → (f (p ++ c :: x)).extra ≤ p.length →
    ¬(f (p ++ c :: x)).IsFault → f (p ++ d :: y) = f (p ++ c :: x)

/-- What ends at a word as at the end of the text sees no difference. -/
theorem Local.of_append {f : List Char → Munch}
    (h : ∀ {p c x}, OpensWord c → f (p ++ c :: x) = f p) : Local f := by
  intro p x y c d hc hd _ _
  rw [h hc, h hd]

theorem Local.ite {f g : List Char → Munch} {cond : Prop} [Decidable cond] (hf : Local f)
    (hg : Local g) : Local fun cs => if cond then f cs else g cs := by
  by_cases h : cond
  · simp only [if_pos h]
    exact hf
  · simp only [if_neg h]
    exact hg

theorem Local.ite_head {f g : List Char → Munch} {b : Bool} {m : Char} (hn : m ≠ 'n')
    (hs : m ≠ 's') (hf : Local f) (hg : Local g) :
    Local fun cs => if (b && cs.head? == some m) = true then f cs else g cs := by
  intro p x y c d hc hd h hFault
  have hHead : ∀ {e z}, OpensWord e → ((p ++ e :: z).head? == some m) = (p.head? == some m) := by
    rintro e z (rfl | rfl) <;> cases p <;> simp [Ne.symm hn, Ne.symm hs]
  simp only [hHead hc, hHead hd] at h hFault ⊢
  split at h
  next hCond =>
    rw [if_pos hCond] at hFault
    rw [if_pos hCond, if_pos hCond]
    exact hf p x y c d hc hd h hFault
  next hCond =>
    rw [if_neg hCond] at hFault
    rw [if_neg hCond, if_neg hCond]
    exact hg p x y c d hc hd h hFault

theorem take_append_of_lt {n : Nat} (h : n < p.length) : (p ++ x).take n = (p ++ y).take n := by
  rw [List.take_append_of_le_length (Nat.le_of_lt h), List.take_append_of_le_length (Nat.le_of_lt h)]

theorem blank_local : Local fun cs => ⟨(cs.takeWhile isBlank).length, .blank⟩ := by
  refine .of_append fun hc => ?_
  rename_i c _
  have hBlank : isBlank c = false := by
    rcases hc with rfl | rfl <;> rfl
  rw [takeWhile_append_stop hBlank]

theorem takeWhile_name_append (hc : OpensWord c)
    (h : ((p ++ c :: x).takeWhile isNamePart).length ≤ p.length) :
    (p ++ z).takeWhile isNamePart = (p ++ c :: x).takeWhile isNamePart := by
  refine takeWhile_append_of_le ?_ h
  rcases hc with rfl | rfl <;> rfl

theorem word_local (a : Char) : Local (word a) := by
  intro p x y c d hc hd h _
  unfold word at h ⊢
  simp only [takeWhile_name_append (z := d :: y) hc h]

theorem toLineEnd_local : Local toLineEnd := by
  intro p x y c d hc hd h _
  have hLine : (c != '\n') = true := by
    rcases hc with rfl | rfl <;> rfl
  unfold toLineEnd at h ⊢
  rw [takeWhile_append_of_le (z := d :: y) (q := (· != '\n')) hLine h]

theorem comment_local : Local fun cs => ⟨1 + commentExtent (cs.drop 1), .blank⟩ := by
  intro p x y c d hc hd h _
  dsimp only at h ⊢
  cases p with
  | nil => simp at h
  | cons b p =>
    simp only [List.cons_append, List.drop_one, List.tail_cons, List.length_cons] at h ⊢
    rw [commentExtent_append (x := x) hc hd (by omega)]

theorem quoted_append {opening : Nat} (h : (quoted opening (p ++ x)).extra ≤ opening + p.length)
    (hFault : ¬(quoted opening (p ++ x)).IsFault) :
    quoted opening (p ++ y) = quoted opening (p ++ x) := by
  unfold quoted at h hFault ⊢
  cases hExtent : quotedExtent (p ++ x) with
  | mk size closed =>
    rw [hExtent] at h hFault
    cases closed with
    | false => exact absurd ⟨_, rfl⟩ hFault
    | true =>
      change opening + size + 1 ≤ _ at h
      have hLt : size < p.length := by omega
      rw [quotedExtent_append hExtent hLt]
      simp only [if_true, take_append_of_lt (x := x) (y := y) hLt]

theorem verbatim_append (hy : y.head? ≠ some '"') (h : (verbatim (p ++ x)).extra ≤ p.length + 1)
    (hFault : ¬(verbatim (p ++ x)).IsFault) : verbatim (p ++ y) = verbatim (p ++ x) := by
  unfold verbatim at h hFault ⊢
  cases hExtent : verbatimExtent (p ++ x) with
  | mk size closed =>
    rw [hExtent] at h hFault
    cases closed with
    | false => exact absurd ⟨_, rfl⟩ hFault
    | true =>
      change size + 2 ≤ _ at h
      have hLt : size < p.length := by omega
      rw [verbatimExtent_append hy hExtent hLt]
      simp only [if_true, take_append_of_lt (x := x) (y := y) hLt]

theorem isFault_brokenCharacter (cs : List Char) : (brokenCharacter cs).IsFault := by
  unfold brokenCharacter
  split <;> exact ⟨_, rfl⟩

theorem character_local : Local character := by
  intro p x y c d hc hd h hFault
  unfold character at h hFault ⊢
  cases hExtent : characterExtent? (p ++ c :: x) with
  | none =>
    rw [hExtent] at hFault
    exact absurd (isFault_brokenCharacter _) hFault
  | some size =>
    rw [hExtent] at h hFault
    change size + 1 ≤ _ at h
    rw [characterExtent?_append hExtent h]
    simp only [take_append_of_lt (x := c :: x) (y := d :: y) h]

theorem marked_quote (a : Char) (cs : List Char) :
    marked a ('"' :: cs) = if a == '@' then verbatim cs else quoted 1 cs := rfl

theorem marked_name {a b : Char} (hb : b ≠ '"') (h : (a == '@' && isNameStart b) = true)
    (cs : List Char) :
    marked a (b :: cs) = ⟨1 + (cs.takeWhile isNamePart).length,
      .token (.ident (String.ofList (b :: cs.takeWhile isNamePart)))⟩ := by
  rw [Bool.and_eq_true] at h
  have hOther : (b == '$') = false := by
    rw [beq_eq_false_iff_ne]
    rintro rfl
    exact absurd h.2 (by decide)
  unfold marked
  simp [h.1, h.2, hOther]

/-- Behind anything but a quote a mark is followed by a name, or something is wrong. -/
theorem isFault_marked {a b : Char} (hb : b ≠ '"') (h : ¬(a == '@' && isNameStart b) = true)
    (cs : List Char) : (marked a (b :: cs)).IsFault := by
  unfold marked
  generalize (if (a == '@') = true then '$' else '@') = other
  dsimp only
  split
  next hCons => exact absurd (List.cons.inj hCons).1 hb
  next hCons =>
    cases hCons
    split
    · split <;> exact ⟨_, rfl⟩
    · exact ⟨_, rfl⟩
  next hCons => cases hCons

theorem name_of_marked {a b : Char} {cs : List Char} (hb : b ≠ '"')
    (hFault : ¬(marked a (b :: cs)).IsFault) : (a == '@' && isNameStart b) = true :=
  Classical.byContradiction fun hName => hFault (isFault_marked hb hName cs)

theorem marked_local (a : Char) : Local (marked a) := by
  intro p x y c d hc hd h hFault
  cases p with
  | nil =>
    have hQuote : c ≠ '"' := by
      rcases hc with rfl | rfl <;> decide
    rw [List.nil_append, marked_name hQuote (name_of_marked hQuote hFault)] at h
    simp at h
  | cons b p =>
    rw [List.cons_append] at h hFault
    rw [List.cons_append, List.cons_append]
    by_cases hQuote : b = '"'
    · subst hQuote
      rw [marked_quote] at h hFault
      rw [marked_quote, marked_quote]
      split at h
      next ha =>
        rw [if_pos ha] at hFault
        rw [if_pos ha, if_pos ha]
        have hFollow : (d :: y).head? ≠ some '"' := by
          rcases hd with rfl | rfl <;> simp
        exact verbatim_append hFollow h hFault
      next ha =>
        rw [if_neg ha] at hFault
        rw [if_neg ha, if_neg ha]
        rw [List.length_cons, Nat.add_comm] at h
        exact quoted_append h hFault
    · have hName := name_of_marked hQuote hFault
      rw [marked_name hQuote hName, List.length_cons] at h
      dsimp only at h
      rw [marked_name hQuote hName, marked_name hQuote hName,
        takeWhile_name_append (x := x) (z := d :: y) hc (by omega)]

theorem munch_local (a : Char) : Local (munch a) := by
  refine .ite blank_local (.ite (.of_append number_append) (.ite (word_local a)
    (.ite toLineEnd_local (.ite ?_ (.ite character_local (.ite (marked_local a)
    (.ite_head (by decide) (by decide) toLineEnd_local (.ite_head (by decide) (by decide)
    comment_local (.of_append punctuation_append)))))))))
  intro p x y c d hc hd h hFault
  exact quoted_append (by rwa [Nat.zero_add]) hFault

end Lexer

end Stackable
