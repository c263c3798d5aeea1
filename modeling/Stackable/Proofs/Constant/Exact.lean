import Mathlib.Data.Int.Bitwise
import Stackable.Constant.Fold

/-!
# Folding and integers of any size

What an operator gives on integers without a bound, and what folding makes of it. On words, every
arithmetic operator but the left shift gives the exact result or refuses it; a left shift gives
the exact result up to a multiple of `2 ^ 128`, and refuses nothing. The operators on bits never
leave the words.
-/

set_option autoImplicit false

namespace Stackable

def BinOp.isArithmetic : BinOp → Bool
  | .add | .sub | .mul | .div | .mod | .shl | .shr => true
  | _ => false

/-- The operator whose result decides if there is an overflow: a remainder is found along with
the quotient. -/
def BinOp.decisive : BinOp → BinOp
  | .mod => .div
  | op => op

namespace Fold

def IsWord (v : Int) : Prop := wordMin ≤ v ∧ v ≤ wordMax

instance (v : Int) : Decidable (IsWord v) := inferInstanceAs (Decidable (_ ∧ _))

/-- The integer that an operator gives on integers of any size. A negative integer has
infinitely many bits set. -/
def exactInt? (op : BinOp) (l r : Int) : Option Int :=
  match op with
  | .add => some (l + r)
  | .sub => some (l - r)
  | .mul => some (l * r)
  | .div => if r = 0 then none else some (l.tdiv r)
  | .mod => if r = 0 then none else some (l.tmod r)
  | .shl => some (l * 2 ^ (r % 64).toNat)
  | .shr => some (l.fdiv (2 ^ (r % 64).toNat))
  | .bitAnd => some (l.land r)
  | .bitOr => some (l.lor r)
  | .bitXor => some (l.xor r)
  | _ => none

/-- The exact result of an arithmetic operator where it fits in a word. -/
def checked (op : BinOp) (l r : Int) : Result :=
  match exactInt? op l r, exactInt? op.decisive l r with
  | some v, some w => if IsWord w then .ok (.int v) else .error .overflow
  | _, _ => .error .divideByZero

section Words

variable {l r v : Int}

theorem isWord_iff : IsWord v ↔ -2 ^ 127 ≤ v ∧ v < 2 ^ 127 := by
  simp only [IsWord, wordMin, wordMax]
  omega

theorem isWord_natCast_iff {n : Nat} : IsWord n ↔ n < 2 ^ 127 := by
  rw [isWord_iff]
  omega

theorem isWord_negSucc_iff {n : Nat} : IsWord (.negSucc n) ↔ n < 2 ^ 127 := by
  rw [isWord_iff]
  omega

theorem word_of_isWord (h : IsWord v) : word v = .ok (.int v) := if_pos h

theorem word_of_not_isWord (h : ¬IsWord v) : word v = .error .overflow := if_neg h

theorem isWord_toInt (x : BitVec 128) : IsWord x.toInt :=
  isWord_iff.mpr ⟨BitVec.le_toInt x, BitVec.toInt_lt⟩

theorem toInt_bits (h : IsWord v) : (bits v).toInt = v :=
  BitVec.toInt_ofInt_eq_self (by decide) (isWord_iff.mp h).1 (isWord_iff.mp h).2

theorem isWord_bmod (v : Int) : IsWord (v.bmod (2 ^ 128)) := by
  rw [← BitVec.toInt_ofInt]
  exact isWord_toInt _

theorem bmod_eq_iff : v.bmod (2 ^ 128) = v ↔ IsWord v := by
  constructor
  · intro h
    rw [← h]
    exact isWord_bmod v
  · intro h
    rw [← BitVec.toInt_ofInt]
    exact toInt_bits h

/-- Only one quotient of words is no word. -/
theorem isWord_tdiv_iff (hl : IsWord l) (hr : r ≠ 0) :
    IsWord (l.tdiv r) ↔ ¬(l = wordMin ∧ r = -1) := by
  have hAbs : (l.tdiv r).natAbs = l.natAbs / r.natAbs := Int.natAbs_tdiv l r
  constructor
  · rintro h ⟨rfl, rfl⟩
    exact absurd h (by decide)
  · intro h
    rw [isWord_iff] at hl ⊢
    by_cases hOne : r.natAbs = 1
    · obtain rfl | rfl : r = 1 ∨ r = -1 := by omega
      · rwa [Int.tdiv_one]
      · rw [Int.tdiv_neg, Int.tdiv_one, wordMin] at *
        omega
    · have hHalf : l.natAbs / r.natAbs ≤ l.natAbs / 2 := Nat.div_le_div_left (by omega) (by decide)
      omega

theorem isWord_tmod (hr : IsWord r) (h : r ≠ 0) : IsWord (l.tmod r) := by
  have hAbs : (l.tmod r).natAbs = l.natAbs % r.natAbs := Int.natAbs_tmod l r
  have hLt : l.natAbs % r.natAbs < r.natAbs := Nat.mod_lt _ (by omega)
  rw [isWord_iff] at hr ⊢
  omega

theorem isWord_fdiv (hl : IsWord l) (hr : 0 < r) : IsWord (l.fdiv r) := by
  rw [Int.fdiv_eq_ediv_of_nonneg _ (Int.le_of_lt hr)]
  have hAbs : (l / r).natAbs ≤ l.natAbs := Int.natAbs_ediv_le_natAbs l r
  have hNeg : l < 0 → l / r < 0 := fun h => Int.ediv_neg_of_neg_of_pos h hr
  rw [isWord_iff] at hl ⊢
  omega

end Words

section Bits

variable {l r v : Int} {k : Nat}

theorem getLsbD_bits : (bits v).getLsbD k = (decide (k < 128) && v.testBit k) := by
  cases v with
  | ofNat n =>
    rw [bits, Int.ofNat_eq_natCast, BitVec.ofInt_natCast, BitVec.getLsbD_ofNat]
    rfl
  | negSucc n =>
    rw [bits, BitVec.ofInt_negSucc_eq_not_ofNat, BitVec.getLsbD_not, BitVec.getLsbD_ofNat]
    cases decide (k < 128) with
    | false => rfl
    | true => rfl

theorem testBit_eq_false {n : Nat} (h : n < 2 ^ 127) (hk : 127 ≤ k) : n.testBit k = false :=
  Nat.testBit_lt_two_pow (h.trans_le (Nat.pow_le_pow_right (by decide) hk))

/-- From the 127th on, the bits of a word all say its sign. -/
theorem isWord_iff_testBit : IsWord v ↔ ∀ k ≥ 127, v.testBit k = v.testBit 127 := by
  constructor
  · intro h k hk
    cases v with
    | ofNat n =>
      have hn := isWord_natCast_iff.mp h
      exact (testBit_eq_false hn hk).trans (testBit_eq_false hn (Nat.le_refl _)).symm
    | negSucc n =>
      have hn := isWord_negSucc_iff.mp h
      simp only [Int.testBit, testBit_eq_false hn hk, testBit_eq_false hn (Nat.le_refl _)]
  · intro h
    -- The bits of a natural number end, so that the one that repeats is not set.
    have hEnd (n : Nat) (h : ∀ k ≥ 127, n.testBit k = n.testBit 127) : n < 2 ^ 127 := by
      have hFar : n.testBit (127 + n) = false :=
        Nat.testBit_lt_two_pow (Nat.lt_two_pow_self.trans_le
          (Nat.pow_le_pow_right (by decide) (Nat.le_add_left n 127)))
      rw [h _ (Nat.le_add_right 127 n)] at hFar
      exact Nat.lt_pow_two_of_testBit n fun k hk => (h k hk).trans hFar
    cases v with
    | ofNat n => exact isWord_natCast_iff.mpr (hEnd n h)
    | negSucc n =>
      apply isWord_negSucc_iff.mpr (hEnd n _)
      intro k hk
      exact Bool.not_inj (h k hk)

theorem isWord_bitwise (f : Bool → Bool → Bool) (hl : IsWord l) (hr : IsWord r) :
    IsWord (Int.bitwise f l r) := by
  rw [isWord_iff_testBit] at hl hr ⊢
  intro k hk
  simp only [Int.testBit_bitwise, hl k hk, hr k hk]

/-- An operator on the bits of words is the operator on the bits of the integers. -/
theorem toInt_eq_bitwise {f : Bool → Bool → Bool} {x : BitVec 128} (hl : IsWord l) (hr : IsWord r)
    (hx : ∀ k < 128, x.getLsbD k = f ((bits l).getLsbD k) ((bits r).getLsbD k)) :
    x.toInt = Int.bitwise f l r := by
  rw [← toInt_bits (isWord_bitwise f hl hr)]
  apply congrArg BitVec.toInt
  apply BitVec.eq_of_getLsbD_eq
  intro k hk
  simp only [hx k hk, getLsbD_bits, Int.testBit_bitwise, hk, decide_true, Bool.true_and]

theorem toInt_and (hl : IsWord l) (hr : IsWord r) : (bits l &&& bits r).toInt = l.land r := by
  rw [← Int.bitwise_and]
  exact toInt_eq_bitwise hl hr fun k _ => BitVec.getLsbD_and

theorem toInt_or (hl : IsWord l) (hr : IsWord r) : (bits l ||| bits r).toInt = l.lor r := by
  rw [← Int.bitwise_or]
  exact toInt_eq_bitwise hl hr fun k _ => BitVec.getLsbD_or

theorem toInt_xor (hl : IsWord l) (hr : IsWord r) : (bits l ^^^ bits r).toInt = l.xor r := by
  rw [← Int.bitwise_xor]
  apply toInt_eq_bitwise hl hr
  intro k _
  rw [BitVec.getLsbD_xor]

end Bits

section Operators

variable {op : BinOp} {l r v : Int}

theorem integers_shl (l r : Int) :
    integers .shl l r = .ok (.int ((l * 2 ^ (r % 64).toNat).bmod (2 ^ 128))) := by
  simp [integers, wrapped]

/-- The bits that a left shift drops are those above the word. -/
theorem shl_eq_iff : integers .shl l r = .ok (.int (l * 2 ^ (r % 64).toNat)) ↔
    IsWord (l * 2 ^ (r % 64).toNat) := by
  rw [integers_shl, ← bmod_eq_iff]
  simp

theorem exactInt?_eq_none_iff (hop : op.isArithmetic = true) :
    exactInt? op l r = none ↔ (op = .div ∨ op = .mod) ∧ r = 0 := by
  cases op with
  | div | mod => simp [exactInt?]
  | add | sub | mul | shl | shr => simp [exactInt?]
  | _ => cases hop

/-- Folding is the checked operator but for the left shift. -/
theorem integers_eq_checked (hop : op.isArithmetic = true) (hShl : op ≠ .shl) (hl : IsWord l) :
    integers op l r = checked op l r := by
  cases op with
  | add | sub | mul => rfl
  | div =>
    by_cases h : r = 0
    · simp only [integers, checked, BinOp.decisive, exactInt?, if_pos h]
    · simp only [integers, checked, BinOp.decisive, exactInt?, if_neg h]
      rfl
  | mod =>
    by_cases h : r = 0
    · simp only [integers, checked, BinOp.decisive, exactInt?, if_pos h]
    · simp only [integers, checked, BinOp.decisive, exactInt?, if_neg h]
      by_cases hMin : l = wordMin ∧ r = -1
      · rw [if_pos hMin, if_neg fun hWord => (isWord_tdiv_iff hl h).mp hWord hMin]
      · rw [if_neg hMin, if_pos ((isWord_tdiv_iff hl h).mpr hMin)]
  | shr =>
    have hPos : (0 : Int) < 2 ^ (r % 64).toNat := Int.pow_pos (by decide)
    simp [integers, checked, BinOp.decisive, exactInt?, isWord_fdiv hl hPos]
  | shl => exact absurd rfl hShl
  | _ => cases hop

/-- The quotient exists where the remainder does. -/
theorem exact_cases (op : BinOp) (l r : Int) :
    (exactInt? op l r = none ∧ exactInt? op.decisive l r = none) ∨
      ∃ v w, exactInt? op l r = some v ∧ exactInt? op.decisive l r = some w := by
  cases op with
  | div | mod =>
    by_cases h : r = 0
    · simp [exactInt?, BinOp.decisive, h]
    · simp [exactInt?, BinOp.decisive, h]
  | _ => simp [exactInt?, BinOp.decisive]

/-- There is no exact result, or it is one, and the one that decides is a word or not. -/
theorem checked_cases (op : BinOp) (l r : Int) :
    (exactInt? op l r = none ∧ exactInt? op.decisive l r = none ∧
      checked op l r = .error .divideByZero) ∨
    ∃ v w, exactInt? op l r = some v ∧ exactInt? op.decisive l r = some w ∧
      (IsWord w ∧ checked op l r = .ok (.int v) ∨ ¬IsWord w ∧ checked op l r = .error .overflow) := by
  unfold checked
  rcases exact_cases op l r with ⟨hv, hw⟩ | ⟨v, w, hv, hw⟩
  · rw [hv, hw]
    exact .inl ⟨rfl, rfl, rfl⟩
  · rw [hv, hw]
    refine .inr ⟨v, w, rfl, rfl, ?_⟩
    by_cases hWord : IsWord w
    · exact .inl ⟨hWord, if_pos hWord⟩
    · exact .inr ⟨hWord, if_neg hWord⟩

theorem checked_eq_ok_iff : checked op l r = .ok (.int v) ↔
    exactInt? op l r = some v ∧ ∃ w, exactInt? op.decisive l r = some w ∧ IsWord w := by
  rcases checked_cases op l r with ⟨hv, _, h⟩ | ⟨u, w, hv, hw, ⟨hWord, h⟩ | ⟨hWord, h⟩⟩
  · simp [h, hv]
  · simp [h, hv, hw, hWord]
  · simp [h, hw, hWord]

theorem checked_eq_overflow_iff : checked op l r = .error .overflow ↔
    ∃ w, exactInt? op.decisive l r = some w ∧ ¬IsWord w := by
  rcases checked_cases op l r with ⟨_, hw, h⟩ | ⟨u, w, _, hw, ⟨hWord, h⟩ | ⟨hWord, h⟩⟩
  · simp [h, hw]
  · simp [h, hw, hWord]
  · simp [h, hw, hWord]

theorem checked_eq_divideByZero_iff :
    checked op l r = .error .divideByZero ↔ exactInt? op l r = none := by
  rcases checked_cases op l r with ⟨hv, _, h⟩ | ⟨u, w, hv, _, ⟨_, h⟩ | ⟨_, h⟩⟩
  · simp [h, hv]
  · simp [h, hv]
  · simp [h, hv]

/-- Words lead to words. -/
theorem isWord_of_integers (hl : IsWord l) (hr : IsWord r)
    (h : integers op l r = .ok (.int v)) : IsWord v := by
  by_cases hShl : op = .shl
  · subst hShl
    rw [integers_shl] at h
    cases h
    exact isWord_bmod _
  by_cases hop : op.isArithmetic = true
  · rw [integers_eq_checked hop hShl hl, checked_eq_ok_iff] at h
    obtain ⟨hv, w, hw, hWord⟩ := h
    by_cases hMod : op = .mod
    · subst hMod
      obtain ⟨hZero, rfl⟩ : r ≠ 0 ∧ l.tmod r = v := by simpa [exactInt?] using hv
      exact isWord_tmod hr hZero
    · have hSelf : op.decisive = op := by
        cases op with
        | mod => exact absurd rfl hMod
        | _ => rfl
      rw [hSelf, hv] at hw
      cases hw
      exact hWord
  · cases op with
    | bitAnd | bitOr | bitXor =>
      cases h
      exact isWord_toInt _
    | add | sub | mul | div | mod | shl | shr => exact absurd rfl hop
    | _ => cases h

/-- But for a left shift that leaves the words, an integer that folding gives is exact. -/
theorem exactInt?_of_integers (hl : IsWord l) (hr : IsWord r)
    (hShl : op = .shl → IsWord (l * 2 ^ (r % 64).toNat))
    (h : integers op l r = .ok (.int v)) : exactInt? op l r = some v := by
  by_cases hop : op.isArithmetic = true
  · by_cases hEq : op = .shl
    · subst hEq
      rw [shl_eq_iff.mpr (hShl rfl)] at h
      cases h
      rfl
    · rw [integers_eq_checked hop hEq hl] at h
      exact (checked_eq_ok_iff.mp h).1
  · cases op with
    | bitAnd =>
      cases h
      rw [toInt_and hl hr, exactInt?]
    | bitOr =>
      cases h
      rw [toInt_or hl hr, exactInt?]
    | bitXor =>
      cases h
      rw [toInt_xor hl hr, exactInt?]
    | add | sub | mul | div | mod | shl | shr => exact absurd rfl hop
    | _ => cases h

end Operators

/-! ## Operators on values -/

/-- A unary operator, without a bound on integers. -/
def exactUnary (op : UnaryOp) (x : ConstValue) : Result :=
  match op, x.int? with
  | .neg, some v => .ok (.int (-v))
  | op, _ => unary op x

/-- A binary operator, without a bound on integers. -/
def exactBinary (op : BinOp) (x y : ConstValue) : Result :=
  match x.int?, y.int? with
  | some l, some r =>
    match exactInt? op l r with
    | some v => .ok (.int v)
    | none => integers op l r
  | _, _ => binary op x y

/-- An integer or a character is a word. -/
def IsWordValue (x : ConstValue) : Prop := ∀ v ∈ x.int?, IsWord v

/-- A left shift of the values drops no bit. -/
def ShiftFits (x y : ConstValue) : Prop :=
  ∀ l ∈ x.int?, ∀ r ∈ y.int?, IsWord (l * 2 ^ (r % 64).toNat)

section Values

variable {x y z : ConstValue} {l r : Int}

theorem isWordValue_int {v : Int} : IsWordValue (.int v) ↔ IsWord v := by
  simp [IsWordValue, ConstValue.int?]

theorem isWordValue_of_int?_eq_none (h : x.int? = none) : IsWordValue x := by
  simp [IsWordValue, h]

theorem isWordValue_char (c : Char) : IsWordValue (.char c) := by
  rintro _ ⟨⟩
  have hValid := c.valid
  rw [isWord_natCast_iff]
  rcases hValid with h | h
  · exact h.trans (by decide)
  · exact h.2.trans (by decide)

theorem binary_of_int? (hx : x.int? = some l) (hy : y.int? = some r) (op : BinOp) :
    binary op x y = integers op l r := by
  cases x with
  | int | char =>
    cases y with
    | int | char =>
      cases hx
      cases hy
      rfl
    | _ => cases hy
  | _ => cases hx

/-- The result of an operator on integers is an integer or says if something holds. -/
theorem isWordValue_of_integers {op : BinOp} (hl : IsWord l) (hr : IsWord r)
    (h : integers op l r = .ok z) : IsWordValue z := by
  cases z with
  | int v => exact isWordValue_int.mpr (isWord_of_integers hl hr h)
  | char c => exact isWordValue_char c
  | _ => exact isWordValue_of_int?_eq_none rfl

theorem int?_of_strings {op : BinOp} {a b : String} (h : strings op a b = .ok z) :
    z.int? = none := by
  cases op with
  | add | eq | ne => cases h; rfl
  | _ => cases h

theorem int?_of_bools {op : BinOp} {a b : Bool} (h : bools op a b = .ok z) : z.int? = none := by
  cases op with
  | and | bitAnd | or | bitOr | bitXor | eq | ne => cases h; rfl
  | _ => cases h

theorem int?_of_reals {op : BinOp} {a b : Float} (h : reals op a b = .ok z) : z.int? = none := by
  cases op with
  | add | sub | mul | div | mod | eq | ne | lt | gt | le | ge => cases h; rfl
  | _ => cases h

/-- Integers come from integers only. -/
theorem int?_of_binary {op : BinOp} (hInt : x.int? = none ∨ y.int? = none)
    (h : binary op x y = .ok z) : z.int? = none := by
  unfold binary at h
  split at h
  next => exact int?_of_strings h
  next => exact int?_of_bools h
  next =>
    unfold numbers at h
    split at h
    next hx hy => simp [hx, hy] at hInt
    next =>
      split at h
      next => exact int?_of_reals h
      next => cases h

theorem isWordValue_of_binary {op : BinOp} (hx : IsWordValue x) (hy : IsWordValue y)
    (h : binary op x y = .ok z) : IsWordValue z := by
  cases hl : x.int? with
  | none => exact isWordValue_of_int?_eq_none (int?_of_binary (.inl hl) h)
  | some l =>
    cases hr : y.int? with
    | none => exact isWordValue_of_int?_eq_none (int?_of_binary (.inr hr) h)
    | some r =>
      rw [binary_of_int? hl hr] at h
      exact isWordValue_of_integers (hx l hl) (hy r hr) h

theorem exists_int_of_word {v : Int} (h : word v = .ok z) : ∃ w, z = .int w := by
  unfold word at h
  split at h
  · exact ⟨v, (Except.ok.inj h).symm⟩
  · cases h

/-- An operator with an exact result gives integers only. -/
theorem exists_int_of_exactInt? {op : BinOp} {u : Int} (he : exactInt? op l r = some u)
    (h : integers op l r = .ok z) : ∃ v, z = .int v := by
  cases op with
  | add | sub | mul => exact exists_int_of_word h
  | div =>
    simp only [integers] at h
    split at h
    · cases h
    · exact exists_int_of_word h
  | mod =>
    simp only [integers] at h
    split at h
    · cases h
    · split at h
      · cases h
      · exact ⟨_, (Except.ok.inj h).symm⟩
  | shl | shr | bitAnd | bitOr | bitXor => exact ⟨_, (Except.ok.inj h).symm⟩
  | _ => cases he

/-- Where no left shift drops a bit, folding gives the exact value. -/
theorem exactBinary_of_binary {op : BinOp} (hx : IsWordValue x) (hy : IsWordValue y)
    (hShl : op = .shl → ShiftFits x y) (h : binary op x y = .ok z) :
    exactBinary op x y = .ok z := by
  cases hl : x.int? with
  | none => rwa [exactBinary, hl]
  | some l =>
    cases hr : y.int? with
    | none => rwa [exactBinary, hl, hr]
    | some r =>
      rw [binary_of_int? hl hr] at h
      simp only [exactBinary, hl, hr]
      cases he : exactInt? op l r with
      | none => exact h
      | some u =>
        obtain ⟨v, rfl⟩ := exists_int_of_exactInt? he h
        have hv := exactInt?_of_integers (hx l hl) (hy r hr) (fun hop => hShl hop l hl r hr) h
        rw [he] at hv
        cases hv
        rfl

theorem unary_cases {op : UnaryOp} (h : unary op x = .ok z) :
    (x.int? = none ∧ z.int? = none) ∨ ∃ v, x.int? = some v ∧
      (op = .plus ∧ z = .int v ∨ op = .neg ∧ IsWord (-v) ∧ z = .int (-v) ∨
        op = .bitNot ∧ z = .int (-v - 1)) := by
  unfold unary at h
  split at h
  iterate 3
    next =>
      cases h
      exact .inl ⟨rfl, rfl⟩
  next =>
    split at h
    next v hv =>
      cases h
      exact .inr ⟨v, hv, .inl ⟨rfl, rfl⟩⟩
    next => cases h
  next =>
    split at h
    next v hv =>
      by_cases hWord : IsWord (-v)
      · have h := (word_of_isWord hWord).symm.trans h
        cases h
        exact .inr ⟨v, hv, .inr (.inl ⟨rfl, hWord, rfl⟩)⟩
      · have h := (word_of_not_isWord hWord).symm.trans h
        cases h
    next => cases h
  next =>
    split at h
    next v hv =>
      cases h
      exact .inr ⟨v, hv, .inr (.inr ⟨rfl, rfl⟩)⟩
    next => cases h
  next => cases h

theorem isWordValue_of_unary {op : UnaryOp} (hx : IsWordValue x) (h : unary op x = .ok z) :
    IsWordValue z := by
  rcases unary_cases h with ⟨_, hz⟩ | ⟨v, hv, ⟨_, rfl⟩ | ⟨_, hWord, rfl⟩ | ⟨_, rfl⟩⟩
  · exact isWordValue_of_int?_eq_none hz
  · exact isWordValue_int.mpr (hx v hv)
  · exact isWordValue_int.mpr hWord
  · have hWord := isWord_iff.mp (hx v hv)
    exact isWordValue_int.mpr (isWord_iff.mpr (by omega))

theorem exactUnary_of_unary {op : UnaryOp} (h : unary op x = .ok z) : exactUnary op x = .ok z := by
  rcases unary_cases h with ⟨hx, _⟩ | ⟨v, hv, ⟨rfl, rfl⟩ | ⟨rfl, _, rfl⟩ | ⟨rfl, rfl⟩⟩
  · cases op <;> simpa only [exactUnary, hx] using h
  · exact h
  · simp only [exactUnary, hv]
  · exact h

theorem bounds_of_integralRange? {target : SpecialType} {least greatest : Int}
    (h : target.integralRange? = some (least, greatest)) :
    wordMin ≤ least ∧ greatest ≤ wordMax := by
  cases target with
  | byte | sbyte | int16 | uint16 | char | int32 | uint32 | int64 | intPtr | uint64 | uintPtr =>
    cases h
    decide
  | _ => cases h

theorem isWordValue_of_castIntegral {target : SpecialType} {least greatest v : Int}
    (hRange : target.integralRange? = some (least, greatest))
    (h : castIntegral target least greatest v = .ok z) : IsWordValue z := by
  have hBounds := bounds_of_integralRange? hRange
  unfold castIntegral at h
  split at h
  next => cases h
  next hIn =>
    split at h
    next =>
      split at h
      next =>
        cases h
        exact isWordValue_char _
      next => cases h
    next =>
      cases h
      exact isWordValue_int.mpr ⟨by omega, by omega⟩

theorem isWordValue_of_cast {target : SpecialType} (h : cast target x = .ok z) : IsWordValue z := by
  unfold cast at h
  split at h
  next least greatest hRange =>
    split at h
    next => exact isWordValue_of_castIntegral hRange h
    next => cases h
  next =>
    split at h
    iterate 4
      next =>
        split at h
        next =>
          cases h
          exact isWordValue_of_int?_eq_none rfl
        next => cases h
    iterate 4
      next =>
        cases h
        exact isWordValue_of_int?_eq_none rfl
    next => cases h

end Values

end Fold

end Stackable
