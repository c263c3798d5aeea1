import Mathlib.Data.Int.ModEq
import Mathlib.Logic.Relation
import Stackable.Proofs.Constant.Exact
import Stackable.Proofs.Model.Evaluation
import Stackable.Proofs.Shape.Decl

/-!
# Constant expressions and integers of any size

`EvaluatesExactly` gives constant expressions the values that they have where no integer is ever
too large. Evaluation never gives another value, unless on its way it comes to a left shift that
drops bits.
-/

set_option autoImplicit false

namespace Stackable

/-- The value that the expression is written as. -/
def Expr.literal? (e : Expr) : Option ConstValue :=
  match e.kind with
  | .int v _ => some (.int v)
  | .real v _ => some (.real v)
  | .bool b => some (.bool b)
  | .char c => some (.char c)
  | .string s => some (.string s)
  | .null => some .null
  | _ => none

namespace Model

open Fold (IsWord IsWordValue ShiftFits exactUnary exactBinary)

/-- The expression has the value where integers have no bound. -/
inductive EvaluatesExactly (m : Model) : Expr → ConstValue → Prop where
  | literal {e : Expr} {v : ConstValue} (h : e.literal? = some v) : EvaluatesExactly m e v
  | paren {id : NodeId} {inner : Expr} {span : Span} {v : ConstValue}
      (h : EvaluatesExactly m inner v) : EvaluatesExactly m ⟨id, .paren inner, span⟩ v
  | unary {id : NodeId} {op : UnaryOp} {operand : Expr} {span : Span} {x v : ConstValue}
      (h : EvaluatesExactly m operand x) (hv : exactUnary op x = .ok v) :
      EvaluatesExactly m ⟨id, .unary op operand, span⟩ v
  | binary {id : NodeId} {op : BinOp} {left right : Expr} {span : Span} {x y v : ConstValue}
      (hl : EvaluatesExactly m left x) (hr : EvaluatesExactly m right y)
      (hv : exactBinary op x y = .ok v) : EvaluatesExactly m ⟨id, .binary op left right, span⟩ v
  | conditional {id : NodeId} {cond whenTrue whenFalse : Expr} {span : Span} {b : Bool}
      {v : ConstValue} (hc : EvaluatesExactly m cond (.bool b))
      (h : EvaluatesExactly m (if b then whenTrue else whenFalse) v) :
      EvaluatesExactly m ⟨id, .conditional cond whenTrue whenFalse, span⟩ v
  | cast {id : NodeId} {type : TypeRef} {inner : Expr} {span : Span} {target : SpecialType}
      {x v : ConstValue} (h : EvaluatesExactly m inner x)
      (ht : m.resolveType type = .special target) (hv : Fold.cast target x = .ok v) :
      EvaluatesExactly m ⟨id, .cast type inner, span⟩ v
  | constant {e : Expr} {d : Declarator} {init : Initializer} {v : ConstValue}
      (hd : m.RefersTo e d) (hi : d.init = some init) (h : EvaluatesExactly m init.value v) :
      EvaluatesExactly m e v

/-- The evaluation of the first expression goes on with the second. -/
inductive GoesOnWith (m : Model) : Expr → Expr → Prop where
  | paren {id : NodeId} {inner : Expr} {span : Span} : GoesOnWith m ⟨id, .paren inner, span⟩ inner
  | unary {id : NodeId} {op : UnaryOp} {operand : Expr} {span : Span} :
      GoesOnWith m ⟨id, .unary op operand, span⟩ operand
  | left {id : NodeId} {op : BinOp} {left right : Expr} {span : Span} :
      GoesOnWith m ⟨id, .binary op left right, span⟩ left
  | right {id : NodeId} {op : BinOp} {left right : Expr} {span : Span} :
      GoesOnWith m ⟨id, .binary op left right, span⟩ right
  | condition {id : NodeId} {cond whenTrue whenFalse : Expr} {span : Span} :
      GoesOnWith m ⟨id, .conditional cond whenTrue whenFalse, span⟩ cond
  | branch {id : NodeId} {cond whenTrue whenFalse : Expr} {span : Span} {b : Bool}
      (hc : Evaluates m cond (.bool b)) :
      GoesOnWith m ⟨id, .conditional cond whenTrue whenFalse, span⟩
        (if b then whenTrue else whenFalse)
  | cast {id : NodeId} {type : TypeRef} {inner : Expr} {span : Span} :
      GoesOnWith m ⟨id, .cast type inner, span⟩ inner
  | constant {e : Expr} {d : Declarator} {init : Initializer} (hd : m.RefersTo e d)
      (hi : d.init = some init) : GoesOnWith m e init.value

/-- The expression is a left shift of values, and drops bits of them. -/
inductive ShiftsOut (m : Model) : Expr → Prop where
  | intro {id : NodeId} {left right : Expr} {span : Span} {x y : ConstValue}
      (hl : Evaluates m left x) (hr : Evaluates m right y) (h : ¬ShiftFits x y) :
      ShiftsOut m ⟨id, .binary .shl left right, span⟩

/-- The evaluation of the expression comes to a left shift that drops bits. -/
def DropsBits (m : Model) (e : Expr) : Prop :=
  ∃ x, Relation.ReflTransGen m.GoesOnWith e x ∧ m.ShiftsOut x

theorem DropsBits.head {m : Model} {e x : Expr} (h : m.GoesOnWith e x) (hx : m.DropsBits x) :
    m.DropsBits e := by
  obtain ⟨y, hxy, hy⟩ := hx
  exact ⟨y, .head h hxy, hy⟩

section Unique

variable {m : Model} {e : Expr} {v w : ConstValue}

theorem isReference_of_literal? (h : e.literal? = some v) : e.isReference = false := by
  obtain ⟨id, kind, span⟩ := e
  cases kind with
  | ident | member => cases h
  | _ => rfl

/-- An expression has at most one exact value. -/
theorem EvaluatesExactly.unique (hv : m.EvaluatesExactly e v) (hw : m.EvaluatesExactly e w) :
    v = w := by
  induction hv generalizing w with
  | literal h =>
    cases hw with
    | literal h' => exact Option.some.inj (h.symm.trans h')
    | constant hd => exact absurd hd.1 (by simp [isReference_of_literal? h])
    | _ => cases h
  | paren _ ih =>
    cases hw with
    | literal h' => cases h'
    | paren h' => exact ih h'
    | constant hd => cases hd.1
  | unary _ hx ih =>
    cases hw with
    | literal h' => cases h'
    | unary h' hx' =>
      obtain rfl := ih h'
      exact Except.ok.inj (hx.symm.trans hx')
    | constant hd => cases hd.1
  | binary _ _ hx ihl ihr =>
    cases hw with
    | literal h' => cases h'
    | binary hl' hr' hx' =>
      obtain rfl := ihl hl'
      obtain rfl := ihr hr'
      exact Except.ok.inj (hx.symm.trans hx')
    | constant hd => cases hd.1
  | conditional _ _ ihc ih =>
    cases hw with
    | literal h' => cases h'
    | conditional hc' h' =>
      cases ihc hc'
      exact ih h'
    | constant hd => cases hd.1
  | cast _ ht hx ih =>
    cases hw with
    | literal h' => cases h'
    | cast h' ht' hx' =>
      obtain rfl := ih h'
      cases ht.symm.trans ht'
      exact Except.ok.inj (hx.symm.trans hx')
    | constant hd => cases hd.1
  | constant hd hi _ ih =>
    cases hw with
    | constant hd' hi' h' =>
      obtain rfl := hd.2.unique hd'.2
      cases hi.symm.trans hi'
      exact ih h'
    | literal h' => exact absurd hd.1 (by simp [isReference_of_literal? h'])
    | _ => cases hd.1

end Unique

section Source

variable {source : List Char} {e x : Expr} {v : ConstValue}

/-- What the evaluation of an expression of the source goes on with is one too. -/
theorem GoesOnWith.mem_walk {unit : CompilationUnit}
    (h : (Model.ofUnit unit).GoesOnWith e x) (he : .expr e ∈ (SyntaxTree.ofUnit unit).walk) :
    .expr x ∈ (SyntaxTree.ofUnit unit).walk := by
  have operand {x : Expr} (hx : x ∈ e.kind.operands) : .expr x ∈ (SyntaxTree.ofUnit unit).walk :=
    Lineage.child_mem_walk he (List.mem_map_of_mem hx)
  cases h with
  | constant hd hi =>
    apply Lineage.child_mem_walk hd.2.mem_walk
    simp [Node.children, hi]
  | @branch _ _ _ _ _ b _ =>
    cases b with
    | true => exact operand (by simp [ExprKind.operands])
    | false => exact operand (by simp [ExprKind.operands])
  | _ => exact operand (by simp [ExprKind.operands])

theorem isWord_literal (he : .expr e ∈ (SyntaxTree.ofUnit (parseSource source).1).walk)
    (h : e.literal? = some v) : IsWordValue v := by
  have hForm := (Expr.formed_iff.mp (formed_of_mem_walk he)).1
  obtain ⟨id, kind, span⟩ := e
  cases kind with
  | int n suffix =>
    cases h
    exact Fold.isWordValue_int.mpr (Fold.isWord_natCast_iff.mpr (Nat.lt_trans hForm (by decide)))
  | char c =>
    cases h
    exact Fold.isWordValue_char c
  | real | bool | string | null =>
    cases h
    exact Fold.isWordValue_of_int?_eq_none rfl
  | _ => cases h

/-- Every integer that an expression of the source has as its value is a word. -/
theorem Evaluates.isWordValue (h : (Model.ofUnit (parseSource source).1).Evaluates e v)
    (he : .expr e ∈ (SyntaxTree.ofUnit (parseSource source).1).walk) : IsWordValue v := by
  induction h with
  | int | real | bool | char | string | null => exact isWord_literal he rfl
  | paren _ ih => exact ih (GoesOnWith.paren.mem_walk he)
  | unary _ hv ih => exact Fold.isWordValue_of_unary (ih (GoesOnWith.unary.mem_walk he)) hv
  | binary _ _ hv ihl ihr =>
    exact Fold.isWordValue_of_binary (ihl (GoesOnWith.left.mem_walk he))
      (ihr (GoesOnWith.right.mem_walk he)) hv
  | conditional hc _ _ ih => exact ih ((GoesOnWith.branch hc).mem_walk he)
  | cast _ _ hv _ => exact Fold.isWordValue_of_cast hv
  | constant hd hi _ ih => exact ih ((GoesOnWith.constant hd hi).mem_walk he)

/-- Where no shift drops bits, the value is the exact one. -/
theorem Evaluates.exactly (h : (Model.ofUnit (parseSource source).1).Evaluates e v)
    (he : .expr e ∈ (SyntaxTree.ofUnit (parseSource source).1).walk)
    (hDrop : ¬(Model.ofUnit (parseSource source).1).DropsBits e) :
    (Model.ofUnit (parseSource source).1).EvaluatesExactly e v := by
  have keep {e x : Expr} (hx : (Model.ofUnit (parseSource source).1).GoesOnWith e x)
      (hDrop : ¬(Model.ofUnit (parseSource source).1).DropsBits e) :
      ¬(Model.ofUnit (parseSource source).1).DropsBits x := fun h => hDrop (h.head hx)
  induction h with
  | int | real | bool | char | string | null => exact .literal rfl
  | paren _ ih => exact .paren (ih (GoesOnWith.paren.mem_walk he) (keep .paren hDrop))
  | unary _ hv ih =>
    exact .unary (ih (GoesOnWith.unary.mem_walk he) (keep .unary hDrop))
      (Fold.exactUnary_of_unary hv)
  | @binary _ op _ _ _ x y _ hl hr hv ihl ihr =>
    have hx := hl.isWordValue (GoesOnWith.left.mem_walk he)
    have hy := hr.isWordValue (GoesOnWith.right.mem_walk he)
    refine .binary (ihl (GoesOnWith.left.mem_walk he) (keep .left hDrop))
      (ihr (GoesOnWith.right.mem_walk he) (keep .right hDrop))
      (Fold.exactBinary_of_binary hx hy ?_ hv)
    rintro rfl
    by_contra hOut
    exact hDrop ⟨_, .refl, .intro hl hr hOut⟩
  | conditional hc _ ihc ih =>
    exact .conditional (ihc (GoesOnWith.condition.mem_walk he) (keep .condition hDrop))
      (ih ((GoesOnWith.branch hc).mem_walk he) (keep (.branch hc) hDrop))
  | cast _ ht hv ih =>
    exact .cast (ih (GoesOnWith.cast.mem_walk he) (keep .cast hDrop)) ht hv
  | constant hd hi _ ih =>
    exact .constant hd hi (ih ((GoesOnWith.constant hd hi).mem_walk he)
      (keep (.constant hd hi) hDrop))

/-- The first shift that drops bits never has its exact value. -/
theorem ShiftsOut.exists_exact (h : (Model.ofUnit (parseSource source).1).ShiftsOut e)
    (he : .expr e ∈ (SyntaxTree.ofUnit (parseSource source).1).walk)
    (hFirst : ∀ x, (Model.ofUnit (parseSource source).1).GoesOnWith e x →
      ¬(Model.ofUnit (parseSource source).1).DropsBits x) :
    ∃ v w, (Model.ofUnit (parseSource source).1).Evaluates e v ∧
      (Model.ofUnit (parseSource source).1).EvaluatesExactly e w ∧ v ≠ w := by
  obtain ⟨hl, hr, hOut⟩ := h
  rename_i id left right span x y
  obtain ⟨l, hx, r, hy, hOut⟩ : ∃ l, x.int? = some l ∧ ∃ r, y.int? = some r ∧
      ¬IsWord (l * 2 ^ (r % 64).toNat) := by simpa [ShiftFits] using hOut
  have hValue := Fold.binary_of_int? hx hy .shl
  rw [Fold.integers_shl] at hValue
  refine ⟨_, .int (l * 2 ^ (r % 64).toNat), .binary hl hr hValue, ?_, ?_⟩
  · refine .binary (hl.exactly (GoesOnWith.left.mem_walk he) (hFirst _ .left))
      (hr.exactly (GoesOnWith.right.mem_walk he) (hFirst _ .right)) ?_
    simp only [exactBinary, hx, hy, Fold.exactInt?]
  · intro hEq
    exact hOut (Fold.bmod_eq_iff.mp (ConstValue.int.inj hEq))

end Source

/-- On words, an arithmetic operator other than a left shift gives its exact result, or says that
the divisor is zero, or that the result (of a remainder: the quotient) is no word. A left shift
gives the word that is congruent to the exact result, which is the exact result only if that is a
word. An evaluation that comes to no left shift that drops bits gives the exact value, and the
first shift that drops bits does not. -/
theorem evaluate_exact_unless_shift_drops (source : List Char) :
    (∀ op, op.isArithmetic = true → ∀ l r, IsWord l → IsWord r →
      (Fold.integers op l r = .error .divideByZero ↔ (op = .div ∨ op = .mod) ∧ r = 0) ∧
      (op ≠ .shl →
        (∀ v, Fold.integers op l r = .ok (.int v) ↔ Fold.exactInt? op l r = some v ∧
          ∃ w, Fold.exactInt? op.decisive l r = some w ∧ IsWord w) ∧
        (Fold.integers op l r = .error .overflow ↔
          ∃ w, Fold.exactInt? op.decisive l r = some w ∧ ¬IsWord w))) ∧
    (∀ l r, ∃ v, Fold.integers .shl l r = .ok (.int v) ∧ IsWord v ∧
      v ≡ l * 2 ^ (r % 64).toNat [ZMOD 2 ^ 128] ∧
      (v = l * 2 ^ (r % 64).toNat ↔ IsWord (l * 2 ^ (r % 64).toNat))) ∧
    ∀ e, .expr e ∈ (SyntaxTree.ofUnit (parseSource source).1).walk →
      (∀ v, (Model.ofUnit (parseSource source).1).evaluate e = .ok v →
        ¬(Model.ofUnit (parseSource source).1).DropsBits e →
        ∀ w, (Model.ofUnit (parseSource source).1).EvaluatesExactly e w ↔ w = v) ∧
      ((Model.ofUnit (parseSource source).1).ShiftsOut e →
        (∀ x, (Model.ofUnit (parseSource source).1).GoesOnWith e x →
          ¬(Model.ofUnit (parseSource source).1).DropsBits x) →
        ∃ v w, (Model.ofUnit (parseSource source).1).evaluate e = .ok v ∧
          (Model.ofUnit (parseSource source).1).EvaluatesExactly e w ∧ v ≠ w) := by
  refine ⟨fun op hop l r hl hr => ⟨?_, fun hShl => ?_⟩, fun l r => ?_, fun e he => ⟨?_, ?_⟩⟩
  · by_cases hShl : op = .shl
    · subst hShl
      simp [Fold.integers_shl]
    · rw [Fold.integers_eq_checked hop hShl hl, Fold.checked_eq_divideByZero_iff,
        Fold.exactInt?_eq_none_iff hop]
  · rw [Fold.integers_eq_checked hop hShl hl]
    exact ⟨fun v => Fold.checked_eq_ok_iff, Fold.checked_eq_overflow_iff⟩
  · exact ⟨_, Fold.integers_shl l r, Fold.isWord_bmod _, Int.bmod_emod, Fold.bmod_eq_iff⟩
  · intro v hv hDrop w
    have hExact := (evaluates_of_evalName (evalWith_of_evaluate hv)).exactly he hDrop
    constructor
    · exact fun hw => hw.unique hExact
    · rintro rfl
      exact hExact
  · intro hOut hFirst
    obtain ⟨v, w, hv, hw, hNe⟩ := hOut.exists_exact he hFirst
    exact ⟨v, w, evaluate_of_evaluates (numbered_parseSource source) hv, hw, hNe⟩

theorem overflow_of_doubled_word : Fold.IsWord Fold.wordMax ∧ Fold.IsWord 2 ∧
    Fold.integers .mul Fold.wordMax 2 = .error .overflow := by
  have hMax : Fold.IsWord Fold.wordMax := by decide
  have hTwo : Fold.IsWord 2 := by decide
  obtain ⟨_, hExact⟩ := (evaluate_exact_unless_shift_drops []).1 .mul rfl _ _ hMax hTwo
  obtain ⟨_, hOverflow⟩ := hExact (by decide)
  exact ⟨hMax, hTwo, hOverflow.mpr ⟨Fold.wordMax * 2, rfl, by decide⟩⟩

/-- The expression is `1 << 63 << 63 << 2`. -/
def isShiftedOut (e : Expr) : Bool :=
  match e with
  | ⟨_, .binary .shl ⟨_, .binary .shl ⟨_, .binary .shl ⟨_, .int 1 _, _⟩ ⟨_, .int 63 _, _⟩, _⟩
      ⟨_, .int 63 _, _⟩, _⟩ ⟨_, .int 2 _, _⟩, _⟩ => true
  | _ => false

/-- Twice the greatest word is no word, and shifting gives a negative one for it. In a source, the
constant `1 << 63 << 63 << 2` is zero. -/
theorem exists_shift_dropping_bits :
    (Fold.IsWord Fold.wordMax ∧ Fold.exactInt? .shl Fold.wordMax 1 = some (2 ^ 128 - 2) ∧
      ¬Fold.IsWord (2 ^ 128 - 2) ∧ Fold.integers .shl Fold.wordMax 1 = .ok (.int (-2))) ∧
    ∃ e, .expr e ∈ (SyntaxTree.ofUnit
        (parseSource "class C{const int N=1<<63<<63<<2;}".toList).1).walk ∧
      (Model.ofUnit (parseSource "class C{const int N=1<<63<<63<<2;}".toList).1).evaluate e =
        .ok (.int 0) ∧
      (Model.ofUnit (parseSource "class C{const int N=1<<63<<63<<2;}".toList).1).EvaluatesExactly e
        (.int (2 ^ 128)) := by
  constructor
  · have hWord : (Fold.wordMax * 2 ^ (1 % 64 : Int).toNat).bmod (2 ^ 128) = -2 := by decide
    exact ⟨by decide, by decide, by decide, by rw [Fold.integers_shl, hWord]⟩
  · have hAny : (SyntaxTree.ofUnit
        (parseSource "class C{const int N=1<<63<<63<<2;}".toList).1).walk.any
        (fun n => n.expr?.any isShiftedOut) = true := by decide +kernel
    obtain ⟨n, hn, hShape⟩ := List.any_eq_true.mp hAny
    cases n with
    | expr e =>
      change isShiftedOut e = true at hShape
      refine ⟨e, hn, ?_⟩
      unfold isShiftedOut at hShape
      split at hShape
      · constructor
        · rfl
        · exact .binary (.binary (.binary (.literal rfl) (.literal rfl) rfl) (.literal rfl) rfl)
            (.literal rfl) rfl
      · cases hShape
    | _ => cases hShape

end Model

end Stackable
