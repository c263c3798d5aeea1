import Mathlib.Data.List.Nodup
import Mathlib.Data.Nat.Find
import Stackable.Model.Evaluation
import Stackable.Proofs.Model.Binding

/-!
# What a constant expression is worth

`Evaluates` is the meaning of constant expressions by rules, without a record of the constants
under way. Evaluation gives exactly the values that a finite derivation gives. The constants under
way are distinct nodes of the tree, so that the bound on their number is never what ends an
evaluation; and no derivation comes back to a constant it starts from, so that none is refused.
-/

set_option autoImplicit false

namespace Stackable

/-- A simple name or a member access: what may refer to a constant. -/
def Expr.isReference (e : Expr) : Bool :=
  match e.kind with
  | .ident _ | .member _ _ _ => true
  | _ => false

namespace Model

open Fold (Result)

/-- The constant, local or field, that the expression is bound to. -/
def BindsConstant (m : Model) (e : Expr) (d : Declarator) : Prop :=
  m.bind e = .constLocal d ∨ m.bind e = .constField d

/-- The expression refers to the constant. -/
def RefersTo (m : Model) (e : Expr) (d : Declarator) : Prop :=
  e.isReference = true ∧ m.BindsConstant e d

/-- The expression has the value. -/
inductive Evaluates (m : Model) : Expr → ConstValue → Prop where
  | int {id : NodeId} {v : Nat} {suffix : Option IntSuffix} {span : Span} :
      Evaluates m ⟨id, .int v suffix, span⟩ (.int v)
  | real {id : NodeId} {v : Float} {suffix : Option RealSuffix} {span : Span} :
      Evaluates m ⟨id, .real v suffix, span⟩ (.real v)
  | bool {id : NodeId} {b : Bool} {span : Span} : Evaluates m ⟨id, .bool b, span⟩ (.bool b)
  | char {id : NodeId} {c : Char} {span : Span} : Evaluates m ⟨id, .char c, span⟩ (.char c)
  | string {id : NodeId} {s : String} {span : Span} : Evaluates m ⟨id, .string s, span⟩ (.string s)
  | null {id : NodeId} {span : Span} : Evaluates m ⟨id, .null, span⟩ .null
  | paren {id : NodeId} {inner : Expr} {span : Span} {v : ConstValue} (h : Evaluates m inner v) :
      Evaluates m ⟨id, .paren inner, span⟩ v
  | unary {id : NodeId} {op : UnaryOp} {operand : Expr} {span : Span} {x v : ConstValue}
      (h : Evaluates m operand x) (hv : Fold.unary op x = .ok v) :
      Evaluates m ⟨id, .unary op operand, span⟩ v
  | binary {id : NodeId} {op : BinOp} {left right : Expr} {span : Span} {x y v : ConstValue}
      (hl : Evaluates m left x) (hr : Evaluates m right y) (hv : Fold.binary op x y = .ok v) :
      Evaluates m ⟨id, .binary op left right, span⟩ v
  /-- Only the chosen branch counts. -/
  | conditional {id : NodeId} {cond whenTrue whenFalse : Expr} {span : Span} {b : Bool}
      {v : ConstValue} (hc : Evaluates m cond (.bool b))
      (h : Evaluates m (if b then whenTrue else whenFalse) v) :
      Evaluates m ⟨id, .conditional cond whenTrue whenFalse, span⟩ v
  | cast {id : NodeId} {type : TypeRef} {inner : Expr} {span : Span} {target : SpecialType}
      {x v : ConstValue} (h : Evaluates m inner x) (ht : m.resolveType type = .special target)
      (hv : Fold.cast target x = .ok v) : Evaluates m ⟨id, .cast type inner, span⟩ v
  | constant {e : Expr} {d : Declarator} {init : Initializer} {v : ConstValue}
      (hd : m.RefersTo e d) (hi : d.init = some init) (h : Evaluates m init.value v) :
      Evaluates m e v

/-- The value of the expression rests on that of the constant. -/
inductive RestsOn (m : Model) : Expr → Declarator → Prop where
  | refers {e : Expr} {d : Declarator} (hd : m.RefersTo e d) : RestsOn m e d
  | through {e : Expr} {d d' : Declarator} {init : Initializer} (hd : m.RefersTo e d')
      (hi : d'.init = some init) (h : RestsOn m init.value d) : RestsOn m e d
  | paren {id : NodeId} {inner : Expr} {span : Span} {d : Declarator} (h : RestsOn m inner d) :
      RestsOn m ⟨id, .paren inner, span⟩ d
  | unary {id : NodeId} {op : UnaryOp} {operand : Expr} {span : Span} {d : Declarator}
      (h : RestsOn m operand d) : RestsOn m ⟨id, .unary op operand, span⟩ d
  | left {id : NodeId} {op : BinOp} {left right : Expr} {span : Span} {d : Declarator}
      (h : RestsOn m left d) : RestsOn m ⟨id, .binary op left right, span⟩ d
  | right {id : NodeId} {op : BinOp} {left right : Expr} {span : Span} {d : Declarator}
      (h : RestsOn m right d) : RestsOn m ⟨id, .binary op left right, span⟩ d
  | condition {id : NodeId} {cond whenTrue whenFalse : Expr} {span : Span} {d : Declarator}
      (h : RestsOn m cond d) : RestsOn m ⟨id, .conditional cond whenTrue whenFalse, span⟩ d
  | branch {id : NodeId} {cond whenTrue whenFalse : Expr} {span : Span} {b : Bool} {d : Declarator}
      (hc : Evaluates m cond (.bool b)) (h : RestsOn m (if b then whenTrue else whenFalse) d) :
      RestsOn m ⟨id, .conditional cond whenTrue whenFalse, span⟩ d
  | cast {id : NodeId} {type : TypeRef} {inner : Expr} {span : Span} {d : Declarator}
      (h : RestsOn m inner d) : RestsOn m ⟨id, .cast type inner, span⟩ d

/-- An end that only names bring about: operators and casts know nothing of constants under way. -/
inductive Halt.OfName : Halt → Prop where
  | cycle (name : String) : OfName (.refused (.cycle name))
  | exhausted : OfName .exhausted

section Operators

variable {x y : ConstValue} {v : Int} {name : String}

theorem word_ne_cycle : Fold.word v ≠ .error (.cycle name) := by
  rw [Fold.word]
  split <;> simp

theorem unary_ne_cycle {op : UnaryOp} : Fold.unary op x ≠ .error (.cycle name) := by
  intro h
  cases op with
  | plus | bitNot | not => cases x <;> cases h
  | neg =>
    cases x with
    | int | char => exact word_ne_cycle h
    | _ => cases h
  | _ => cases h

theorem integers_ne_cycle {op : BinOp} {l r : Int} :
    Fold.integers op l r ≠ .error (.cycle name) := by
  intro h
  cases op with
  | add | sub | mul => exact word_ne_cycle h
  | div =>
    simp only [Fold.integers] at h
    split at h
    · cases h
    · exact word_ne_cycle h
  | mod =>
    simp only [Fold.integers] at h
    split at h
    · cases h
    · split at h <;> cases h
  | _ => cases h

theorem binary_ne_cycle {op : BinOp} : Fold.binary op x y ≠ .error (.cycle name) := by
  intro h
  unfold Fold.binary at h
  split at h
  · unfold Fold.strings at h
    split at h <;> cases h
  · unfold Fold.bools at h
    split at h <;> cases h
  · unfold Fold.numbers at h
    split at h
    · exact integers_ne_cycle h
    · split at h
      · unfold Fold.reals at h
        split at h <;> cases h
      · cases h

theorem cast_ne_cycle {target : SpecialType} : Fold.cast target x ≠ .error (.cycle name) := by
  intro h
  unfold Fold.cast at h
  split at h
  · split at h
    · unfold Fold.castIntegral at h
      split at h
      · cases h
      · split at h
        · split at h <;> cases h
        · cases h
    · cases h
  · split at h <;> try cases h
    all_goals split at h <;> cases h

end Operators

section Names

variable {m : Model} {f g : Expr → Except Halt ConstValue}

theorem mapError_refused_eq_ok {x : Result} {v : ConstValue}
    (h : x.mapError Halt.refused = .ok v) : x = .ok v := by
  cases x with
  | error cause => cases h
  | ok a => exact congrArg Except.ok (Except.ok.inj h)

theorem mapError_refused_injective :
    Function.Injective (Except.mapError Halt.refused : Result → Except Halt ConstValue) := by
  intro x y h
  cases x <;> cases y <;> cases h <;> rfl

theorem mapError_refused_eq_error {x : Result} {halt : Halt} (hHalt : halt.OfName)
    (h : x.mapError Halt.refused = .error halt) : ∃ name, x = .error (.cycle name) := by
  cases x with
  | error cause =>
    obtain rfl := Except.error.inj h
    cases hHalt with
    | cycle name => exact ⟨name, rfl⟩
  | ok a => cases h

theorem bool?_eq_some {v : ConstValue} {b : Bool} (h : v.bool? = some b) : v = .bool b := by
  cases v <;> simp_all [ConstValue.bool?]

theorem ok_bind_eq_ok {x : Except Halt ConstValue} {k : ConstValue → Except Halt ConstValue}
    {v : ConstValue} (h : (x >>= k) = .ok v) : ∃ a, x = .ok a ∧ k a = .ok v := by
  cases x with
  | error e => cases h
  | ok a => exact ⟨a, rfl, h⟩

theorem bind_eq_error {x : Except Halt ConstValue} {k : ConstValue → Except Halt ConstValue}
    {halt : Halt} (h : (x >>= k) = .error halt) :
    x = .error halt ∨ ∃ a, x = .ok a ∧ k a = .error halt := by
  cases x with
  | error e => exact .inl h
  | ok a => exact .inr ⟨a, rfl, h⟩

theorem evalWith_of_isReference {e : Expr} (h : e.isReference = true) : m.evalWith f e = f e := by
  obtain ⟨id, kind, span⟩ := e
  cases kind with
  | ident | member => rfl
  | _ => cases h

theorem evalWith_conditional {id : NodeId} {cond whenTrue whenFalse : Expr} {span : Span} {b : Bool}
    (hc : m.evalWith f cond = .ok (.bool b)) :
    m.evalWith f ⟨id, .conditional cond whenTrue whenFalse, span⟩ =
      m.evalWith f (if b then whenTrue else whenFalse) := by
  rw [evalWith, hc]
  cases b with
  | true => rfl
  | false => rfl

theorem evalWith_cast {id : NodeId} {type : TypeRef} {inner : Expr} {span : Span}
    {target : SpecialType} {x : ConstValue} (hx : m.evalWith f inner = .ok x)
    (ht : m.resolveType type = .special target) :
    m.evalWith f ⟨id, .cast type inner, span⟩ = (Fold.cast target x).mapError .refused := by
  rw [evalWith, hx]
  dsimp only [Bind.bind, Except.bind]
  rw [ht]

/-- Names with values that the rules give them lead to a value that the rules give. -/
theorem evaluates_of_evalWith
    (hf : ∀ e v, e.isReference = true → f e = .ok v → m.Evaluates e v) (e : Expr) (v : ConstValue)
    (h : m.evalWith f e = .ok v) : m.Evaluates e v := by
  fun_induction evalWith m f e generalizing v with
  | case1 => cases h; exact .int
  | case2 => cases h; exact .real
  | case3 => cases h; exact .bool
  | case4 => cases h; exact .char
  | case5 => cases h; exact .string
  | case6 => cases h; exact .null
  | case7 _ _ _ ih => exact .paren (ih v h)
  | case8 _ _ _ _ ih =>
    obtain ⟨x, hx, hv⟩ := ok_bind_eq_ok h
    exact .unary (ih x hx) (mapError_refused_eq_ok hv)
  | case9 _ _ _ _ _ ihl ihr =>
    obtain ⟨x, hx, h⟩ := ok_bind_eq_ok h
    obtain ⟨y, hy, hv⟩ := ok_bind_eq_ok h
    exact .binary (ihl x hx) (ihr y hy) (mapError_refused_eq_ok hv)
  | case10 _ cond whenTrue whenFalse _ ihc iht ihf =>
    obtain ⟨x, hx, h⟩ := ok_bind_eq_ok h
    split at h
    next hb =>
      rw [bool?_eq_some hb] at hx
      exact .conditional (ihc _ hx) (iht v h)
    next hb =>
      rw [bool?_eq_some hb] at hx
      exact .conditional (b := false) (ihc _ hx) (ihf v h)
    next => cases h
  | case11 _ type inner _ ih =>
    obtain ⟨x, hx, h⟩ := ok_bind_eq_ok h
    split at h
    next target ht => exact .cast (ih x hx) ht (mapError_refused_eq_ok h)
    next => cases h
  | case12 id name span => exact hf _ v rfl h
  | case13 id object name conditional span => exact hf _ v rfl h
  | case14 => cases h

/-- Where the evaluation ends as only names make it end, it does so at a name, and the expression
rests on all that this name rests on. -/
theorem exists_halt_of_evalWith
    (hf : ∀ e v, e.isReference = true → f e = .ok v → m.Evaluates e v) {halt : Halt}
    (hHalt : halt.OfName) (e : Expr) (h : m.evalWith f e = .error halt) :
    ∃ x, x.isReference = true ∧ f x = .error halt ∧ ∀ d, m.RestsOn x d → m.RestsOn e d := by
  have notConstant {P : Prop} (h : Halt.refused .notConstant = halt) : P := by
    subst h
    cases hHalt
  fun_induction evalWith m f e with
  | case1 | case2 | case3 | case4 | case5 | case6 => cases h
  | case7 _ _ _ ih =>
    obtain ⟨x, hRef, hx, hRests⟩ := ih h
    exact ⟨x, hRef, hx, fun d hd => .paren (hRests d hd)⟩
  | case8 _ _ _ _ ih =>
    rcases bind_eq_error h with h | ⟨_, _, h⟩
    · obtain ⟨x, hRef, hx, hRests⟩ := ih h
      exact ⟨x, hRef, hx, fun d hd => .unary (hRests d hd)⟩
    · obtain ⟨_, h⟩ := mapError_refused_eq_error hHalt h
      exact absurd h unary_ne_cycle
  | case9 _ _ _ _ _ ihl ihr =>
    rcases bind_eq_error h with h | ⟨_, _, h⟩
    · obtain ⟨x, hRef, hx, hRests⟩ := ihl h
      exact ⟨x, hRef, hx, fun d hd => .left (hRests d hd)⟩
    rcases bind_eq_error h with h | ⟨_, _, h⟩
    · obtain ⟨x, hRef, hx, hRests⟩ := ihr h
      exact ⟨x, hRef, hx, fun d hd => .right (hRests d hd)⟩
    · obtain ⟨_, h⟩ := mapError_refused_eq_error hHalt h
      exact absurd h binary_ne_cycle
  | case10 _ cond whenTrue whenFalse _ ihc iht ihf =>
    rcases bind_eq_error h with h | ⟨v, hv, h⟩
    · obtain ⟨x, hRef, hx, hRests⟩ := ihc h
      exact ⟨x, hRef, hx, fun d hd => .condition (hRests d hd)⟩
    have hCond := evaluates_of_evalWith hf cond v hv
    split at h
    next hb =>
      obtain ⟨x, hRef, hx, hRests⟩ := iht h
      obtain rfl := bool?_eq_some hb
      exact ⟨x, hRef, hx, fun d hd => .branch hCond (hRests d hd)⟩
    next hb =>
      obtain ⟨x, hRef, hx, hRests⟩ := ihf h
      obtain rfl := bool?_eq_some hb
      exact ⟨x, hRef, hx, fun d hd => .branch hCond (hRests d hd)⟩
    next => exact notConstant (Except.error.inj h)
  | case11 _ type inner _ ih =>
    rcases bind_eq_error h with h | ⟨_, _, h⟩
    · obtain ⟨x, hRef, hx, hRests⟩ := ih h
      exact ⟨x, hRef, hx, fun d hd => .cast (hRests d hd)⟩
    split at h
    next =>
      obtain ⟨_, h⟩ := mapError_refused_eq_error hHalt h
      exact absurd h cast_ne_cycle
    next => exact notConstant (Except.error.inj h)
  | case12 id name span => exact ⟨_, rfl, h, fun _ hd => hd⟩
  | case13 id object name conditional span => exact ⟨_, rfl, h, fun _ hd => hd⟩
  | case14 => exact notConstant (Except.error.inj h)

/-- Names that have values keep them if more names have values. -/
theorem evalWith_mono (hfg : ∀ e v, f e = .ok v → g e = .ok v) (e : Expr) (v : ConstValue)
    (h : m.evalWith f e = .ok v) : m.evalWith g e = .ok v := by
  fun_induction evalWith m f e generalizing v with
  | case1 | case2 | case3 | case4 | case5 | case6 => exact h
  | case7 _ _ _ ih => exact ih v h
  | case8 _ _ _ _ ih =>
    obtain ⟨x, hx, hv⟩ := ok_bind_eq_ok h
    rw [evalWith, ih x hx]
    exact hv
  | case9 _ _ _ _ _ ihl ihr =>
    obtain ⟨x, hx, h⟩ := ok_bind_eq_ok h
    obtain ⟨y, hy, hv⟩ := ok_bind_eq_ok h
    rw [evalWith, ihl x hx, ihr y hy]
    exact hv
  | case10 _ cond whenTrue whenFalse _ ihc iht ihf =>
    obtain ⟨x, hx, h⟩ := ok_bind_eq_ok h
    split at h
    next hb =>
      rw [bool?_eq_some hb] at hx
      rw [evalWith_conditional (ihc _ hx)]
      exact iht v h
    next hb =>
      rw [bool?_eq_some hb] at hx
      rw [evalWith_conditional (ihc _ hx)]
      exact ihf v h
    next => cases h
  | case11 _ type inner _ ih =>
    obtain ⟨x, hx, hv⟩ := ok_bind_eq_ok h
    rw [evalWith, ih x hx]
    exact hv
  | case12 => exact hfg _ v h
  | case13 => exact hfg _ v h
  | case14 => cases h

end Names

/-- The value of a name through a chain of at most `n` constants. -/
def valueWithin (m : Model) : Nat → Expr → Except Halt ConstValue
  | 0, _ => .error .exhausted
  | n + 1, e =>
    match m.bind e with
    | .constLocal d | .constField d =>
      match d.init with
      | some init => m.evalWith (m.valueWithin n) init.value
      | none => .error (.refused .notConstant)
    | _ => .error (.refused .notConstant)

section Within

variable {m : Model} {e : Expr} {d : Declarator} {init : Initializer} {v : ConstValue} {n : Nat}

theorem BindsConstant.valueWithin_succ (hd : m.BindsConstant e d) (hi : d.init = some init) :
    m.valueWithin (n + 1) e = m.evalWith (m.valueWithin n) init.value := by
  rw [valueWithin]
  rcases hd with h | h
  · simp only [h, hi]
  · simp only [h, hi]

theorem valueWithin_eq_ok (h : m.valueWithin n e = .ok v) :
    ∃ k d init, n = k + 1 ∧ m.BindsConstant e d ∧ d.init = some init ∧
      m.evalWith (m.valueWithin k) init.value = .ok v := by
  cases n with
  | zero => cases h
  | succ n =>
    rw [valueWithin] at h
    split at h
    next d hd =>
      split at h
      next init hi => exact ⟨n, d, init, rfl, .inl hd, hi, h⟩
      next => cases h
    next d hd =>
      split at h
      next init hi => exact ⟨n, d, init, rfl, .inr hd, hi, h⟩
      next => cases h
    next => cases h

theorem valueWithin_succ (n : Nat) (e : Expr) (v : ConstValue) (h : m.valueWithin n e = .ok v) :
    m.valueWithin (n + 1) e = .ok v := by
  induction n generalizing e v with
  | zero => cases h
  | succ n ih =>
    obtain ⟨k, d, init, hk, hd, hi, hv⟩ := valueWithin_eq_ok h
    obtain rfl : n = k := Nat.succ.inj hk
    rw [hd.valueWithin_succ hi]
    exact evalWith_mono ih _ _ hv

theorem valueWithin_mono {k : Nat} (hnk : n ≤ k) (h : m.valueWithin n e = .ok v) :
    m.valueWithin k e = .ok v := by
  induction hnk with
  | refl => exact h
  | step _ ih => exact valueWithin_succ _ _ _ ih

theorem evalWithin_mono {k : Nat} (hnk : n ≤ k) (h : m.evalWith (m.valueWithin n) e = .ok v) :
    m.evalWith (m.valueWithin k) e = .ok v :=
  evalWith_mono (fun _ _ => valueWithin_mono hnk) e v h

/-- Every derivation has some depth. -/
theorem Evaluates.exists_within (h : m.Evaluates e v) :
    ∃ n, m.evalWith (m.valueWithin n) e = .ok v := by
  induction h with
  | int | real | bool | char | string | null => exact ⟨0, rfl⟩
  | paren _ ih => exact ih
  | unary _ hv ih =>
    obtain ⟨n, hx⟩ := ih
    refine ⟨n, ?_⟩
    rw [evalWith, hx]
    exact congrArg (Except.mapError Halt.refused) hv
  | binary _ _ hv ihl ihr =>
    obtain ⟨n, hx⟩ := ihl
    obtain ⟨k, hy⟩ := ihr
    refine ⟨max n k, ?_⟩
    rw [evalWith, evalWithin_mono (Nat.le_max_left n k) hx,
      evalWithin_mono (Nat.le_max_right n k) hy]
    exact congrArg (Except.mapError Halt.refused) hv
  | @conditional _ _ _ _ _ b _ _ _ ihc ih =>
    obtain ⟨n, hc⟩ := ihc
    obtain ⟨k, hv⟩ := ih
    refine ⟨max n k, ?_⟩
    rw [evalWith_conditional (evalWithin_mono (Nat.le_max_left n k) hc)]
    exact evalWithin_mono (Nat.le_max_right n k) hv
  | cast _ ht hv ih =>
    obtain ⟨n, hx⟩ := ih
    refine ⟨n, ?_⟩
    rw [evalWith_cast hx ht, hv]
    rfl
  | @constant e d init v hd hi _ ih =>
    obtain ⟨n, hv⟩ := ih
    refine ⟨n + 1, ?_⟩
    rw [evalWith_of_isReference hd.1, hd.2.valueWithin_succ hi]
    exact hv

theorem Evaluates.unique {w : ConstValue} (hv : m.Evaluates e v) (hw : m.Evaluates e w) : v = w := by
  obtain ⟨n, hn⟩ := hv.exists_within
  obtain ⟨k, hk⟩ := hw.exists_within
  have hn := evalWithin_mono (Nat.le_max_left n k) hn
  rw [evalWithin_mono (Nat.le_max_right n k) hk] at hn
  exact (Except.ok.inj hn).symm

theorem evaluates_of_within (h : m.evalWith (m.valueWithin n) e = .ok v) : m.Evaluates e v := by
  induction n generalizing e v with
  | zero => exact evaluates_of_evalWith (fun _ _ _ h => by cases h) e v h
  | succ n ih =>
    apply evaluates_of_evalWith _ e v h
    intro e v hRef hv
    obtain ⟨k, d, init, hk, hd, hi, hv⟩ := valueWithin_eq_ok hv
    obtain rfl : n = k := Nat.succ.inj hk
    exact .constant ⟨hRef, hd⟩ hi (ih hv)

theorem BindsConstant.unique {d' : Declarator} (h : m.BindsConstant e d)
    (h' : m.BindsConstant e d') : d = d' := by
  rcases h with h | h
  · rcases h' with h' | h'
    · rw [h] at h'
      exact Binding.constLocal.inj h'
    · rw [h] at h'
      cases h'
  · rcases h' with h' | h'
    · rw [h] at h'
      cases h'
    · rw [h] at h'
      exact Binding.constField.inj h'

/-- What a value rests on has a value of smaller depth. -/
theorem RestsOn.exists_within (h : m.RestsOn e d) (hv : m.evalWith (m.valueWithin n) e = .ok v) :
    ∃ k init w, k < n ∧ d.init = some init ∧ m.evalWith (m.valueWithin k) init.value = .ok w := by
  induction h generalizing n v with
  | refers hd =>
    rw [evalWith_of_isReference hd.1] at hv
    obtain ⟨k, d', init, rfl, hd', hi, hv⟩ := valueWithin_eq_ok hv
    obtain rfl := hd.2.unique hd'
    exact ⟨k, init, v, Nat.lt_succ_self k, hi, hv⟩
  | @through e d d' init hd hi _ ih =>
    rw [evalWith_of_isReference hd.1] at hv
    obtain ⟨k, d'', init', rfl, hd', hi', hv⟩ := valueWithin_eq_ok hv
    obtain rfl := hd.2.unique hd'
    obtain rfl : init = init' := Option.some.inj (hi.symm.trans hi')
    obtain ⟨j, init', w, hj, h⟩ := ih hv
    exact ⟨j, init', w, Nat.lt_succ_of_lt hj, h⟩
  | paren _ ih => exact ih hv
  | unary _ ih =>
    obtain ⟨x, hx, _⟩ := ok_bind_eq_ok hv
    exact ih hx
  | left _ ih =>
    obtain ⟨x, hx, _⟩ := ok_bind_eq_ok hv
    exact ih hx
  | right _ ih =>
    obtain ⟨_, _, hv⟩ := ok_bind_eq_ok hv
    obtain ⟨y, hy, _⟩ := ok_bind_eq_ok hv
    exact ih hy
  | condition _ ih =>
    obtain ⟨x, hx, _⟩ := ok_bind_eq_ok hv
    exact ih hx
  | branch hc _ ih =>
    obtain ⟨x, hx, _⟩ := ok_bind_eq_ok hv
    obtain rfl := hc.unique (evaluates_of_within hx)
    rw [evalWith_conditional hx] at hv
    exact ih hv
  | cast _ ih =>
    obtain ⟨x, hx, _⟩ := ok_bind_eq_ok hv
    exact ih hx

/-- A constant whose value rests on itself has none. -/
theorem not_evaluates_of_restsOn (hi : d.init = some init) (h : m.RestsOn init.value d) :
    ¬m.Evaluates init.value v := by
  intro hv
  obtain ⟨n, hn⟩ := hv.exists_within
  induction n using Nat.strong_induction_on generalizing v with
  | _ n ih =>
    obtain ⟨k, init', w, hk, hi', hw⟩ := h.exists_within hn
    obtain rfl : init = init' := Option.some.inj (hi.symm.trans hi')
    exact ih k hk (evaluates_of_within hw) hw

end Within

/-! ## The constants under way -/

section Visiting

variable {m : Model} {e : Expr} {d : Declarator} {init : Initializer} {v : ConstValue}
  {depth : Nat} {visiting : List NodeId}

theorem evalName_of_mem (hd : m.BindsConstant e d) (h : d.id ∈ visiting) :
    m.evalName depth visiting e = .error (.refused (.cycle d.name)) := by
  rw [evalName]
  rcases hd with hd | hd
  · simp only [hd, List.contains_iff_mem.mpr h, if_true]
  · simp only [hd, List.contains_iff_mem.mpr h, if_true]

theorem evalName_of_init (hd : m.BindsConstant e d) (h : d.id ∉ visiting) (hi : d.init = some init) :
    m.evalName (depth + 1) visiting e =
      m.evalWith (m.evalName depth (d.id :: visiting)) init.value := by
  rw [evalName]
  rcases hd with hd | hd
  · simp [hd, hi, h]
  · simp [hd, hi, h]

theorem evalName_of_no_init (hd : m.BindsConstant e d) (h : d.id ∉ visiting) (hi : d.init = none) :
    m.evalName depth visiting e = .error (.refused .notConstant) := by
  rw [evalName.eq_def]
  rcases hd with hd | hd
  · simp [hd, hi, h]
  · simp [hd, hi, h]

theorem evalName_of_exhausted (hd : m.BindsConstant e d) (h : d.id ∉ visiting)
    (hi : d.init = some init) : m.evalName 0 visiting e = .error .exhausted := by
  rw [evalName]
  rcases hd with hd | hd
  · simp [hd, hi, h]
  · simp [hd, hi, h]

theorem evalName_of_unbound (h : ∀ d, ¬m.BindsConstant e d) :
    m.evalName depth visiting e = .error (.refused .notConstant) := by
  rw [evalName.eq_def]
  cases hb : m.bind e with
  | constLocal d => exact absurd (.inl hb) (h d)
  | constField d => exact absurd (.inr hb) (h d)
  | _ => simp only [hb]

/-- How the evaluation of a name ends other than with what its initial value gives. -/
theorem evalName_cases (m : Model) (depth : Nat) (visiting : List NodeId) (e : Expr) :
    m.evalName depth visiting e = .error (.refused .notConstant) ∨
    ∃ d, m.BindsConstant e d ∧
      (d.id ∈ visiting ∧ m.evalName depth visiting e = .error (.refused (.cycle d.name)) ∨
        d.id ∉ visiting ∧ ∃ init, d.init = some init ∧
          (depth = 0 ∧ m.evalName depth visiting e = .error .exhausted ∨
            ∃ k, depth = k + 1 ∧ m.evalName depth visiting e =
              m.evalWith (m.evalName k (d.id :: visiting)) init.value)) := by
  by_cases hb : ∃ d, m.BindsConstant e d
  · obtain ⟨d, hd⟩ := hb
    by_cases hMem : d.id ∈ visiting
    · exact .inr ⟨d, hd, .inl ⟨hMem, evalName_of_mem hd hMem⟩⟩
    cases hi : d.init with
    | none => exact .inl (evalName_of_no_init hd hMem hi)
    | some init =>
      cases depth with
      | zero =>
        exact .inr ⟨d, hd, .inr ⟨hMem, init, hi, .inl ⟨rfl, evalName_of_exhausted hd hMem hi⟩⟩⟩
      | succ k =>
        exact .inr ⟨d, hd, .inr ⟨hMem, init, hi, .inr ⟨k, rfl, evalName_of_init hd hMem hi⟩⟩⟩
  · exact .inl (evalName_of_unbound fun d hd => hb ⟨d, hd⟩)

theorem evalName_eq_ok (h : m.evalName depth visiting e = .ok v) :
    ∃ k d init, depth = k + 1 ∧ m.BindsConstant e d ∧ d.id ∉ visiting ∧ d.init = some init ∧
      m.evalWith (m.evalName k (d.id :: visiting)) init.value = .ok v := by
  rcases m.evalName_cases depth visiting e with hNone | ⟨d, hd, hCases⟩
  · rw [hNone] at h
    cases h
  rcases hCases with ⟨_, hCycle⟩ | ⟨hNew, init, hi, hCases⟩
  · rw [hCycle] at h
    cases h
  rcases hCases with ⟨_, hExhausted⟩ | ⟨k, rfl, hStep⟩
  · rw [hExhausted] at h
    cases h
  · rw [hStep] at h
    exact ⟨k, d, init, rfl, hd, hNew, hi, h⟩

/-- A value found with a record of the constants under way is one by the rules. -/
theorem evaluates_of_evalName (h : m.evalWith (m.evalName depth visiting) e = .ok v) :
    m.Evaluates e v := by
  induction depth generalizing visiting e v with
  | zero =>
    apply evaluates_of_evalWith _ e v h
    intro e v _ hv
    obtain ⟨_, _, _, hDepth, _⟩ := evalName_eq_ok hv
    cases hDepth
  | succ depth ih =>
    apply evaluates_of_evalWith _ e v h
    intro e v hRef hv
    obtain ⟨k, d, init, hk, hd, _, hi, hv⟩ := evalName_eq_ok hv
    obtain rfl : depth = k := Nat.succ.inj hk
    exact .constant ⟨hRef, hd⟩ hi (ih hv)

theorem evaluates_of_evalName_reference (hRef : e.isReference = true)
    (h : m.evalName depth visiting e = .ok v) : m.Evaluates e v :=
  evaluates_of_evalName ((evalWith_of_isReference hRef).trans h)

theorem exists_halt_of_run {halt : Halt} (hHalt : halt.OfName)
    (h : m.evalWith (m.evalName depth visiting) e = .error halt) :
    ∃ x, x.isReference = true ∧ m.evalName depth visiting x = .error halt ∧
      ∀ d, m.RestsOn x d → m.RestsOn e d :=
  exists_halt_of_evalWith (fun _ _ => evaluates_of_evalName_reference) hHalt e h

theorem evalWith_of_evaluate (h : m.evaluate e = .ok v) :
    m.evalWith (m.evalName m.tree.size []) e = .ok v := by
  unfold evaluate at h
  split at h
  next hRun =>
    obtain rfl := Except.ok.inj h
    exact hRun
  next => cases h
  next => cases h

end Visiting

/-! ## Constants of a source -/

section Source

variable {unit : CompilationUnit} {e : Expr} {d : Declarator} {v : ConstValue} {name : String}

theorem lineage_of_node? {id : NodeId} {x : Node} (h : (SyntaxTree.ofUnit unit).node? id = some x) :
    ∃ around, Lineage unit x around := by
  exact Lineage.mem_walk_iff.mp (SyntaxTree.of_node?_eq_some h).1

theorem lineage_of_mem_ancestors {id : NodeId} {x : Node}
    (h : x ∈ (SyntaxTree.ofUnit unit).ancestors id) : ∃ around, Lineage unit x around := by
  obtain ⟨_, hNode⟩ := Ancestors.exists_node?_of_mem_take _ h
  exact lineage_of_node? hNode

/-- The declarator of a field is below the field, which is a child of the type. -/
theorem exists_field_of_hasField {x : Node} {t : TypeDecl Member} {isConst : Bool}
    (ht : x.typeDecl? = some t) (h : HasField t.members isConst d) :
    ∃ member, member.function? = none ∧ .member member ∈ x.children ∧
      .declarator d ∈ (Node.member member).children := by
  obtain ⟨⟨id, kind, span⟩, hMember, fd, rfl, _, hd⟩ := h
  refine ⟨⟨id, .field fd, span⟩, rfl, ?_, List.mem_map_of_mem hd⟩
  unfold Node.typeDecl? at ht
  split at ht
  · cases ht
    exact List.mem_map_of_mem hMember
  · cases ht
    exact List.mem_map_of_mem hMember
  · cases ht

theorem declarator_mem_walk_of_hasField {x : Node} {t : TypeDecl Member} {isConst : Bool}
    (hx : ∃ around, Lineage unit x around) (ht : x.typeDecl? = some t)
    (h : HasField t.members isConst d) : .declarator d ∈ (SyntaxTree.ofUnit unit).walk := by
  obtain ⟨around, hx⟩ := hx
  obtain ⟨member, _, hMember, hd⟩ := exists_field_of_hasField ht h
  exact Lineage.mem_walk_iff.mpr ⟨_, (hx.child hMember).child hd⟩

theorem declarator_mem_walk_of_bindLocal? {x : Node} {f : Function} {use : NodeId}
    (hx : ∃ around, Lineage unit x around) (hf : x.function? = some f)
    (h : (Model.ofUnit unit).bindLocal? f use name = some (.constLocal d)) :
    .declarator d ∈ (SyntaxTree.ofUnit unit).walk := by
  obtain ⟨around, hx⟩ := hx
  cases x with
  | member member =>
    have hSome : member.function?.isSome := Option.isSome_iff_exists.mpr ⟨f, hf⟩
    have hOne := (bindLocal?_eq_constLocal h).1
    rw [member.member_of_function? hf] at hOne
    obtain ⟨_, hd⟩ := hx.of_mem_descendants (localDeclarations_eq_constant hSome hOne).1
    exact Lineage.mem_walk_iff.mpr ⟨_, hd⟩
  | _ => cases hf

/-- A constant field is a field of some type of the unit. -/
theorem exists_type_of_constField (h : (Model.ofUnit unit).bind e = .constField d) :
    ∃ x t around, Lineage unit x around ∧ x.typeDecl? = some t ∧ HasField t.members true d := by
  rcases bind_cases (.ofUnit unit) e with ⟨name, _, hBind⟩ | ⟨path, name, hBind⟩ | hBind
  · rw [hBind] at h
    obtain ⟨x, hx, t, ht, hField⟩ := bindSimple_eq_constField h
    obtain ⟨around, hx⟩ := lineage_of_mem_ancestors hx
    exact ⟨x, t, around, hx, ht, hField⟩
  · rw [hBind] at h
    obtain ⟨id, x, t, hx, ht, hField⟩ := bindQualified_eq h (by simp)
    obtain ⟨around, hx⟩ := lineage_of_node? hx
    exact ⟨x, t, around, hx, ht, (fieldBinding?_eq_constField hField).1⟩
  · rw [hBind] at h
    cases h

/-- A constant local is declared in a function around the name. -/
theorem exists_function_of_bind {m : Model} (h : m.bind e = .constLocal d) :
    ∃ name, e.unparenthesized.kind = .ident name ∧
      ∃ x ∈ m.tree.ancestors e.unparenthesized.id, ∃ f, x.function? = some f ∧
        m.bindLocal? f e.unparenthesized.id name = some (.constLocal d) := by
  rcases bind_cases m e with ⟨name, hKind, hBind⟩ | ⟨path, name, hBind⟩ | hBind
  · rw [hBind] at h
    exact ⟨name, hKind, bindSimple_eq_constLocal h⟩
  · rw [hBind] at h
    obtain ⟨_, _, _, _, _, hField⟩ := bindQualified_eq h (by simp)
    exact absurd hField fieldBinding?_ne_constLocal
  · rw [hBind] at h
    cases h

/-- The constants of a source are nodes of its tree. -/
theorem BindsConstant.mem_walk (h : (Model.ofUnit unit).BindsConstant e d) :
    .declarator d ∈ (SyntaxTree.ofUnit unit).walk := by
  rcases h with h | h
  · obtain ⟨name, _, x, hx, f, hf, hLocal⟩ := exists_function_of_bind h
    exact declarator_mem_walk_of_bindLocal? (lineage_of_mem_ancestors hx) hf hLocal
  · obtain ⟨x, t, around, hx, ht, hField⟩ := exists_type_of_constField h
    exact declarator_mem_walk_of_hasField ⟨around, hx⟩ ht hField

/-- Distinct nodes of the unit: what a record of constants under way consists of. -/
structure UnderWay (unit : CompilationUnit) (visiting : List NodeId) : Prop where
  nodup : visiting.Nodup
  known : visiting ⊆ (SyntaxTree.ofUnit unit).walk.map Node.id

theorem underWay_nil : UnderWay unit [] := ⟨.nil, List.nil_subset _⟩

namespace UnderWay

variable {visiting : List NodeId}

theorem length_le (h : UnderWay unit visiting) :
    visiting.length ≤ (SyntaxTree.ofUnit unit).size := by
  refine Table.length_le_size h.nodup fun id hid => ?_
  obtain ⟨n, hn, rfl⟩ := List.mem_map.mp (h.known hid)
  exact SyntaxTree.isSome_node? hn

theorem cons (h : UnderWay unit visiting) (hd : (Model.ofUnit unit).BindsConstant e d)
    (hNew : d.id ∉ visiting) : UnderWay unit (d.id :: visiting) := by
  constructor
  · exact h.nodup.cons hNew
  · intro id hid
    rcases List.mem_cons.mp hid with rfl | hid
    · exact List.mem_map_of_mem (f := Node.id) hd.mem_walk
    · exact h.known hid

/-- The constants under way leave room for one more. -/
theorem exists_succ (h : UnderWay unit visiting) (hd : (Model.ofUnit unit).BindsConstant e d)
    (hNew : d.id ∉ visiting) {depth : Nat}
    (hDepth : (SyntaxTree.ofUnit unit).size ≤ visiting.length + depth) :
    ∃ k, depth = k + 1 ∧ (SyntaxTree.ofUnit unit).size ≤ (d.id :: visiting).length + k := by
  have hLength := (h.cons hd hNew).length_le
  rw [List.length_cons] at hLength ⊢
  exact ⟨depth - 1, by omega, by omega⟩

/-- A bound that leaves room for every node is never met. -/
theorem evalName_eq (h : UnderWay unit visiting) {depth depth' : Nat}
    (hDepth : (SyntaxTree.ofUnit unit).size ≤ visiting.length + depth)
    (hDepth' : (SyntaxTree.ofUnit unit).size ≤ visiting.length + depth') :
    (Model.ofUnit unit).evalName depth visiting = (Model.ofUnit unit).evalName depth' visiting := by
  induction depth using Nat.strong_induction_on generalizing visiting depth' with
  | _ depth ih =>
    funext e
    by_cases hb : ∃ d, (Model.ofUnit unit).BindsConstant e d
    · obtain ⟨d, hd⟩ := hb
      by_cases hMem : d.id ∈ visiting
      · rw [evalName_of_mem hd hMem, evalName_of_mem hd hMem]
      cases hi : d.init with
      | none => rw [evalName_of_no_init hd hMem hi, evalName_of_no_init hd hMem hi]
      | some init =>
        obtain ⟨k, rfl, hk⟩ := h.exists_succ hd hMem hDepth
        obtain ⟨k', rfl, hk'⟩ := h.exists_succ hd hMem hDepth'
        rw [evalName_of_init hd hMem hi, evalName_of_init hd hMem hi,
          ih k (Nat.lt_succ_self k) (h.cons hd hMem) hk hk']
    · have hNone : ∀ d, ¬(Model.ofUnit unit).BindsConstant e d := fun d hd => hb ⟨d, hd⟩
      rw [evalName_of_unbound hNone, evalName_of_unbound hNone]

/-- Where there is room for every node, no evaluation runs out of it. -/
theorem evalName_ne_exhausted (h : UnderWay unit visiting) {depth : Nat}
    (hDepth : (SyntaxTree.ofUnit unit).size ≤ visiting.length + depth) (e : Expr) :
    (Model.ofUnit unit).evalName depth visiting e ≠ .error .exhausted := by
  induction depth generalizing visiting e with
  | zero =>
    rcases (Model.ofUnit unit).evalName_cases 0 visiting e with hNone | ⟨d, hd, hCases⟩
    · simp [hNone]
    rcases hCases with ⟨_, hCycle⟩ | ⟨hNew, _⟩
    · simp [hCycle]
    · obtain ⟨k, hk, _⟩ := h.exists_succ hd hNew hDepth
      cases hk
  | succ depth ih =>
    rcases (Model.ofUnit unit).evalName_cases (depth + 1) visiting e with hNone | ⟨d, hd, hCases⟩
    · simp [hNone]
    rcases hCases with ⟨_, hCycle⟩ | ⟨hNew, init, _, hCases⟩
    · simp [hCycle]
    rcases hCases with ⟨hZero, _⟩ | ⟨k, hk, hStep⟩
    · cases hZero
    obtain ⟨k', hk', hRoom⟩ := h.exists_succ hd hNew hDepth
    obtain rfl : k = depth := (Nat.succ.inj hk).symm
    obtain rfl : k = k' := Nat.succ.inj hk'
    intro hEnd
    rw [hStep] at hEnd
    obtain ⟨x, _, hx, _⟩ := exists_halt_of_run .exhausted hEnd
    exact ih (h.cons hd hNew) hRoom x hx

end UnderWay

theorem evalWith_evalName_ne_exhausted {depth : Nat}
    (h : (SyntaxTree.ofUnit unit).size ≤ depth) (e : Expr) :
    (Model.ofUnit unit).evalWith ((Model.ofUnit unit).evalName depth []) e ≠ .error .exhausted := by
  intro hEnd
  obtain ⟨x, _, hx, _⟩ := exists_halt_of_run .exhausted hEnd
  exact underWay_nil.evalName_ne_exhausted (by simpa using h) x hx

/-- No constant of the record has a value of a depth below `n`. -/
def Pending (unit : CompilationUnit) (visiting : List NodeId) (n : Nat) : Prop :=
  ∀ d init, .declarator d ∈ (SyntaxTree.ofUnit unit).walk → d.id ∈ visiting →
    d.init = some init → ∀ k < n, ∀ w,
      (Model.ofUnit unit).evalWith ((Model.ofUnit unit).valueWithin k) init.value ≠ .ok w

/-- Two declarators of one number are the same. -/
theorem declarator_unique (hu : unit.Numbered) {d d' : Declarator}
    (h : .declarator d ∈ (SyntaxTree.ofUnit unit).walk)
    (h' : .declarator d' ∈ (SyntaxTree.ofUnit unit).walk) (hid : d.id = d'.id) : d = d' := by
  obtain ⟨_, h⟩ := Lineage.mem_walk_iff.mp h
  obtain ⟨_, h'⟩ := Lineage.mem_walk_iff.mp h'
  exact Node.declarator.inj (h.unique hu h' hid).1

theorem Pending.cons {visiting : List NodeId} {init : Initializer} {n k : Nat}
    (hu : unit.Numbered) (h : Pending unit visiting n)
    (hd : .declarator d ∈ (SyntaxTree.ofUnit unit).walk) (hi : d.init = some init) (hk : k ≤ n)
    (hLeast : ∀ j < k, ∀ w,
      (Model.ofUnit unit).evalWith ((Model.ofUnit unit).valueWithin j) init.value ≠ .ok w) :
    Pending unit (d.id :: visiting) k := by
  intro d' init' hd' hMem hi' j hj
  rcases List.mem_cons.mp hMem with hid | hMem
  · obtain rfl := declarator_unique hu hd' hd hid
    obtain rfl : init' = init := Option.some.inj (hi'.symm.trans hi)
    exact hLeast j hj
  · exact h d' init' hd' hMem hi' j (Nat.lt_of_lt_of_le hj hk)

/-- A value has a least depth. -/
theorem exists_least_within {m : Model} {n : Nat} (h : m.evalWith (m.valueWithin n) e = .ok v) :
    ∃ k ≤ n, m.evalWith (m.valueWithin k) e = .ok v ∧
      ∀ j < k, ∀ w, m.evalWith (m.valueWithin j) e ≠ .ok w := by
  classical
  have hSome : ∃ k, ∃ w, m.evalWith (m.valueWithin k) e = .ok w := ⟨n, v, h⟩
  obtain ⟨w, hw⟩ := Nat.find_spec hSome
  have hLe : Nat.find hSome ≤ n := Nat.find_min' hSome ⟨v, h⟩
  have hEq := evalWithin_mono hLe hw
  rw [h] at hEq
  obtain rfl := Except.ok.inj hEq
  exact ⟨Nat.find hSome, hLe, hw, fun j hj w hw => Nat.find_min hSome hj ⟨w, hw⟩⟩

/-- A value is found, since on the way of least depth to it no constant is met twice. -/
theorem evalName_of_within (hu : unit.Numbered) {visiting : List NodeId} {n depth : Nat}
    (hPending : Pending unit visiting n) (hDepth : n ≤ depth)
    (h : (Model.ofUnit unit).evalWith ((Model.ofUnit unit).valueWithin n) e = .ok v) :
    (Model.ofUnit unit).evalWith ((Model.ofUnit unit).evalName depth visiting) e = .ok v := by
  induction n using Nat.strong_induction_on generalizing visiting depth e v with
  | _ n ih =>
    apply evalWith_mono _ e v h
    intro e v hv
    obtain ⟨k, d, init, rfl, hd, hi, hv⟩ := valueWithin_eq_ok hv
    obtain ⟨depth, rfl⟩ : ∃ depth', depth = depth' + 1 := ⟨depth - 1, by omega⟩
    have hNew : d.id ∉ visiting := fun hMem =>
      hPending d init hd.mem_walk hMem hi k (Nat.lt_succ_self k) v hv
    rw [evalName_of_init hd hNew hi]
    obtain ⟨j, hj, hv, hLeast⟩ := exists_least_within hv
    exact ih j (by omega) (hPending.cons hu hd.mem_walk hi (by omega) hLeast) (by omega) hv

/-- Every constant under way rests on all that the expression rests on. -/
def LeadsTo (unit : CompilationUnit) (visiting : List NodeId) (e : Expr) : Prop :=
  ∀ id ∈ visiting, ∃ d init, .declarator d ∈ (SyntaxTree.ofUnit unit).walk ∧ d.id = id ∧
    d.init = some init ∧
    ∀ x, (Model.ofUnit unit).RestsOn e x → (Model.ofUnit unit).RestsOn init.value x

theorem LeadsTo.cons {visiting : List NodeId} {init : Initializer} {x : Expr}
    (h : LeadsTo unit visiting e) (hd : (Model.ofUnit unit).RefersTo e d) (hi : d.init = some init)
    (hx : ∀ y, (Model.ofUnit unit).RestsOn x y → (Model.ofUnit unit).RestsOn init.value y) :
    LeadsTo unit (d.id :: visiting) x := by
  intro id hid
  rcases List.mem_cons.mp hid with rfl | hid
  · exact ⟨d, init, hd.2.mem_walk, rfl, hi, hx⟩
  · obtain ⟨d', init', hMem, rfl, hi', hRests⟩ := h id hid
    exact ⟨d', init', hMem, rfl, hi', fun y hy => hRests y (.through hd hi (hx y hy))⟩

/-- A name is refused for a cycle only if a constant that it rests on rests on itself. -/
theorem exists_cycle_of_evalName (hu : unit.Numbered) {visiting : List NodeId} {depth : Nat}
    (hWay : LeadsTo unit visiting e) (hRef : e.isReference = true)
    (h : (Model.ofUnit unit).evalName depth visiting e = .error (.refused (.cycle name))) :
    ∃ d init, d.name = name ∧ d.init = some init ∧ (Model.ofUnit unit).RestsOn e d ∧
      (Model.ofUnit unit).RestsOn init.value d := by
  induction depth using Nat.strong_induction_on generalizing visiting e with
  | _ depth ih =>
    rcases (Model.ofUnit unit).evalName_cases depth visiting e with hNone | ⟨d, hd, hCases⟩
    · rw [hNone] at h
      cases h
    rcases hCases with ⟨hMem, hCycle⟩ | ⟨_, init, hi, hCases⟩
    · rw [hCycle] at h
      cases h
      obtain ⟨d', init, hd', hid, hi, hRests⟩ := hWay _ hMem
      obtain rfl := declarator_unique hu hd' hd.mem_walk hid
      exact ⟨d', init, rfl, hi, .refers ⟨hRef, hd⟩, hRests _ (.refers ⟨hRef, hd⟩)⟩
    rcases hCases with ⟨_, hExhausted⟩ | ⟨k, rfl, hStep⟩
    · rw [hExhausted] at h
      cases h
    rw [hStep] at h
    obtain ⟨x, hRefX, hx, hRests⟩ := exists_halt_of_run (.cycle name) h
    obtain ⟨d', init', hName, hi', hOn, hSelf⟩ :=
      ih k (Nat.lt_succ_self k) (hWay.cons ⟨hRef, hd⟩ hi hRests) hRefX hx
    exact ⟨d', init', hName, hi', .through ⟨hRef, hd⟩ hi (hRests _ hOn), hSelf⟩

/-- A bound of at least the size of the tree makes no difference. -/
theorem evalWith_evalName_eq_evaluate {depth : Nat}
    (h : (SyntaxTree.ofUnit unit).size ≤ depth) (e : Expr) :
    (Model.ofUnit unit).evalWith ((Model.ofUnit unit).evalName depth []) e =
      ((Model.ofUnit unit).evaluate e).mapError .refused := by
  have hEq : (Model.ofUnit unit).evalName depth [] =
      (Model.ofUnit unit).evalName (SyntaxTree.ofUnit unit).size [] :=
    underWay_nil.evalName_eq (by simpa using h) (by simp)
  have hEnd := evalWith_evalName_ne_exhausted (Nat.le_refl (SyntaxTree.ofUnit unit).size) e
  rw [hEq, evaluate]
  split
  next hRun => exact hRun
  next hRun => exact hRun
  next hRun => exact absurd hRun hEnd

theorem evaluate_of_evaluates (hu : unit.Numbered) (h : (Model.ofUnit unit).Evaluates e v) :
    (Model.ofUnit unit).evaluate e = .ok v := by
  obtain ⟨n, hn⟩ := h.exists_within
  apply mapError_refused_eq_ok
  rw [← evalWith_evalName_eq_evaluate (Nat.le_max_right n (SyntaxTree.ofUnit unit).size)]
  apply evalName_of_within hu _ (Nat.le_max_left _ _) hn
  intro d init _ hMem
  cases hMem

/-- An expression is refused for a cycle only if a constant that it rests on rests on itself. -/
theorem exists_cycle_of_evaluate (hu : unit.Numbered)
    (h : (Model.ofUnit unit).evaluate e = .error (.cycle name)) :
    ∃ d init, d.name = name ∧ d.init = some init ∧ (Model.ofUnit unit).RestsOn e d ∧
      (Model.ofUnit unit).RestsOn init.value d := by
  have hRun := evalWith_evalName_eq_evaluate (Nat.le_refl (SyntaxTree.ofUnit unit).size) e
  rw [h] at hRun
  obtain ⟨x, hRef, hx, hRests⟩ := exists_halt_of_run (.cycle name) hRun
  have hNone : LeadsTo unit [] x := by
    intro _ hMem
    cases hMem
  obtain ⟨d, init, hName, hi, hOn, hSelf⟩ := exists_cycle_of_evalName hu hNone hRef hx
  exact ⟨d, init, hName, hi, hRests d hOn, hSelf⟩

end Source

/-- Evaluation finds exactly the values that the rules give. No evaluation meets the bound on the
constants under way: from the size of the tree on, it runs out for no expression, and every bound
gives the same answer. A constant whose value rests on itself has no value, and only for one that
an expression rests on is the expression refused for a cycle. -/
theorem evaluate_eq_ok_iff_evaluates (source : List Char) (e : Expr) :
    (∀ depth ≥ (Model.ofUnit (parseSource source).1).tree.size,
      (Model.ofUnit (parseSource source).1).evalWith
        ((Model.ofUnit (parseSource source).1).evalName depth []) e ≠ .error .exhausted ∧
      (Model.ofUnit (parseSource source).1).evalWith
        ((Model.ofUnit (parseSource source).1).evalName depth []) e =
      ((Model.ofUnit (parseSource source).1).evaluate e).mapError .refused) ∧
    (∀ v, (Model.ofUnit (parseSource source).1).evaluate e = .ok v ↔
      (Model.ofUnit (parseSource source).1).Evaluates e v) ∧
    (∀ d init, d.init = some init → (Model.ofUnit (parseSource source).1).RestsOn init.value d →
      ∀ v, (Model.ofUnit (parseSource source).1).evaluate init.value ≠ .ok v) ∧
    ∀ name, (Model.ofUnit (parseSource source).1).evaluate e = .error (.cycle name) →
      ∃ d init, d.name = name ∧ d.init = some init ∧
        (Model.ofUnit (parseSource source).1).RestsOn e d ∧
        (Model.ofUnit (parseSource source).1).RestsOn init.value d := by
  have hu := numbered_parseSource source
  refine ⟨fun depth h => ⟨?_, evalWith_evalName_eq_evaluate h e⟩, fun v => ⟨?_, ?_⟩, ?_, ?_⟩
  · exact evalWith_evalName_ne_exhausted h e
  · exact fun h => evaluates_of_evalName (evalWith_of_evaluate h)
  · exact evaluate_of_evaluates hu
  · intro d init hi hRests v hv
    exact not_evaluates_of_restsOn hi hRests (evaluates_of_evalName (evalWith_of_evaluate hv))
  · exact fun name => exists_cycle_of_evaluate hu

end Model

end Stackable
