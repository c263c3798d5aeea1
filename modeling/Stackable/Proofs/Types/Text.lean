import Stackable.Proofs.Token.Kinds
import Stackable.Proofs.Types.Acceptance
import Stackable.Proofs.Types.Commitment
import Stackable.Proofs.Types.Writing

/-!
# Reading the text of a type

The canonical text of a type that has been read is cut into tokens that spell the type again, unless a
name in it is a reserved word, which its text does not mark as a name, or two `?` stand side by side,
which are cut as one token.
-/

set_option autoImplicit false

namespace Stackable

/-- The lexer reads the word as a keyword or a truth value, unless an `@` stands in front of it. -/
def IsReserved (word : String) : Prop :=
  word = "true" ∨ word = "false" ∨ (Keyword.ofText? word).isSome = true

instance (word : String) : Decidable (IsReserved word) :=
  inferInstanceAs (Decidable (word = "true" ∨ word = "false" ∨ (Keyword.ofText? word).isSome = true))

theorem wordKind_of_not_isReserved {word : String} (h : ¬IsReserved word) :
    Lexer.wordKind word = .ident word := by
  simp only [IsReserved, not_or] at h
  obtain ⟨hTrue, hFalse, hKeyword⟩ := h
  rw [Lexer.wordKind, if_neg (by rwa [beq_iff_eq]), if_neg (by rwa [beq_iff_eq]),
    Option.not_isSome_iff_eq_none.mp hKeyword]

namespace TypeRef

mutual

/-- The type and all types in it. -/
def parts : TypeRef → List TypeRef
  | ⟨.predefined p, span⟩ => [⟨.predefined p, span⟩]
  | ⟨.named path args, span⟩ => ⟨.named path args, span⟩ :: partsOfArgs args
  | ⟨.array element ranks, span⟩ => ⟨.array element ranks, span⟩ :: element.parts
  | ⟨.pointer inner, span⟩ => ⟨.pointer inner, span⟩ :: inner.parts
  | ⟨.nullable inner, span⟩ => ⟨.nullable inner, span⟩ :: inner.parts

def partsOfArgs : List TypeRef → List TypeRef
  | [] => []
  | x :: xs => x.parts ++ partsOfArgs xs

end

/-- The parts of the name, if the type is one. -/
def path (x : TypeRef) : List String :=
  match x.kind with
  | .named path _ => path
  | _ => []

def isNullable (x : TypeRef) : Bool :=
  match x.kind with
  | .nullable _ => true
  | _ => false

/-- The type is a nullable one made nullable again. -/
def isTwiceNullable (x : TypeRef) : Bool :=
  match x.kind with
  | .nullable y => y.isNullable
  | _ => false

structure IsClean (x : TypeRef) : Prop where
  names : ∀ name ∈ x.path, ¬IsReserved name
  once : x.isTwiceNullable = false

instance (x : TypeRef) : Decidable x.IsClean :=
  decidable_of_iff ((∀ name ∈ x.path, ¬IsReserved name) ∧ x.isTwiceNullable = false)
    ⟨fun h => ⟨h.1, h.2⟩, fun h => ⟨h.names, h.once⟩⟩

end TypeRef

namespace Lexer

open TypeRef
open Phrase (Spelled)

variable {tail : List Char} {v w : List TokenKind}

def StartsWord (cs : List Char) : Prop := ∃ c more, cs = c :: more ∧ isNameStart c = true

/-- Behind a type: nothing, or a mark that goes on with it or ends it as an argument. -/
def EndsType (tail : List Char) : Prop := ∀ d ∈ tail.head?, d ∈ [',', '>', '[', '*', '?']

/-- A second `?` would be cut with the first one. -/
structure Follows (x : TypeRef) (tail : List Char) : Prop where
  ends : EndsType tail
  once : x.isNullable = true → tail.head? ≠ some '?'

theorem EndsType.stop (h : EndsType tail) : ∀ d ∈ tail.head?, isNamePart d = false := by
  intro d hd
  have hMem := h d hd
  simp only [List.mem_cons, List.not_mem_nil, or_false] at hMem
  rcases hMem with rfl | rfl | rfl | rfl | rfl <;> decide

theorem longest?_question (h : EndsType tail) (once : tail.head? ≠ some '?') :
    Punct.longest? ('?' :: tail) = some .question := by
  cases tail with
  | nil => rfl
  | cons d tail =>
    have hMem := h d rfl
    simp only [List.mem_cons, List.not_mem_nil, or_false] at hMem
    rcases hMem with rfl | rfl | rfl | rfl | rfl
    iterate 4 rfl
    exact absurd rfl once

theorem longest?_star (h : EndsType tail) : Punct.longest? ('*' :: tail) = some .star := by
  cases tail with
  | nil => rfl
  | cons d tail =>
    have hMem := h d rfl
    simp only [List.mem_cons, List.not_mem_nil, or_false] at hMem
    rcases hMem with rfl | rfl | rfl | rfl | rfl <;> rfl

theorem longest?_lt (h : StartsWord tail) : Punct.longest? ('<' :: tail) = some .lt := by
  obtain ⟨c, more, rfl, hc⟩ := h
  have hLt : '<' ≠ c := by
    rintro rfl
    cases hc
  have hEq : '=' ≠ c := by
    rintro rfl
    cases hc
  simp [Punct.longest?, Punct.all, Punct.chars, hLt, hEq]

theorem Writes.name {name : String} (hName : IsName name) (hReserved : ¬IsReserved name)
    (stop : ∀ d ∈ tail.head?, isNamePart d = false) (rest : Writes tail v) :
    Writes (name.toList ++ tail) (.ident name :: v) := by
  obtain ⟨c, more, rfl, start, part⟩ := hName
  have h := Writes.word start part stop rest
  rw [wordKind_of_not_isReserved hReserved] at h
  rwa [String.toList_ofList]

theorem startsWord_of_isName {name : String} (h : IsName name) (tail : List Char) :
    StartsWord (name.toList ++ tail) := by
  obtain ⟨c, more, rfl, start, _⟩ := h
  exact ⟨c, more ++ tail, by rw [String.toList_ofList]; rfl, start⟩

theorem predefined_text (p : PredefinedType) :
    IsName p.keyword.text ∧ wordKind p.keyword.text = .keyword p.keyword := by
  constructor
  · cases p <;> exact ⟨_, _, rfl, rfl, List.all_eq_true.mp rfl⟩
  · cases p <;> rfl

theorem toList_rankText (n : Nat) :
    (rankText n).toList = '[' :: (List.replicate (n - 1) ',' ++ [']']) := by
  have hCommas : ∀ m, ("".pushn ',' m).toList = List.replicate m ',' := by
    intro m
    induction m with
    | zero => rfl
    | succ m ih =>
      rw [List.replicate_succ', ← ih]
      exact String.toList_push ','
  rw [rankText, String.toList_append, String.toList_append, hCommas]
  rfl

theorem Writes.ranks (ranks : List Nat) (rest : Writes tail v) :
    Writes ((String.join (ranks.map rankText)).toList ++ tail) (ranks.flatMap rankMarks ++ v) := by
  have commas : ∀ m {tail v}, Writes tail v →
      Writes (List.replicate m ',' ++ tail) (List.replicate m (.punct .comma) ++ v) := by
    intro m tail v rest
    induction m with
    | zero => exact rest
    | succ m ih => exact .mark (p := .comma) (by decide) rfl ih
  rw [String.toList_join, List.flatMap_map]
  induction ranks with
  | nil => exact rest
  | cons n ranks ih =>
    rw [List.flatMap_cons, List.flatMap_cons, toList_rankText, rankMarks]
    simp only [List.cons_append, List.append_assoc, List.nil_append]
    exact .mark (p := .lBracket) (by decide) rfl
      (commas _ (.mark (p := .rBracket) (by decide) rfl ih))

def argListText (args : List TypeRef) : List Char :=
  if args.isEmpty then [] else '<' :: ((argsText args).toList ++ ['>'])

def dotted (names : List String) : List Char := names.flatMap ('.' :: ·.toList)

theorem toList_text_named (name : String) (names : List String) (args : List TypeRef) (span : Span) :
    (text ⟨.named (name :: names) args, span⟩).toList =
      name.toList ++ (dotted names ++ argListText args) := by
  have hPath : (String.intercalate "." (name :: names)).toList = name.toList ++ dotted names := by
    induction names generalizing name with
    | nil => simp [dotted]
    | cons next names ih =>
      rw [String.intercalate_cons_cons, String.toList_append, ih, String.toList_append, dotted, dotted,
        List.flatMap_cons, List.append_assoc]
      rfl
  rw [text, String.toList_append, hPath, argListText, List.append_assoc]
  split
  · rfl
  · rw [String.toList_append, String.toList_append]
    rfl

theorem argsText_cons (x : TypeRef) {xs : List TypeRef} (h : xs ≠ []) :
    argsText (x :: xs) = x.text ++ ", " ++ argsText xs := by
  cases xs with
  | nil => exact absurd rfl h
  | cons y ys =>
    rw [argsText]
    exact h

/-- Behind a part of a name no letter goes on with it. -/
theorem stop_of_ends (names : List String) (args : List TypeRef) (h : EndsType tail) :
    ∀ d ∈ (dotted names ++ (argListText args ++ tail)).head?, isNamePart d = false := by
  cases names with
  | nil =>
    rw [dotted, List.flatMap_nil, List.nil_append, argListText]
    split
    · exact h.stop
    · rintro d ⟨⟩
      decide
  | cons name names =>
    rintro d ⟨⟩
    decide

/-- The text of the phrase is cut into a spelling of it, if the types in it are clean. -/
def Writable : Phrase → Prop
  | .args xs => (∀ y ∈ partsOfArgs xs, y.IsClean) → StartsWord (argsText xs).toList ∧
      ∃ w, Spelled (.args xs) w ∧ ∀ {tail v}, Writes ('>' :: tail) v →
        Writes ((argsText xs).toList ++ '>' :: tail) (w ++ v)
  | .argList xs => (∀ y ∈ partsOfArgs xs, y.IsClean) →
      ∃ w, Spelled (.argList xs) w ∧ ∀ {tail v}, EndsType tail → Writes tail v →
        Writes (argListText xs ++ tail) (w ++ v)
  | .tail start path args => (∀ y ∈ partsOfArgs args, y.IsClean) →
      ∃ names w, path = start ++ names ∧ Spelled (.tail start path args) w ∧ ((∀ name ∈ names, ¬IsReserved name) →
        ∀ {tail v}, EndsType tail → Writes tail v →
          Writes (dotted names ++ (argListText args ++ tail)) (w ++ v))
  | .simple x => (∀ y ∈ x.parts, y.IsClean) → StartsWord x.text.toList ∧
      ∃ w, Spelled (.simple x) w ∧ ∀ {tail v}, EndsType tail → Writes tail v →
        Writes (x.text.toList ++ tail) (w ++ v)
  | .marks x y => x.parts ⊆ y.parts ∧ ((∀ z ∈ y.parts, z.IsClean) →
      ∃ w m, Spelled (.marks x y) w ∧ y.text.toList = x.text.toList ++ m ∧
        ∀ {tail v}, Follows y tail → Writes tail v →
          Follows x (m ++ tail) ∧ Writes (m ++ tail) (w ++ v))
  | .element x => (∀ y ∈ x.parts, y.IsClean) → StartsWord x.text.toList ∧
      ∃ w, Spelled (.element x) w ∧ ∀ {tail v}, Follows x tail → Writes tail v →
        Writes (x.text.toList ++ tail) (w ++ v)
  | .type x => (∀ y ∈ x.parts, y.IsClean) → StartsWord x.text.toList ∧
      ∃ w, Spelled (.type x) w ∧ ∀ {tail v}, Follows x tail → Writes tail v →
        Writes (x.text.toList ++ tail) (w ++ v)

variable {x y : TypeRef} {xs : List TypeRef} {start path : List String} {name : String}

theorem StartsWord.append {cs : List Char} (h : StartsWord cs) (tail : List Char) :
    StartsWord (cs ++ tail) := by
  obtain ⟨c, more, rfl, hc⟩ := h
  exact ⟨c, more ++ tail, rfl, hc⟩

theorem StartsWord.not_isBlank {cs : List Char} (h : StartsWord cs) :
    ∀ d ∈ cs.head?, isBlank d = false := by
  obtain ⟨c, more, rfl, hc⟩ := h
  rintro d ⟨⟩
  exact not_isBlank_of_isNameStart hc

theorem Follows.of_cons {c : Char} (h : c ∈ [',', '>', '[', '*']) : Follows x (c :: tail) := by
  constructor
  · rintro d ⟨⟩
    exact List.mem_append_left ['?'] h
  · rintro _ ⟨⟩
    revert h
    decide

theorem Writable.lastArg (hx : Writable (.type x)) : Writable (.args [x]) := by
  intro clean
  obtain ⟨hStart, w, hw, hWrites⟩ := hx fun y hy => clean y (by simpa [partsOfArgs] using hy)
  refine ⟨by rwa [argsText], w, .lastArg hw, ?_⟩
  intro tail v rest
  rw [argsText]
  exact hWrites (.of_cons (by decide)) rest

theorem Writable.moreArgs (hx : Writable (.type x)) (hxs : Writable (.args xs)) (some : xs ≠ []) :
    Writable (.args (x :: xs)) := by
  intro clean
  have split : ∀ y, y ∈ x.parts ∨ y ∈ partsOfArgs xs → y.IsClean := by
    intro y hy
    apply clean
    rwa [partsOfArgs, List.mem_append]
  obtain ⟨hStart, w, hw, hWrites⟩ := hx fun y hy => split y (.inl hy)
  obtain ⟨hNext, w', hw', hWrites'⟩ := hxs fun y hy => split y (.inr hy)
  rw [argsText_cons x some, String.toList_append, String.toList_append, List.append_assoc]
  refine ⟨hStart.append _, _, .moreArgs hw hw', ?_⟩
  intro tail v rest
  have hBlank := Writes.blank (hNext.append ('>' :: tail)).not_isBlank (hWrites' rest)
  have hComma := Writes.mark (p := .comma) (by decide) rfl hBlank
  have h := hWrites (.of_cons (by decide)) hComma
  simp only [List.append_assoc, List.cons_append] at h ⊢
  exact h

theorem Writable.noList : Writable (.argList []) := by
  intro _
  refine ⟨[], .noList, ?_⟩
  intro tail v _ rest
  exact rest

theorem Writable.list (hxs : Writable (.args xs)) (some : xs ≠ []) : Writable (.argList xs) := by
  intro clean
  obtain ⟨hStart, w, hw, hWrites⟩ := hxs clean
  refine ⟨_, .list hw, ?_⟩
  intro tail v ends rest
  have hClose := hWrites (Writes.close (fun h => by have := ends '=' h; revert this; decide) rest)
  have hOpen := Writes.mark (p := .lt) (by decide) (longest?_lt (hStart.append _)) hClose
  rw [argListText, if_neg (by rwa [List.isEmpty_iff])]
  simp only [List.append_assoc, List.cons_append, List.nil_append] at hOpen ⊢
  exact hOpen

theorem Writable.ends (h : Writable (.argList xs)) : Writable (.tail path path xs) := by
  intro clean
  obtain ⟨w, hw, hWrites⟩ := h clean
  refine ⟨[], w, (List.append_nil path).symm, .ends hw, ?_⟩
  intro _ tail v ends rest
  exact hWrites ends rest

theorem Writable.member (hName : IsName name) (h : Writable (.tail (start ++ [name]) path xs)) :
    Writable (.tail start path xs) := by
  intro clean
  obtain ⟨names, w, rfl, hw, hWrites⟩ := h clean
  refine ⟨name :: names, _, List.append_assoc _ _ _, .member .noList hw, ?_⟩
  intro free tail v ends rest
  have hRest := hWrites (fun n hn => free n (List.mem_cons_of_mem name hn)) ends rest
  have hWord := hRest.name hName (free name List.mem_cons_self) (stop_of_ends names xs ends)
  have hDot := Writes.mark (p := .dot) (by decide) rfl hWord
  rw [dotted, List.flatMap_cons]
  simp only [List.append_assoc, List.cons_append, List.nil_append] at hDot ⊢
  exact hDot

theorem Writable.predefined (p : PredefinedType) (span : Span) :
    Writable (.simple ⟨.predefined p, span⟩) := by
  intro _
  obtain ⟨⟨c, more, hText, start, part⟩, hKind⟩ := predefined_text p
  rw [text, hText, String.toList_ofList]
  refine ⟨⟨c, more, rfl, start⟩, _, .predefined p span, ?_⟩
  intro tail v ends rest
  have h := Writes.word start part ends.stop rest
  rwa [← hText, hKind] at h

theorem Writable.named (span : Span) (hName : IsName name) (h : Writable (.tail [name] path xs)) :
    Writable (.simple ⟨.named path xs, span⟩) := by
  intro clean
  rw [parts] at clean
  obtain ⟨names, w, rfl, hw, hWrites⟩ := h fun y hy => clean y (List.mem_cons_of_mem _ hy)
  have free := (clean _ List.mem_cons_self).names
  rw [List.singleton_append, toList_text_named]
  refine ⟨startsWord_of_isName hName _, _, .named span hw, ?_⟩
  intro tail v ends rest
  have hRest := hWrites (fun n hn => free n (List.mem_cons_of_mem name hn)) ends rest
  have hWord := hRest.name hName (free name List.mem_cons_self) (stop_of_ends names xs ends)
  simp only [List.append_assoc, List.cons_append] at hWord ⊢
  exact hWord

theorem Writable.unmarked (x : TypeRef) : Writable (.marks x x) := by
  refine ⟨fun _ h => h, fun _ => ⟨[], [], .unmarked x, (List.append_nil _).symm, ?_⟩⟩
  intro tail v follows rest
  exact ⟨follows, rest⟩

theorem Writable.nullable (span : Span) (h : Writable (.marks ⟨.nullable x, span⟩ y)) :
    Writable (.marks x y) := by
  obtain ⟨subset, h⟩ := h
  rw [parts] at subset
  refine ⟨fun z hz => subset (List.mem_cons_of_mem _ hz), fun clean => ?_⟩
  obtain ⟨w, m, hw, hText, hWrites⟩ := h clean
  have once : x.isNullable = false := (clean _ (subset List.mem_cons_self)).once
  refine ⟨_, '?' :: m, .nullable span hw, ?_, ?_⟩
  · rw [hText, text, String.toList_append, List.append_assoc]
    rfl
  · intro tail v follows rest
    obtain ⟨hFollows, hRest⟩ := hWrites follows rest
    constructor
    · constructor
      · rintro d ⟨⟩
        decide
      · intro hNullable
        rw [once] at hNullable
        cases hNullable
    · exact .mark (p := .question) (by decide)
        (longest?_question hFollows.ends (hFollows.once rfl)) hRest

theorem Writable.pointer (span : Span) (h : Writable (.marks ⟨.pointer x, span⟩ y)) :
    Writable (.marks x y) := by
  obtain ⟨subset, h⟩ := h
  rw [parts] at subset
  refine ⟨fun z hz => subset (List.mem_cons_of_mem _ hz), fun clean => ?_⟩
  obtain ⟨w, m, hw, hText, hWrites⟩ := h clean
  refine ⟨_, '*' :: m, .pointer span hw, ?_, ?_⟩
  · rw [hText, text, String.toList_append, List.append_assoc]
    rfl
  · intro tail v follows rest
    obtain ⟨hFollows, hRest⟩ := hWrites follows rest
    exact ⟨.of_cons (by decide), .mark (p := .star) (by decide) (longest?_star hFollows.ends) hRest⟩

theorem Writable.element (hx : Writable (.simple x)) (h : Writable (.marks x y)) :
    Writable (.element y) := by
  obtain ⟨subset, h⟩ := h
  intro clean
  obtain ⟨hStart, w, hw, hWrites⟩ := hx fun z hz => clean z (subset hz)
  obtain ⟨w', m, hw', hText, hWrites'⟩ := h clean
  rw [hText]
  refine ⟨hStart.append m, _, .element hw hw', ?_⟩
  intro tail v follows rest
  obtain ⟨hFollows, hRest⟩ := hWrites' follows rest
  rw [List.append_assoc, List.append_assoc]
  exact hWrites hFollows.ends hRest

theorem Writable.plain (h : Writable (.element x)) : Writable (.type x) := by
  intro clean
  obtain ⟨hStart, w, hw, hWrites⟩ := h clean
  exact ⟨hStart, w, .plain hw, hWrites⟩

variable {ranks : List Nat}

/-- An element type with its rank specifiers, whatever follows. -/
theorem Writable.ranked (h : Writable (.element x)) (some : ranks ≠ [])
    (clean : ∀ y ∈ x.parts, y.IsClean) :
    StartsWord x.text.toList ∧ ∃ w, Spelled (.element x) w ∧ ∀ {tail v}, Writes tail v →
      Writes (x.text.toList ++ ((String.join (ranks.map rankText)).toList ++ tail))
        (w ++ (ranks.flatMap rankMarks ++ v)) := by
  obtain ⟨hStart, w, hw, hWrites⟩ := h clean
  refine ⟨hStart, w, hw, ?_⟩
  intro tail v rest
  refine hWrites ?_ (rest.ranks ranks)
  obtain ⟨n, ranks, rfl⟩ := List.exists_cons_of_ne_nil some
  rw [List.map_cons, String.join_cons, String.toList_append, toList_rankText]
  exact .of_cons (by decide)

theorem Writable.array (span : Span) (h : Writable (.element x)) (some : ranks ≠ [])
    (positive : ∀ n ∈ ranks, 0 < n) : Writable (.type ⟨.array x ranks, span⟩) := by
  intro clean
  rw [parts] at clean
  obtain ⟨hStart, w, hw, hWrites⟩ := h.ranked some fun y hy => clean y (List.mem_cons_of_mem _ hy)
  rw [text, String.toList_append]
  refine ⟨hStart.append _, _, .array span hw some positive, ?_⟩
  intro tail v _ rest
  rw [List.append_assoc, List.append_assoc]
  exact hWrites rest

theorem Writable.nullableArray (inner span : Span) (h : Writable (.element x)) (some : ranks ≠ [])
    (positive : ∀ n ∈ ranks, 0 < n) :
    Writable (.type ⟨.nullable ⟨.array x ranks, inner⟩, span⟩) := by
  intro clean
  rw [parts, parts] at clean
  obtain ⟨hStart, w, hw, hWrites⟩ := h.ranked some fun y hy =>
    clean y (List.mem_cons_of_mem _ (List.mem_cons_of_mem _ hy))
  rw [text, text, String.toList_append, String.toList_append, List.append_assoc]
  refine ⟨hStart.append _, _, .nullableArray inner span hw some positive, ?_⟩
  intro tail v follows rest
  have hQuestion := Writes.mark (p := .question) (by decide)
    (longest?_question follows.ends (follows.once rfl)) rest
  have hAll := hWrites hQuestion
  simp only [List.append_assoc, List.cons_append, List.nil_append] at hAll ⊢
  exact hAll

theorem writable_of_spelled {φ : Phrase} (h : Spelled φ w)
    (names : ∀ name, .ident name ∈ w → IsName name) : Writable φ := by
  induction h with
  | lastArg _ ih => exact .lastArg (ih names)
  | @moreArgs x xs w v _ hxs ih ihRest =>
    refine .moreArgs (ih fun name h => names name ?_) (ihRest fun name h => names name ?_) ?_
    · exact List.mem_append_left _ h
    · exact List.mem_append_right _ (List.mem_cons_of_mem _ h)
    · cases hxs <;> exact List.cons_ne_nil _ _
  | noList => exact .noList
  | list hxs ih =>
    refine .list (ih fun name h => names name ?_) ?_
    · exact List.mem_cons_of_mem _ (List.mem_append_left _ h)
    · cases hxs <;> exact List.cons_ne_nil _ _
  | ends _ ih => exact .ends (ih names)
  | member _ _ _ ih =>
    refine .member (names _ ?_) (ih fun name h => names name ?_)
    · exact List.mem_append_right _ (List.mem_cons_of_mem _ List.mem_cons_self)
    · exact List.mem_append_right _ (List.mem_cons_of_mem _ (List.mem_cons_of_mem _ h))
  | predefined p span => exact .predefined p span
  | named span _ ih =>
    exact .named span (names _ List.mem_cons_self)
      (ih fun name h => names name (List.mem_cons_of_mem _ h))
  | qualified span _ ih =>
    refine .named span (names _ ?_) (ih fun name h => names name ?_)
    · exact List.mem_cons_of_mem _ (List.mem_cons_of_mem _ List.mem_cons_self)
    · exact List.mem_cons_of_mem _ (List.mem_cons_of_mem _ (List.mem_cons_of_mem _ h))
  | unmarked x => exact .unmarked x
  | nullable span _ ih => exact .nullable span (ih fun name h => names name (List.mem_cons_of_mem _ h))
  | pointer span _ ih => exact .pointer span (ih fun name h => names name (List.mem_cons_of_mem _ h))
  | element _ _ ih ihMarks =>
    exact .element (ih fun name h => names name (List.mem_append_left _ h))
      (ihMarks fun name h => names name (List.mem_append_right _ h))
  | plain _ ih => exact .plain (ih names)
  | array span _ some positive ih =>
    exact .array span (ih fun name h => names name (List.mem_append_left _ h)) some positive
  | nullableArray inner span _ some positive ih =>
    exact .nullableArray inner span
      (ih fun name h => names name (List.mem_append_left _ (List.mem_append_left _ h))) some positive

end Lexer

/-! ## Reading the text again -/

open Phrase (Spelled) in
theorem Lexer.cutsTo_of_spelled {x : TypeRef} {w : List TokenKind} (h : Spelled (.type x) w)
    (names : ∀ name, .ident name ∈ w → IsName name) (clean : ∀ y ∈ x.parts, y.IsClean) :
    ∃ v, Spelled (.type x) v ∧ CutsTo x.text.toList v := by
  obtain ⟨_, v, hv, hWrites⟩ := writable_of_spelled h names clean
  have hText := @hWrites [] [] ⟨by rintro d ⟨⟩, by rintro _ ⟨⟩⟩ .nil
  rw [List.append_nil, List.append_nil] at hText
  exact ⟨v, hv, hText.cutsTo⟩

/-- Every type that is read from the tokens of a text, and in which nothing runs together or is
reserved, is read again from its canonical text, which has no error, up to the end. -/
theorem type_of_text {source : List Char} {n : Nat} {s t : ParseState} {x : TypeRef}
    (hTokens : ∀ k ∈ s.rest, k ∈ (Lexer.tokenize source).tokens)
    (hType : Parse.type (Rules.depth n) s = .ok x t) (clean : ∀ y ∈ x.parts, y.IsClean) :
    (Lexer.tokenize x.text.toList).errors = [] ∧
      ∃ y u, Parse.withRules Parse.type (.ofTokens (Lexer.tokenize x.text.toList).tokens) = .ok y u ∧
        y.bare = x.bare ∧ u.rest.map (·.kind) = [.eof] ∧ u.pendingGt = false := by
  obtain ⟨_, w, hw, hNames, _⟩ := Parse.type_spells hType
  have names : ∀ name, .ident name ∈ w → IsName name := by
    intro name hName
    obtain ⟨k, hk, hKind⟩ := hNames name hName
    have hFormed := Lexer.wellFormed_of_mem_tokenize (hTokens k hk)
    rwa [hKind] at hFormed
  obtain ⟨v, hv, hCuts⟩ := Lexer.cutsTo_of_spelled hw names clean
  obtain ⟨hMarks, hErrors⟩ := hCuts 0 Lexer.maxErrors (by decide)
  refine ⟨hErrors, ?_⟩
  generalize hRead : (Lexer.run 0 Lexer.maxErrors x.text.toList).tokens = read at hMarks
  have hAll : ∃ last : Token,
      (Lexer.tokenize x.text.toList).tokens = read ++ [last] ∧ last.kind = .eof :=
    ⟨_, by rw [Lexer.tokenize, hRead], rfl⟩
  obtain ⟨last, hAll, hLast⟩ := hAll
  rw [hAll]
  have hAhead : (ParseState.ofTokens (read ++ [last])).ahead = v ++ [.eof] := by
    rw [ParseState.ahead_of_clear rfl]
    change Tokens.halves (read ++ [last]) = _
    rw [Tokens.halves_append, hMarks, Tokens.halves_cons, hLast]
    rfl
  have hNesting : Parse.nesting v ≤ (read ++ [last]).length + 1 := by
    have hLe := Tokens.nesting_halves_le read
    rw [hMarks] at hLe
    rw [List.length_append]
    omega
  obtain ⟨y, u, hRun, hu, huAhead, hBare⟩ :=
    Parse.type_consumes hv hNesting (stops_of_head (by decide)) _ hAhead
  have hLeft : u.ahead = Tokens.halves [last] := by
    rw [huAhead, Tokens.halves_cons, hLast]
    rfl
  obtain ⟨hRest, hClear⟩ := ParseState.rest_of_ahead hu (List.suffix_append read [last]) hLeft
    (by rw [Tokens.kind, hLast]; rfl) (by rw [Tokens.kind, hLast]; rfl)
  refine ⟨y, u, hRun, hBare, ?_, hClear⟩
  rw [hRest, List.map_singleton, hLast]

/-- The type in front of a text is clean, and written as given. -/
def startsCleanType (text written : String) : Bool :=
  match Parse.type (Rules.depth 20) (stateOf text) with
  | .ok x _ => decide (x.text = written ∧ ∀ y ∈ x.parts, y.IsClean)
  | .error _ _ => false

theorem exists_of_startsCleanType {text written : String} (h : startsCleanType text written = true) :
    ∃ x t, Parse.type (Rules.depth 20) (stateOf text) = .ok x t ∧ x.text = written ∧
      ∀ y ∈ x.parts, y.IsClean := by
  unfold startsCleanType at h
  split at h
  next x t hRun => exact ⟨x, t, hRun, of_decide_eq_true h⟩
  next => cases h

theorem type_of_text_nested : ∃ x t,
    Parse.type (Rules.depth 20) (stateOf "N::A<int ?,B<C*[ ][,]?,D<E> > >? x") = .ok x t ∧
    x.text = "A<int?, B<C*[][,]?, D<E>>>?" ∧
    (∀ y ∈ x.parts, y.IsClean) ∧ (Lexer.tokenize x.text.toList).errors = [] ∧
      ∃ y u, Parse.withRules Parse.type (.ofTokens (Lexer.tokenize x.text.toList).tokens) = .ok y u ∧
        y.bare = x.bare ∧ u.rest.map (·.kind) = [.eof] ∧ u.pendingGt = false := by
  have starts : startsCleanType "N::A<int ?,B<C*[ ][,]?,D<E> > >? x"
      "A<int?, B<C*[][,]?, D<E>>>?" = true := by decide +kernel
  obtain ⟨x, t, hRun, hText, clean⟩ := exists_of_startsCleanType starts
  exact ⟨x, t, hRun, hText, clean, type_of_text (fun _ h => h) hRun clean⟩

end Stackable
