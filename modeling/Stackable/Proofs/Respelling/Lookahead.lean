import Stackable.Parser.Decl
import Stackable.Proofs.Respelling.Tree

/-!
# Looking ahead over a respelled word

Most questions about the tokens that come next are answered alike for `new` and for `stackalloc`.
Two are not: whether a token starts an operand, which decides about casts and about `await`, and
whether it is a modifier.
-/

set_option autoImplicit false

namespace Stackable

namespace Respelling

variable (v : Respelling)

theorem kind_cases (t : Token) :
    (v.token t).kind = t.kind ∨
    t.span.start = v.word ∧ t.kind = .keyword .newKw ∧
      (v.token t).kind = .keyword .stackallocKw := by
  unfold token kind
  split
  next h =>
    refine .inr ⟨h.1, ?_, rfl⟩
    cases hk : t.kind with
    | keyword w => simpa [hk, TokenKind.isKeyword] using h.2
    | _ => simp [hk, TokenKind.isKeyword] at h
  next => exact .inl rfl

theorem kind_of_punct {t : Token} {p : Punct} (h : t.kind = .punct p) :
    (v.token t).kind = .punct p := by
  rcases v.kind_cases t with hk | ⟨_, hNew, _⟩
  · rw [hk, h]
  · rw [hNew] at h
    cases h

/-- What is said alike of both words is said of a token before and after. -/
theorem kind_token {γ : Type} (g : TokenKind → γ)
    (h : g (.keyword .newKw) = g (.keyword .stackallocKw)) (t : Token) :
    g (v.token t).kind = g t.kind := by
  rcases v.kind_cases t with hk | ⟨_, hNew, hk⟩
  · rw [hk]
  · rw [hk, hNew, h]

theorem kind_map {γ : Type} (g : TokenKind → γ)
    (h : g (.keyword .newKw) = g (.keyword .stackallocKw)) (ts : List Token) :
    g (Tokens.kind (ts.map v.token)) = g (Tokens.kind ts) := by
  cases ts with
  | nil => rfl
  | cons t ts => exact v.kind_token g h t

section Alike

variable (t : Token) (ts : List Token)

@[simp] theorem isPunct_token (p : Punct) : (v.token t).kind.isPunct p = t.kind.isPunct p :=
  v.kind_token (·.isPunct p) rfl t

@[simp] theorem isPunct_map (p : Punct) :
    (Tokens.kind (ts.map v.token)).isPunct p = (Tokens.kind ts).isPunct p :=
  v.kind_map (·.isPunct p) rfl ts

theorem isKeyword_alike {w : Keyword} (hNew : w ≠ .newKw) (hStack : w ≠ .stackallocKw) :
    (TokenKind.keyword .newKw).isKeyword w = (TokenKind.keyword .stackallocKw).isKeyword w := by
  simp [TokenKind.isKeyword, beq_eq_false_iff_ne.mpr hNew.symm,
    beq_eq_false_iff_ne.mpr hStack.symm]

@[simp] theorem isKeyword_token {w : Keyword} (hNew : w ≠ .newKw) (hStack : w ≠ .stackallocKw) :
    (v.token t).kind.isKeyword w = t.kind.isKeyword w :=
  v.kind_token (·.isKeyword w) (isKeyword_alike hNew hStack) t

@[simp] theorem isKeyword_map {w : Keyword} (hNew : w ≠ .newKw) (hStack : w ≠ .stackallocKw) :
    (Tokens.kind (ts.map v.token)).isKeyword w = (Tokens.kind ts).isKeyword w :=
  v.kind_map (·.isKeyword w) (isKeyword_alike hNew hStack) ts

@[simp] theorem isIdent_token : (v.token t).kind.isIdent = t.kind.isIdent :=
  v.kind_token (·.isIdent) rfl t

@[simp] theorem isIdent_map : (Tokens.kind (ts.map v.token)).isIdent = (Tokens.kind ts).isIdent :=
  v.kind_map (·.isIdent) rfl ts

@[simp] theorem isName_token (name : String) : (v.token t).kind.isName name = t.kind.isName name :=
  v.kind_token (·.isName name) rfl t

@[simp] theorem isEof_token : (v.token t).kind.isEof = t.kind.isEof :=
  v.kind_token (·.isEof) rfl t

@[simp] theorem predefined?_token : (v.token t).kind.predefined? = t.kind.predefined? :=
  v.kind_token (·.predefined?) rfl t

@[simp] theorem isPredefined_token : (v.token t).kind.isPredefined = t.kind.isPredefined :=
  v.kind_token (·.isPredefined) rfl t

@[simp] theorem isPredefined_map :
    (Tokens.kind (ts.map v.token)).isPredefined = (Tokens.kind ts).isPredefined :=
  v.kind_map (·.isPredefined) rfl ts

@[simp] theorem argModifier?_token : (v.token t).kind.argModifier? = t.kind.argModifier? :=
  v.kind_token (·.argModifier?) rfl t

@[simp] theorem paramModifier?_token : (v.token t).kind.paramModifier? = t.kind.paramModifier? :=
  v.kind_token (·.paramModifier?) rfl t

@[simp] theorem accessorKind?_token : (v.token t).kind.accessorKind? = t.kind.accessorKind? :=
  v.kind_token (·.accessorKind?) rfl t

@[simp] theorem typeKind?_token : (v.token t).kind.typeKind? = t.kind.typeKind? :=
  v.kind_token (·.typeKind?) rfl t

@[simp] theorem assign?_token : (v.token t).kind.assign? = t.kind.assign? :=
  v.kind_token (·.assign?) rfl t

@[simp] theorem binary?_token : (v.token t).kind.binary? = t.kind.binary? :=
  v.kind_token (·.binary?) rfl t

@[simp] theorem isPostfix_token : (v.token t).kind.isPostfix = t.kind.isPostfix :=
  v.kind_token (·.isPostfix) rfl t

end Alike

theorem scanTypeArgs_map (depth : Nat) (ts : List Token) :
    Tokens.scanTypeArgs depth (ts.map v.token) =
      (Tokens.scanTypeArgs depth ts).map (·.map v.token) := by
  induction ts generalizing depth with
  | nil => rfl
  | cons t ts ih =>
    rw [List.map_cons, Tokens.scanTypeArgs, Tokens.scanTypeArgs]
    rcases v.kind_cases t with hk | ⟨_, hNew, hk⟩
    · rw [hk]
      split
      · exact ih _
      · split
        · rfl
        · exact ih _
      · split
        · rfl
        · split
          · rfl
          · exact ih _
      · split
        · exact ih _
        · rfl
    · rw [hk, hNew]
      rfl

theorem scanRank_map (ts : List Token) :
    Tokens.scanRank (ts.map v.token) = (Tokens.scanRank ts).map (·.map v.token) := by
  induction ts with
  | nil => rfl
  | cons t ts ih =>
    rw [List.map_cons, Tokens.scanRank, Tokens.scanRank]
    rcases v.kind_cases t with hk | ⟨_, hNew, hk⟩
    · rw [hk]
      split
      · exact ih
      · rfl
      · rfl
    · rw [hk, hNew]
      rfl

@[simp] theorem isSome_scanRankSpecifier_map (ts : List Token) :
    (Tokens.scanRankSpecifier (ts.map v.token)).isSome = (Tokens.scanRankSpecifier ts).isSome := by
  cases ts with
  | nil => rfl
  | cons t ts =>
    rw [List.map_cons, Tokens.scanRankSpecifier, Tokens.scanRankSpecifier, isPunct_token,
      scanRank_map]
    split
    · exact Option.isSome_map
    · rfl

theorem scanOptionalArgs_map (ts : List Token) :
    Tokens.scanOptionalArgs (ts.map v.token) =
      (Tokens.scanOptionalArgs ts).map (·.map v.token) := by
  unfold Tokens.scanOptionalArgs
  rw [isPunct_map, ← List.map_drop, scanTypeArgs_map]
  split <;> rfl

@[simp] theorem startsMemberName_map (ts : List Token) :
    Tokens.startsMemberName (ts.map v.token) = Tokens.startsMemberName ts := by
  unfold Tokens.startsMemberName
  rw [isPunct_map, ← List.map_drop, isIdent_map]

theorem scanNameTail_map (ts : List Token) :
    Tokens.scanNameTail (ts.map v.token) = (Tokens.scanNameTail ts).map (·.map v.token) := by
  fun_induction Tokens.scanNameTail ts with
  | case1 ts h =>
    rw [Tokens.scanNameTail]
    split
    · rfl
    next rest hRest =>
      rw [scanOptionalArgs_map, h] at hRest
      cases hRest
  | case2 ts rest h dot _ _ ih =>
    rw [Tokens.scanNameTail]
    split
    next hRest =>
      rw [scanOptionalArgs_map, h] at hRest
      cases hRest
    next rest' hRest =>
      rw [scanOptionalArgs_map, h] at hRest
      obtain rfl := Option.some.inj hRest
      rw [dif_pos (by rw [startsMemberName_map, dot]), ← List.map_drop]
      exact ih
  | case3 ts rest h dot =>
    rw [Tokens.scanNameTail]
    split
    next hRest =>
      rw [scanOptionalArgs_map, h] at hRest
      cases hRest
    next rest' hRest =>
      rw [scanOptionalArgs_map, h] at hRest
      obtain rfl := Option.some.inj hRest
      rw [dif_neg (by rwa [startsMemberName_map])]
      rfl

theorem scanTypeMarks_map (ts : List Token) :
    Tokens.scanTypeMarks (ts.map v.token) = (Tokens.scanTypeMarks ts).map v.token := by
  fun_induction Tokens.scanTypeMarks ts with
  | case1 => rw [List.map_nil, Tokens.scanTypeMarks]
  | case2 t ts hk ih | case3 t ts hk ih =>
    rw [List.map_cons, Tokens.scanTypeMarks, v.kind_of_punct hk]
    exact ih
  | case4 t ts hk rest h _ ih =>
    rw [List.map_cons, Tokens.scanTypeMarks, v.kind_of_punct hk]
    dsimp only
    split
    next rest' hRest =>
      rw [scanRank_map, h] at hRest
      obtain rfl := Option.some.inj hRest
      exact ih
    next hRest =>
      rw [scanRank_map, h] at hRest
      cases hRest
  | case5 t ts hk h =>
    rw [List.map_cons, Tokens.scanTypeMarks, v.kind_of_punct hk]
    dsimp only
    split
    next rest' hRest =>
      rw [scanRank_map, h] at hRest
      cases hRest
    next => rfl
  | case6 t ts hQuestion hStar hBracket =>
    rw [List.map_cons, Tokens.scanTypeMarks]
    rcases v.kind_cases t with hk | ⟨_, hNew, hk⟩
    · rw [hk]
      split <;> simp_all
    · rw [hk]

theorem scanType_map (ts : List Token) :
    Tokens.scanType (ts.map v.token) = (Tokens.scanType ts).map (·.map v.token) := by
  cases ts with
  | nil => rfl
  | cons t ts =>
    simp only [List.map_cons, Tokens.scanType, isPredefined_token, isIdent_token, isPunct_map,
      ← List.map_drop, isIdent_map, ← apply_ite (List.map v.token), scanNameTail_map,
      scanTypeMarks_map]
    split
    · rfl
    · split
      · simp only [Option.map_map, Function.comp_def, scanTypeMarks_map]
      · rfl

@[simp] theorem isSome_scanType_map (ts : List Token) :
    (Tokens.scanType (ts.map v.token)).isSome = (Tokens.scanType ts).isSome := by
  rw [scanType_map, Option.isSome_map]

@[simp] theorem startsLocalDecl_map (ts : List Token) :
    Tokens.startsLocalDecl (ts.map v.token) = Tokens.startsLocalDecl ts := by
  unfold Tokens.startsLocalDecl
  rw [scanType_map]
  cases Tokens.scanType ts with
  | none => rfl
  | some rest => simp only [Option.map_some, ← List.map_drop, isIdent_map, isPunct_map]

@[simp] theorem startsGenericArgs_map (ts : List Token) :
    Tokens.startsGenericArgs (ts.map v.token) = Tokens.startsGenericArgs ts := by
  unfold Tokens.startsGenericArgs
  rw [isPunct_map, ← List.map_drop, scanTypeArgs_map]
  cases Tokens.scanTypeArgs 1 (ts.drop 1) with
  | none => rfl
  | some rest => simp

@[simp] theorem startsOutVariable_map (ts : List Token) :
    Tokens.startsOutVariable (ts.map v.token) = Tokens.startsOutVariable ts := by
  unfold Tokens.startsOutVariable
  rw [scanType_map]
  cases Tokens.scanType ts with
  | none => rfl
  | some rest => simp only [Option.map_some, ← List.map_drop, isIdent_map, isPunct_map]

@[simp] theorem toClosingBracket_map (depth : Nat) (ts : List Token) :
    Tokens.toClosingBracket depth (ts.map v.token) = Tokens.toClosingBracket depth ts := by
  induction ts generalizing depth with
  | nil => rfl
  | cons t ts ih =>
    rw [List.map_cons, Tokens.toClosingBracket, Tokens.toClosingBracket]
    rcases v.kind_cases t with hk | ⟨_, hNew, hk⟩
    · rw [hk]
      simp only [ih]
    · rw [hk, hNew]
      simp only [ih]

@[simp] theorem toBody_map (ts : List Token) :
    Tokens.toBody (ts.map v.token) = Tokens.toBody ts := by
  induction ts with
  | nil => rfl
  | cons t ts ih =>
    rw [List.map_cons, Tokens.toBody, Tokens.toBody]
    rcases v.kind_cases t with hk | ⟨_, hNew, hk⟩
    · rw [hk, ih]
    · rw [hk, hNew, ih]

end Respelling

namespace Tokens

theorem scanTypeArgs_suffix {depth : Nat} {ts rest : List Token}
    (h : scanTypeArgs depth ts = some rest) : rest <:+ ts := by
  induction ts generalizing depth with
  | nil => cases h
  | cons t ts ih =>
    have more : ∀ {n}, scanTypeArgs n ts = some rest → rest <:+ t :: ts := fun h =>
      (ih h).trans (List.suffix_cons t ts)
    have done : some ts = some rest → rest <:+ t :: ts := fun h =>
      Option.some.inj h ▸ List.suffix_cons t ts
    rw [scanTypeArgs] at h
    split at h
    · exact more h
    · split at h
      · exact done h
      · exact more h
    · split at h
      · cases h
      · split at h
        · exact done h
        · exact more h
    · split at h
      · exact more h
      · cases h

theorem scanRank_suffix {ts rest : List Token} (h : scanRank ts = some rest) : rest <:+ ts := by
  induction ts with
  | nil => cases h
  | cons t ts ih =>
    rw [scanRank] at h
    split at h
    · exact (ih h).trans (List.suffix_cons t ts)
    · exact Option.some.inj h ▸ List.suffix_cons t ts
    · cases h

theorem scanOptionalArgs_suffix {ts rest : List Token} (h : scanOptionalArgs ts = some rest) :
    rest <:+ ts := by
  unfold scanOptionalArgs at h
  split at h
  · exact (scanTypeArgs_suffix h).trans (List.drop_suffix 1 ts)
  · cases h
    exact List.suffix_rfl

theorem scanNameTail_suffix {ts rest : List Token} (h : scanNameTail ts = some rest) :
    rest <:+ ts := by
  fun_induction scanNameTail ts with
  | case1 => cases h
  | case2 ts next hNext _ _ _ ih =>
    exact ((ih h).trans (List.drop_suffix 2 next)).trans (scanOptionalArgs_suffix hNext)
  | case3 ts next hNext =>
    cases h
    exact scanOptionalArgs_suffix hNext

theorem scanTypeMarks_suffix (ts : List Token) : scanTypeMarks ts <:+ ts := by
  fun_induction scanTypeMarks ts with
  | case1 | case5 | case6 => exact List.suffix_rfl
  | case2 t ts _ ih | case3 t ts _ ih => exact ih.trans (List.suffix_cons t ts)
  | case4 t ts _ rest h _ ih =>
    exact (ih.trans (scanRank_suffix h)).trans (List.suffix_cons t ts)

theorem scanType_suffix {ts rest : List Token} (h : scanType ts = some rest) : rest <:+ ts := by
  cases ts with
  | nil => cases h
  | cons t ts =>
    rw [scanType] at h
    split at h
    · cases h
      exact (scanTypeMarks_suffix ts).trans (List.suffix_cons t ts)
    · split at h
      · obtain ⟨tail, hTail, rfl⟩ := Option.map_eq_some_iff.mp h
        refine ((scanTypeMarks_suffix tail).trans (scanNameTail_suffix hTail)).trans ?_
        refine List.IsSuffix.trans ?_ (List.suffix_cons t ts)
        split
        · exact List.drop_suffix 2 ts
        · exact List.suffix_rfl
      · cases h

end Tokens

end Stackable
