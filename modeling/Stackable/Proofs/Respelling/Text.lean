import Stackable.Proofs.Respelling.Decl
import Stackable.Proofs.Token.Kinds

/-!
# The text with the word respelled

Where a `new` is spelled `stackalloc`, the text in front of it is cut into tokens as before, the
word is one token again, and the tokens behind it move. So the tokens of the respelled text are the
respelled tokens.
-/

set_option autoImplicit false

namespace Stackable

namespace Lexer

variable {a : Char} {cs pre post : List Char} {offset budget : Nat} {t : Token}

theorem bounds_of_mem_run (h : t ∈ (run offset budget cs).tokens) :
    offset ≤ t.span.start ∧ t.span.start < t.span.stop := by
  fun_induction run offset budget cs with
  | case1 | case2 => cases h
  | case3 offset budget a cs hBudget m stop hBlank ih =>
    have := ih h
    omega
  | case4 offset budget a cs hBudget m stop kind hKind r ih =>
    have hSize := a.utf8Size_pos
    rcases List.mem_cons.mp h with rfl | h
    · simp only [stop]
      omega
    · have := ih h
      omega
  | case5 offset budget a cs hBudget m stop cause hCause r ih =>
    have := ih h
    omega

/-- A text that stands further back has its tokens further back. -/
theorem run_add (k : Nat) (hFree : (run offset budget cs).errors = []) :
    run (offset + k) budget cs = ⟨(run offset budget cs).tokens.map fun t =>
      ⟨t.kind, t.span.start + k, t.span.stop + k⟩, []⟩ := by
  fun_induction run offset budget cs with
  | case1 => rw [run]; rfl
  | case2 offset a cs => simp [run]
  | case3 offset budget a cs hBudget m stop hBlank ih =>
    rw [run_blank hBudget hBlank, ← ih hFree]
    congr 1
    simp only [stop, m]
    omega
  | case4 offset budget a cs hBudget m stop kind hKind r ih =>
    have hStop : stop + k = offset + k + a.utf8Size + Text.byteSize (cs.take m.extra) := by
      simp only [stop]
      omega
    rw [run_token hBudget hKind hStop, ih hFree]
    rfl
  | case5 offset budget a cs hBudget m stop cause hCause r ih => cases hFree

/-- A cut that is the word `new`. -/
theorem text_of_munch_new (h : (munch a cs).piece = .token (.keyword .newKw)) :
    (munch a cs).extra = 2 ∧ a = 'n' ∧ ∃ post, cs = 'e' :: 'w' :: post ∧
      post.takeWhile isNamePart = [] := by
  obtain ⟨hText, hExtra⟩ := text_of_munch_keyword h
  change a :: cs.takeWhile isNamePart = ['n', 'e', 'w'] at hText
  obtain ⟨rfl, hMore⟩ := List.cons.inj hText
  have hSplit := List.takeWhile_append_dropWhile (p := isNamePart) (l := cs)
  rw [hMore] at hExtra hSplit
  refine ⟨hExtra, rfl, cs.dropWhile isNamePart, hSplit.symm, ?_⟩
  rw [← hSplit] at hMore
  have hName : isNamePart 'e' = true ∧ isNamePart 'w' = true := by decide
  simpa [hName] using hMore

theorem byteSize_cut (a : Char) (cs pre : List Char) (n offset : Nat) :
    offset + a.utf8Size + Text.byteSize (cs.take n) + Text.byteSize pre =
      offset + Text.byteSize (a :: (cs.take n ++ pre)) := by
  rw [Text.byteSize, Text.byteSize_append]
  omega

/-- Where a `new` stands among the tokens it is a word of the text. -/
theorem exists_new_of_mem_tokenize {source : List Char} (h : t ∈ (tokenize source).tokens)
    (hKind : t.kind = .keyword .newKw) :
    ∃ pre post, source = pre ++ 'n' :: 'e' :: 'w' :: post ∧ t.span.start = Text.byteSize pre ∧
      t.span.stop = t.span.start + 3 := by
  have hSpelling : t.kind.spelling? = some "new".toList := by rw [hKind]; rfl
  obtain ⟨pre, post, rfl, hStart, hStop⟩ := spelled_of_mem_tokenize h hSpelling
  exact ⟨pre, post, rfl, hStart, hStop⟩

theorem munch_stackalloc (h : post.takeWhile isNamePart = []) :
    munch 's' ("tackalloc".toList ++ post) = ⟨9, .token (.keyword .stackallocKw)⟩ := by
  have hMore : ("tackalloc".toList ++ post).takeWhile isNamePart = "tackalloc".toList := by
    rw [List.takeWhile_append_of_pos (List.all_eq_true.mp rfl), h, List.append_nil]
  change word 's' ("tackalloc".toList ++ post) = _
  unfold word
  rw [hMore]
  rfl

/-- The cut ends at the word or in front of it. -/
theorem extra_le_length (a : Char) (offset : Nat) {x : List Char} {n : Nat}
    (h : offset + a.utf8Size + Text.byteSize ((pre ++ 'n' :: x).take n) ≤
      offset + Text.byteSize (a :: pre)) : n ≤ pre.length := by
  refine Classical.byContradiction fun hLt => ?_
  rw [Nat.not_le] at hLt
  obtain ⟨k, hk⟩ := Nat.exists_eq_add_of_le hLt
  rw [show n = pre.length + (k + 1) by omega, List.take_length_add_append, List.take_succ_cons,
    Text.byteSize_append, Text.byteSize, Text.byteSize] at h
  have hSize := Char.utf8Size_pos 'n'
  omega

end Lexer

namespace Respelling

variable {v : Respelling} {t : Token}

theorem token_behind (h : v.word < t.span.start) (hStop : t.span.start < t.span.stop) :
    v.token t = ⟨t.kind, t.span.start + 7, t.span.stop + 7⟩ := by
  have hKind : v.kind t.span.start t.kind = t.kind := if_neg fun hk => by omega
  rw [token, hKind, span, v.shift_of_lt h, v.shift_of_lt (Nat.lt_trans h hStop)]

theorem token_before (h : t.span.start < v.word) (hStop : t.span.stop ≤ v.word) :
    v.token t = t := by
  have hKind : v.kind t.span.start t.kind = t.kind := if_neg fun hk => by omega
  rw [token, hKind, span, v.shift_of_le (Nat.le_of_lt h), v.shift_of_le hStop]

end Respelling

namespace Lexer

variable {a : Char} {cs pre post : List Char} {offset budget : Nat} {t : Token}

/-- A cut in front of the word is made in the respelled text as well. -/
theorem munch_respelled (hExtra : (munch a (pre ++ 'n' :: cs)).extra ≤ pre.length)
    (hFault : ¬ (munch a (pre ++ 'n' :: cs)).IsFault) (post : List Char) :
    munch a (pre ++ 's' :: post) = munch a (pre ++ 'n' :: cs) :=
  munch_local a pre cs post 'n' 's' (.inl rfl) (.inr rfl) hExtra hFault

/-- The word opens the text. -/
theorem run_respelled_nil {v : Respelling} (hWord : v.word = offset) (hBudget : budget ≠ 0)
    (hPiece : (munch 'n' ('e' :: 'w' :: post)).piece = .token (.keyword .newKw))
    (hFree : (run offset budget ('n' :: 'e' :: 'w' :: post)).errors = []) :
    run offset budget ('s' :: ("tackalloc".toList ++ post)) =
      ⟨(run offset budget ('n' :: 'e' :: 'w' :: post)).tokens.map v.token, []⟩ := by
  obtain ⟨hExtra, -, post', hPost, hEnd⟩ := text_of_munch_new hPiece
  obtain rfl : post = post' := by simpa using hPost
  have hNew : run offset budget ('n' :: 'e' :: 'w' :: post) =
      ⟨⟨.keyword .newKw, offset, offset + 3⟩ :: (run (offset + 3) budget post).tokens,
        (run (offset + 3) budget post).errors⟩ := by
    have hStop : offset + 3 = offset + 'n'.utf8Size +
        Text.byteSize (('e' :: 'w' :: post).take (munch 'n' ('e' :: 'w' :: post)).extra) := by
      rw [hExtra]
      rfl
    rw [run_token hBudget hPiece hStop, hExtra]
    rfl
  have hPieceNew := munch_stackalloc hEnd
  have hAlloc : run offset budget ('s' :: ("tackalloc".toList ++ post)) =
      ⟨⟨.keyword .stackallocKw, offset, offset + 10⟩ :: (run (offset + 10) budget post).tokens,
        (run (offset + 10) budget post).errors⟩ := by
    have hStop : offset + 10 = offset + 's'.utf8Size + Text.byteSize
        (("tackalloc".toList ++ post).take (munch 's' ("tackalloc".toList ++ post)).extra) := by
      rw [hPieceNew]
      rfl
    rw [run_token hBudget (congrArg Munch.piece hPieceNew) hStop, hPieceNew]
    rfl
  rw [hNew] at hFree ⊢
  rw [hAlloc, show offset + 10 = offset + 3 + 7 from rfl, run_add 7 hFree, List.map_cons]
  congr 2
  · have hStart : v.shift offset = offset := v.shift_of_le (Nat.le_of_eq hWord.symm)
    have hStop : v.shift (offset + 3) = offset + 3 + 7 := v.shift_of_lt (by omega)
    rw [Respelling.token, Respelling.span, hStart, hStop, Respelling.kind,
      if_pos ⟨hWord.symm, rfl⟩]
  · refine List.map_congr_left fun t ht => ?_
    obtain ⟨hStart, hStop⟩ := bounds_of_mem_run ht
    exact (Respelling.token_behind (by omega) hStop).symm

/-- What stands between a cut in front of the word and the word. -/
theorem byteSize_drop {n : Nat} (h : n ≤ pre.length) (cs : List Char) :
    offset + a.utf8Size + Text.byteSize ((pre ++ cs).take n) + Text.byteSize (pre.drop n) =
      offset + Text.byteSize (a :: pre) := by
  rw [List.take_append_of_le_length h, byteSize_cut, List.take_append_drop]

/-- A blank in front of the word is read from the respelled text as well. -/
theorem run_blank_respelled (hBudget : budget ≠ 0)
    (hBlank : (munch a (pre ++ 'n' :: cs)).piece = .blank)
    (hExtra : (munch a (pre ++ 'n' :: cs)).extra ≤ pre.length) (post : List Char) :
    run offset budget (a :: (pre ++ 's' :: post)) =
      run (offset + a.utf8Size +
          Text.byteSize ((pre ++ 'n' :: cs).take (munch a (pre ++ 'n' :: cs)).extra)) budget
        (pre.drop (munch a (pre ++ 'n' :: cs)).extra ++ 's' :: post) := by
  have hSame : munch a (pre ++ 's' :: post) = munch a (pre ++ 'n' :: cs) :=
    munch_respelled hExtra (by rw [Munch.IsFault, hBlank]; simp) post
  rw [run_blank hBudget (hSame ▸ hBlank), hSame, List.drop_append_of_le_length hExtra,
    List.take_append_of_le_length hExtra, List.take_append_of_le_length hExtra]

/-- And so is a token. -/
theorem run_token_respelled (hBudget : budget ≠ 0) {kind : TokenKind} {stop : Nat}
    (hPiece : (munch a (pre ++ 'n' :: cs)).piece = .token kind)
    (hExtra : (munch a (pre ++ 'n' :: cs)).extra ≤ pre.length)
    (hStop : stop = offset + a.utf8Size +
      Text.byteSize ((pre ++ 'n' :: cs).take (munch a (pre ++ 'n' :: cs)).extra))
    (post : List Char) :
    run offset budget (a :: (pre ++ 's' :: post)) =
      ⟨⟨kind, offset, stop⟩ ::
          (run stop budget (pre.drop (munch a (pre ++ 'n' :: cs)).extra ++ 's' :: post)).tokens,
        (run stop budget (pre.drop (munch a (pre ++ 'n' :: cs)).extra ++ 's' :: post)).errors⟩ := by
  have hSame : munch a (pre ++ 's' :: post) = munch a (pre ++ 'n' :: cs) :=
    munch_respelled hExtra (by rw [Munch.IsFault, hPiece]; simp) post
  have hStop' : stop = offset + a.utf8Size +
      Text.byteSize ((pre ++ 's' :: post).take (munch a (pre ++ 's' :: post)).extra) := by
    rw [hStop, hSame, List.take_append_of_le_length hExtra, List.take_append_of_le_length hExtra]
  rw [run_token hBudget (hSame ▸ hPiece) hStop', hSame, List.drop_append_of_le_length hExtra]

theorem run_respelled {v : Respelling} (hWord : v.word = offset + Text.byteSize pre)
    (hFree : (run offset budget (pre ++ 'n' :: 'e' :: 'w' :: post)).errors = [])
    (hNew : ∃ t ∈ (run offset budget (pre ++ 'n' :: 'e' :: 'w' :: post)).tokens,
      t.kind = .keyword .newKw ∧ t.span.start = v.word) :
    run offset budget (pre ++ 's' :: ("tackalloc".toList ++ post)) =
      ⟨(run offset budget (pre ++ 'n' :: 'e' :: 'w' :: post)).tokens.map v.token, []⟩ := by
  generalize hText : pre ++ 'n' :: 'e' :: 'w' :: post = text at hFree hNew ⊢
  fun_induction run offset budget text generalizing pre with
  | case1 => simp at hText
  | case2 => simp at hNew
  | case3 =>
    rename_i offset budget a cs hBudget m stop hBlank ih
    cases pre with
    | nil =>
      -- a letter is no blank
      obtain ⟨rfl, rfl⟩ := List.cons.inj hText
      cases hBlank
    | cons b pre =>
      rw [List.cons_append] at hText ⊢
      obtain ⟨rfl, rfl⟩ := List.cons.inj hText
      have hExtra : m.extra ≤ pre.length := by
        obtain ⟨t, ht, -, hStart⟩ := hNew
        apply extra_le_length b offset
        rw [← hWord, ← hStart]
        exact (bounds_of_mem_run ht).1
      rw [run_blank_respelled hBudget hBlank hExtra]
      exact ih (hWord.trans (byteSize_drop hExtra _).symm)
        (List.drop_append_of_le_length hExtra).symm hFree hNew
  | case4 =>
    rename_i offset budget a cs hBudget m stop kind hPiece r ih
    cases pre with
    | nil =>
      obtain ⟨rfl, rfl⟩ := List.cons.inj hText
      obtain ⟨t, ht, hKind, hStart⟩ := hNew
      obtain rfl : kind = .keyword .newKw := by
        rcases List.mem_cons.mp ht with rfl | ht
        · exact hKind
        · -- a later token does not start here
          have := (bounds_of_mem_run ht).1
          have hSize := Char.utf8Size_pos 'n'
          simp only [stop, hStart, hWord, Text.byteSize] at this
          omega
      have hRun : run offset budget ('n' :: 'e' :: 'w' :: post) = _ := run_token hBudget hPiece rfl
      have hHere : v.word = offset := hWord
      rw [List.nil_append, run_respelled_nil hHere hBudget hPiece (by rw [hRun]; exact hFree), hRun]
    | cons b pre =>
      rw [List.cons_append] at hText ⊢
      obtain ⟨rfl, rfl⟩ := List.cons.inj hText
      have hStart : offset < v.word := by
        have := b.utf8Size_pos
        rw [hWord, Text.byteSize]
        omega
      have hLater : ∃ t ∈ r.tokens, t.kind = .keyword .newKw ∧ t.span.start = v.word := by
        obtain ⟨t, ht, hKind, hHere⟩ := hNew
        rcases List.mem_cons.mp ht with rfl | ht
        · exact absurd hHere (Nat.ne_of_lt hStart)
        · exact ⟨t, ht, hKind, hHere⟩
      have hBefore : stop ≤ v.word := by
        obtain ⟨t, ht, -, hHere⟩ := hLater
        rw [← hHere]
        exact (bounds_of_mem_run ht).1
      have hExtra : m.extra ≤ pre.length := extra_le_length b offset (hWord ▸ hBefore)
      have hFirst : v.token ⟨kind, offset, stop⟩ = ⟨kind, offset, stop⟩ :=
        Respelling.token_before hStart hBefore
      rw [run_token_respelled hBudget hPiece hExtra rfl, ih (hWord.trans (byteSize_drop hExtra _).symm)
        (List.drop_append_of_le_length hExtra).symm hFree hLater, List.map_cons, hFirst]
  | case5 => cases hFree

/-- The tokens of the respelled text are the respelled tokens. -/
theorem tokenize_respelled {v : Respelling} (hWord : v.word = Text.byteSize pre)
    (hFree : (tokenize (pre ++ 'n' :: 'e' :: 'w' :: post)).errors = [])
    (hNew : ∃ t ∈ (tokenize (pre ++ 'n' :: 'e' :: 'w' :: post)).tokens,
      t.kind = .keyword .newKw ∧ t.span.start = v.word) :
    tokenize (pre ++ 's' :: ("tackalloc".toList ++ post)) =
      ⟨(tokenize (pre ++ 'n' :: 'e' :: 'w' :: post)).tokens.map v.token, []⟩ := by
  have hRun : ∃ t ∈ (run 0 maxErrors (pre ++ 'n' :: 'e' :: 'w' :: post)).tokens,
      t.kind = .keyword .newKw ∧ t.span.start = v.word := by
    obtain ⟨t, ht, hKind, hStart⟩ := hNew
    rcases List.mem_append.mp ht with ht | ht
    · exact ⟨t, ht, hKind, hStart⟩
    · obtain rfl := List.mem_singleton.mp ht
      cases hKind
  have hEnd : Text.byteSize (pre ++ 's' :: ("tackalloc".toList ++ post)) =
      Text.byteSize (pre ++ 'n' :: 'e' :: 'w' :: post) + 7 := by
    rw [Text.byteSize_append, Text.byteSize_append]
    change Text.byteSize pre + (1 + Text.byteSize ("tackalloc".toList ++ post)) =
      Text.byteSize pre + (1 + (1 + (1 + Text.byteSize post))) + 7
    rw [Text.byteSize_append]
    change Text.byteSize pre + (1 + (9 + Text.byteSize post)) = _
    omega
  have hBehind : v.word < Text.byteSize (pre ++ 'n' :: 'e' :: 'w' :: post) := by
    rw [hWord, Text.byteSize_append, Text.byteSize]
    have := Char.utf8Size_pos 'n'
    omega
  have hEof : v.token ⟨.eof, Text.byteSize (pre ++ 'n' :: 'e' :: 'w' :: post),
      Text.byteSize (pre ++ 'n' :: 'e' :: 'w' :: post)⟩ =
        ⟨.eof, Text.byteSize (pre ++ 's' :: ("tackalloc".toList ++ post)),
          Text.byteSize (pre ++ 's' :: ("tackalloc".toList ++ post))⟩ := by
    have hKind : v.kind (Text.byteSize (pre ++ 'n' :: 'e' :: 'w' :: post)) .eof = .eof :=
      if_neg fun h => by cases h.2
    rw [hEnd, Respelling.token, Respelling.span, v.shift_of_lt hBehind, hKind]
  simp only [tokenize, run_respelled (hWord.trans (Nat.zero_add _).symm) hFree hRun, List.map_append,
    List.map_cons, List.map_nil, hEof]

end Lexer

theorem position_of_sorted {ts : List Token} (word : Nat)
    (h : ts.Pairwise fun x y => x.span.start < y.span.start) (x : Token) (l : List Token)
    (hx : (x :: l) <:+ ts) : x.span.start = word ↔
      l.length + 1 = (ts.dropWhile (·.span.start != word)).length := by
  induction ts with
  | nil => simp at hx
  | cons t ts ih =>
    obtain ⟨hFirst, hRest⟩ := List.pairwise_cons.mp h
    by_cases ht : t.span.start = word
    · rw [List.dropWhile_cons_of_neg (by simp [ht]), List.length_cons]
      rcases List.suffix_cons_iff.mp hx with hx | hx
      · obtain ⟨rfl, rfl⟩ := List.cons.inj hx
        simp [ht]
      · have hLater := hFirst x (hx.subset List.mem_cons_self)
        have hLength := hx.length_le
        rw [List.length_cons] at hLength
        omega
    · rw [List.dropWhile_cons_of_pos (by simp [ht])]
      rcases List.suffix_cons_iff.mp hx with hx | hx
      · obtain ⟨rfl, rfl⟩ := List.cons.inj hx
        have hLength := (List.dropWhile_suffix (l := l) (·.span.start != word)).length_le
        omega
      · exact ih hRest hx

/-- A source in which the word that starts an array creation is to be respelled. -/
def RespelledText.ofSource (source : List Char) (i : Initializer) : RespelledText where
  initial := i
  tokens := (Lexer.tokenize source).tokens
  left := ((Lexer.tokenize source).tokens.dropWhile fun t : Token =>
    t.span.start != i.value.span.start).length
  position := position_of_sorted i.value.span.start (Lexer.sorted_tokenize source)

theorem RespelledText.fits_ofSource {source : List Char} {v : Respelling}
    (hFree : (parseSource source).2 = [])
    (hHolds : ∃ d ∈ (parseSource source).1.decls, v.Holds (.decl d)) :
    (ofSource source v.initial).Fits := by
  obtain ⟨_, hParsed⟩ := List.append_eq_nil_iff.mp hFree
  exact fits_of_holds (List.map_eq_nil_iff.mp hParsed) hHolds

/-- A source without errors in which a word creates the initial value of a declarator has none
either when the word is respelled, and its tree is the respelled tree. -/
theorem parseSource_respelled {source : List Char} {v : Respelling}
    (hFree : (parseSource source).2 = [])
    (hHolds : ∃ d ∈ (parseSource source).1.decls, v.Holds (.decl d)) :
    (∀ n ∈ (Node.expr v.created).descendants, n.span.start ≠ v.word) ∧
    ∃ pre post, source = pre ++ 'n' :: 'e' :: 'w' :: post ∧ v.word = Text.byteSize pre ∧
      parseSource (pre ++ 's' :: ("tackalloc".toList ++ post)) =
        (v.unit (parseSource source).1, []) := by
  obtain ⟨hLexed, hParsed⟩ := List.append_eq_nil_iff.mp hFree
  rw [List.map_eq_nil_iff] at hLexed hParsed
  let c := RespelledText.ofSource source v.initial
  obtain ⟨⟨x, y, l, hSuffix, _, _, hKind, hStart⟩, hBelow⟩ :=
    RespelledText.fits_ofSource hFree hHolds
  have hMem : y ∈ (Lexer.tokenize source).tokens := hSuffix.subset (by simp)
  obtain ⟨pre, post, rfl, hPre, _⟩ := Lexer.exists_new_of_mem_tokenize hMem hKind
  rw [hStart] at hPre
  refine ⟨hBelow, pre, post, rfl, hPre, ?_⟩
  have hEdited := Lexer.tokenize_respelled hPre hLexed ⟨y, hMem, hKind, hStart⟩
  have hUnit := c.parseTokens_map hParsed hHolds
  have hTokens : (Lexer.tokenize (pre ++ 'n' :: 'e' :: 'w' :: post)).tokens = c.tokens := rfl
  rw [parseSource, hEdited, hTokens]
  dsimp only
  rw [hUnit]
  rfl

end Stackable
