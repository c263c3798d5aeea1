import Stackable.Proofs.Token.Alone

/-!
# What a source is made of

Reading takes a source apart into tokens, errors and blanks that stand apart from each other. Where
there is no error nothing but white space and comments lies before, between and behind the tokens,
and the text of each token, read alone, is that token.
-/

set_option autoImplicit false

namespace Stackable

/-- A span over at least one character, between two boundaries of the source. -/
structure Span.Cuts (source : List Char) (s : Span) : Prop where
  start : Text.Boundary source s.start
  stop : Text.Boundary source s.stop
  width : s.start < s.stop

namespace Lexer

/-- What opens a comment that runs to the end of its line. -/
inductive OpensLine : List Char → Prop
  | hash : OpensLine ['#']
  | slashes : OpensLine ['/', '/']

/-- White space, lines behind `//` or `#`, and comments. Only at the end of the source may a line
lack its newline or a comment its closing mark. -/
inductive Blanks (atEnd : Bool) : List Char → Prop
  | nil : Blanks atEnd []
  | space {c : Char} {cs : List Char} : isBlank c = true → Blanks atEnd cs → Blanks atEnd (c :: cs)
  | line {mark text cs : List Char} : OpensLine mark → '\n' ∉ text → Blanks atEnd ('\n' :: cs) →
      Blanks atEnd (mark ++ text ++ '\n' :: cs)
  | lastLine {mark text : List Char} : atEnd = true → OpensLine mark → '\n' ∉ text →
      Blanks atEnd (mark ++ text)
  | comment {text cs : List Char} : ¬['*', '/'] <:+: text → Blanks atEnd cs →
      Blanks atEnd ('/' :: '*' :: text ++ '*' :: '/' :: cs)
  | openComment {text : List Char} : atEnd = true → ¬['*', '/'] <:+: text →
      Blanks atEnd ('/' :: '*' :: text)

/-- What a cut that is no token is: the cut itself, and what it says of the text behind it. -/
inductive BlankCut : List Char → List Char → Prop
  | spaces {cut rest : List Char} : (∀ c ∈ cut, isBlank c = true) → BlankCut cut rest
  | line {mark text rest : List Char} : OpensLine mark → '\n' ∉ text →
      (rest = [] ∨ ∃ tail, rest = '\n' :: tail) → BlankCut (mark ++ text) rest
  | comment {text rest : List Char} : ¬['*', '/'] <:+: text →
      BlankCut ('/' :: '*' :: text ++ ['*', '/']) rest
  | openComment {text : List Char} : ¬['*', '/'] <:+: text → BlankCut ('/' :: '*' :: text) []

theorem commentExtent_cases (cs : List Char) :
    (∃ text rest, cs = text ++ '*' :: '/' :: rest ∧ commentExtent cs = text.length + 2 ∧
      ¬['*', '/'] <:+: text) ∨
    (commentExtent cs = cs.length ∧ ¬['*', '/'] <:+: cs) := by
  fun_induction commentExtent cs with
  | case1 => exact .inr ⟨rfl, by simp⟩
  | case2 rest => exact .inl ⟨[], rest, rfl, rfl, by simp⟩
  | case3 c cs hOpen ih =>
    have noClose : ∀ {text}, text <+: cs → ¬['*', '/'] <:+: text → ¬['*', '/'] <:+: c :: text := by
      intro text hText hInner hInfix
      rcases List.infix_cons_iff.mp hInfix with hPrefix | hInfix
      · obtain ⟨tail, hTail⟩ := hPrefix
        obtain ⟨rfl, rfl⟩ := List.cons.inj hTail
        obtain ⟨more, rfl⟩ := hText
        exact hOpen _ rfl rfl
      · exact hInner hInfix
    rcases ih with ⟨text, rest, rfl, hSize, hInner⟩ | ⟨hSize, hInner⟩
    · refine .inl ⟨c :: text, rest, rfl, ?_, noClose (List.prefix_append _ _) hInner⟩
      rw [hSize, List.length_cons]
    · refine .inr ⟨?_, noClose (List.prefix_refl _) hInner⟩
      rw [hSize, List.length_cons]

theorem take_takeWhile (q : Char → Bool) (cs : List Char) :
    cs.take (cs.takeWhile q).length = cs.takeWhile q :=
  (List.prefix_iff_eq_take.mp (List.takeWhile_prefix q)).symm

theorem drop_takeWhile_cases (q : Char → Bool) (cs : List Char) :
    cs.drop (cs.takeWhile q).length = [] ∨
      ∃ d tail, cs.drop (cs.takeWhile q).length = d :: tail ∧ q d = false := by
  induction cs with
  | nil => exact .inl rfl
  | cons c cs ih =>
    rw [List.takeWhile_cons]
    split
    · exact ih
    next hc => exact .inr ⟨c, cs, rfl, Bool.not_eq_true _ ▸ hc⟩

theorem blankCut_toLineEnd {mark : List Char} (h : OpensLine mark) (cs : List Char) :
    BlankCut (mark ++ cs.take (toLineEnd cs).extra) (cs.drop (toLineEnd cs).extra) := by
  unfold toLineEnd
  rw [take_takeWhile]
  apply BlankCut.line h
  · intro hMem
    have hLine := List.all_eq_true.mp List.all_takeWhile _ hMem
    simp at hLine
  · rcases drop_takeWhile_cases (· != '\n') cs with hNil | ⟨d, tail, hTail, hd⟩
    · exact .inl hNil
    · obtain rfl : d = '\n' := by simpa using hd
      exact .inr ⟨tail, hTail⟩

theorem blankCut_comment (cs : List Char) :
    BlankCut ('/' :: '*' :: cs.take (commentExtent cs)) (cs.drop (commentExtent cs)) := by
  rcases commentExtent_cases cs with ⟨text, rest, hText, hSize, hInner⟩ | ⟨hSize, hInner⟩
  · have hTake : cs.take (text.length + 2) = text ++ ['*', '/'] := by
      rw [hText, List.take_length_add_append]
      rfl
    rw [hSize, hTake]
    exact .comment hInner
  · rw [hSize, List.take_length, List.drop_length]
    exact .openComment hInner

theorem intPiece_ne_blank (base : Nat) (digits : List Char) (suffix : Option IntSuffix) :
    intPiece base digits suffix ≠ .blank := by
  unfold intPiece
  split <;> nofun

theorem number_ne_blank (a : Char) (cs : List Char) : (number a cs).piece ≠ .blank := by
  unfold number
  dsimp only
  split
  · exact intPiece_ne_blank _ _ _
  · split
    · exact intPiece_ne_blank _ _ _
    · rw [decimalNumber_eq]
      unfold decimalRest
      dsimp only
      split
      · exact intPiece_ne_blank _ _ _
      · nofun

theorem quoted_ne_blank (opening : Nat) (cs : List Char) : (quoted opening cs).piece ≠ .blank := by
  unfold quoted
  dsimp only
  split
  · dsimp only
    split <;> nofun
  · nofun

theorem character_ne_blank (cs : List Char) : (character cs).piece ≠ .blank := by
  unfold character
  split
  · dsimp only
    split <;> nofun
  · obtain ⟨cause, hCause⟩ := isFault_brokenCharacter cs
    rw [hCause]
    nofun

theorem marked_ne_blank (a : Char) (cs : List Char) : (marked a cs).piece ≠ .blank := by
  cases cs with
  | nil => nofun
  | cons b cs =>
    by_cases hQuote : b = '"'
    · subst hQuote
      rw [marked_quote]
      split
      · unfold verbatim
        dsimp only
        split <;> nofun
      · exact quoted_ne_blank _ _
    · by_cases hName : (a == '@' && isNameStart b) = true
      · rw [marked_name hQuote hName]
        nofun
      · obtain ⟨cause, hCause⟩ := isFault_marked hQuote hName cs
        rw [hCause]
        nofun

theorem punctuation_ne_blank (a : Char) (cs : List Char) : (punctuation a cs).piece ≠ .blank := by
  unfold punctuation
  split <;> nofun

/-- What is cut off as a blank is white space or one comment. -/
theorem blankCut_munch {a : Char} {cs : List Char} (h : (munch a cs).piece = .blank) :
    BlankCut (a :: cs.take (munch a cs).extra) (cs.drop (munch a cs).extra) := by
  revert h
  fun_cases munch a cs with
  | case1 ha =>
    intro _
    dsimp only
    rw [take_takeWhile]
    apply BlankCut.spaces
    rintro c (_ | ⟨_, hMem⟩)
    · exact ha
    · exact List.all_eq_true.mp List.all_takeWhile _ hMem
  | case2 => exact fun h => absurd h (number_ne_blank a cs)
  | case3 => exact fun h => nomatch h
  | case4 _ _ _ ha =>
    intro _
    obtain rfl := beq_iff_eq.mp ha
    exact blankCut_toLineEnd .hash cs
  | case5 => exact fun h => absurd h (quoted_ne_blank 0 cs)
  | case6 => exact fun h => absurd h (character_ne_blank cs)
  | case7 => exact fun h => absurd h (marked_ne_blank a cs)
  | case8 _ _ _ _ _ _ _ ha =>
    intro _
    rw [Bool.and_eq_true, beq_iff_eq, beq_iff_eq] at ha
    obtain ⟨rfl, hHead⟩ := ha
    obtain ⟨rest, rfl⟩ := List.head?_eq_some_iff.mp hHead
    have hExtra : (toLineEnd ('/' :: rest)).extra = (toLineEnd rest).extra + 1 := by
      simp [toLineEnd]
    rw [hExtra, List.take_succ_cons, List.drop_succ_cons]
    exact blankCut_toLineEnd .slashes rest
  | case9 _ _ _ _ _ _ _ _ ha =>
    intro _
    rw [Bool.and_eq_true, beq_iff_eq, beq_iff_eq] at ha
    obtain ⟨rfl, hHead⟩ := ha
    obtain ⟨rest, rfl⟩ := List.head?_eq_some_iff.mp hHead
    dsimp only
    rw [List.drop_one, List.tail_cons, Nat.add_comm, List.take_succ_cons, List.drop_succ_cons]
    exact blankCut_comment rest
  | case10 => exact fun h => absurd h (punctuation_ne_blank a cs)

/-- A text from `offset` on, read as blanks and tokens by turns. -/
inductive Reads : Nat → List Char → List Token → Prop
  | blanks {offset : Nat} {gap : List Char} : Blanks true gap → Reads offset gap []
  | token {offset start stop : Nat} {gap text rest : List Char} {a : Char} {kind : TokenKind}
      {ts : List Token} : Blanks false gap → isBlank a = false →
      tokenize (a :: text) = ⟨[⟨kind, 0, Text.byteSize (a :: text)⟩,
        ⟨.eof, Text.byteSize (a :: text), Text.byteSize (a :: text)⟩], []⟩ →
      start = offset + Text.byteSize gap → stop = start + Text.byteSize (a :: text) →
      Reads stop rest ts → Reads offset (gap ++ (a :: text ++ rest)) (⟨kind, start, stop⟩ :: ts)

/-- How far blanks may reach in a text: to its end, or to something that is not white space. -/
def Reaches (atEnd : Bool) (gap text : List Char) : Prop :=
  atEnd = true ∧ gap = text ∨ ∃ a rest, text = gap ++ a :: rest ∧ isBlank a = false

theorem BlankCut.blanks {cut rest gap : List Char} {atEnd : Bool} (h : BlankCut cut rest)
    (hGap : Blanks atEnd gap) (hReaches : Reaches atEnd gap rest) : Blanks atEnd (cut ++ gap) := by
  cases h with
  | spaces hCut =>
    induction cut with
    | nil => exact hGap
    | cons c cut ih =>
      exact .space (hCut c (List.mem_cons_self ..)) (ih fun d hd => hCut d (List.mem_cons_of_mem _ hd))
  | line hMark hText hRest =>
    rename_i mark text
    rcases hRest with rfl | ⟨tail, rfl⟩
    · rcases hReaches with ⟨hEnd, rfl⟩ | ⟨a, more, hMore, _⟩
      · rw [List.append_nil]
        exact .lastLine hEnd hMark hText
      · simp at hMore
    · cases gap with
      | nil =>
        rcases hReaches with ⟨_, hNil⟩ | ⟨a, more, hMore, ha⟩
        · cases hNil
        · obtain ⟨rfl, _⟩ := List.cons.inj hMore
          cases ha
      | cons d gap =>
        obtain rfl : d = '\n' := by
          rcases hReaches with ⟨_, hEq⟩ | ⟨a, more, hMore, _⟩
          · exact (List.cons.inj hEq).1
          · exact (List.cons.inj hMore).1.symm
        exact .line hMark hText hGap
  | comment hText =>
    rename_i text
    have hSplit : '/' :: '*' :: text ++ ['*', '/'] ++ gap = '/' :: '*' :: text ++ '*' :: '/' :: gap := by
      simp
    rw [hSplit]
    exact .comment hText hGap
  | openComment hText =>
    rcases hReaches with ⟨hEnd, rfl⟩ | ⟨a, more, hMore, _⟩
    · rw [List.append_nil]
      exact .openComment hEnd hText
    · simp at hMore

theorem Reads.prepend {offset : Nat} {cut rest : List Char} {ts : List Token}
    (hCut : BlankCut cut rest) (h : Reads (offset + Text.byteSize cut) rest ts) :
    Reads offset (cut ++ rest) ts := by
  generalize hOffset : offset + Text.byteSize cut = start at h
  cases h with
  | blanks hGap => exact .blanks (hCut.blanks hGap (.inl ⟨rfl, rfl⟩))
  | token hGap ha hAlone hStart hStop hRest =>
    rw [← List.append_assoc]
    refine .token (hCut.blanks hGap (.inr ⟨_, _, rfl, ha⟩)) ha hAlone ?_ hStop hRest
    rw [hStart, ← hOffset, Text.byteSize_append]
    omega

theorem isBlank_of_token {a : Char} {cs : List Char} {kind : TokenKind}
    (h : (munch a cs).piece = .token kind) : isBlank a = false := by
  cases ha : isBlank a with
  | false => rfl
  | true =>
    rw [munch, if_pos ha] at h
    cases h

theorem reads_run {offset budget : Nat} {cs : List Char} (hBudget : budget ≠ 0)
    (hFree : (run offset budget cs).errors = []) : Reads offset cs (run offset budget cs).tokens := by
  fun_induction run offset budget cs with
  | case1 => exact .blanks .nil
  | case2 => exact absurd rfl hBudget
  | case3 offset budget a cs _ m stop hBlank ih =>
    have hRest := ih hBudget hFree
    have hCut := blankCut_munch hBlank
    rw [show a :: cs = a :: cs.take m.extra ++ cs.drop m.extra by simp]
    apply Reads.prepend hCut
    rw [Text.byteSize, ← Nat.add_assoc]
    exact hRest
  | case4 offset budget a cs _ m stop kind hKind r ih =>
    have hRest := ih hBudget hFree
    rw [show a :: cs = [] ++ (a :: cs.take m.extra ++ cs.drop m.extra) by simp]
    refine .token .nil (isBlank_of_token hKind) (tokenize_token_text hKind) rfl ?_ hRest
    simp only [stop]
    rw [Text.byteSize, Nat.add_assoc]
  | case5 => cases hFree

/-- Where the last of some tokens ends, or `offset` if there is none. -/
def endOf (offset : Nat) : List Token → Nat
  | [] => offset
  | t :: ts => endOf t.span.stop ts

section Slices

variable {source pre cs : List Char} {offset : Nat} {ts : List Token}

theorem source_behind {gap text rest : List Char} {start stop : Nat}
    (hSource : source = pre ++ (gap ++ (text ++ rest))) (hOffset : offset = Text.byteSize pre)
    (hStart : start = offset + Text.byteSize gap) (hStop : stop = start + Text.byteSize text) :
    source = pre ++ gap ++ text ++ rest ∧ stop = Text.byteSize (pre ++ gap ++ text) := by
  constructor
  · simp [hSource]
  · rw [hStop, hStart, hOffset, Text.byteSize_append, Text.byteSize_append]

/-- In front of each token stands a blank stretch of the source. -/
theorem Reads.gap_before (h : Reads offset cs ts) (hSource : source = pre ++ cs)
    (hOffset : offset = Text.byteSize pre) :
    ∀ before t after, ts = before ++ t :: after →
      ∃ gap, Text.slice? source (endOf offset before) t.span.start = some gap ∧ Blanks false gap := by
  induction h generalizing pre with
  | blanks => simp
  | @token offset start stop gap text rest a kind ts hGap ha hAlone hStart hStop hRest ih =>
    intro before t after hSplit
    cases before with
    | nil =>
      obtain ⟨rfl, _⟩ := List.cons.inj hSplit
      refine ⟨gap, ?_, hGap⟩
      rw [endOf, hStart, hSource, ← List.append_assoc, hOffset]
      exact Text.slice?_append _ _ _
    | cons first before =>
      obtain ⟨rfl, hTail⟩ := List.cons.inj hSplit
      obtain ⟨hSource, hStop⟩ := source_behind hSource hOffset hStart hStop
      exact ih hSource hStop before t after hTail

/-- Behind the last token the source is blank. -/
theorem Reads.gap_behind (h : Reads offset cs ts) (hSource : source = pre ++ cs)
    (hOffset : offset = Text.byteSize pre) :
    ∃ gap, Text.slice? source (endOf offset ts) (Text.byteSize source) = some gap ∧
      Blanks true gap := by
  induction h generalizing pre with
  | @blanks offset gap hGap =>
    refine ⟨gap, ?_, hGap⟩
    have hSlice := Text.slice?_append pre gap []
    rw [List.append_nil] at hSlice
    rw [endOf, hSource, hOffset, Text.byteSize_append]
    exact hSlice
  | @token offset start stop gap text rest a kind ts hGap ha hAlone hStart hStop hRest ih =>
    obtain ⟨hSource, hStop⟩ := source_behind hSource hOffset hStart hStop
    exact ih hSource hStop

/-- The text of each token is that token when it is read alone. -/
theorem Reads.alone (h : Reads offset cs ts) (hSource : source = pre ++ cs)
    (hOffset : offset = Text.byteSize pre) :
    ∀ t ∈ ts, ∃ text, t.span.text? source = some text ∧
      tokenize text = ⟨[⟨t.kind, 0, Text.byteSize text⟩,
        ⟨.eof, Text.byteSize text, Text.byteSize text⟩], []⟩ := by
  induction h generalizing pre with
  | blanks => simp
  | @token offset start stop gap text rest a kind ts hGap ha hAlone hStart hStop hRest ih =>
    rintro t (_ | ⟨_, ht⟩)
    · refine ⟨a :: text, ?_, hAlone⟩
      have hSlice := Text.slice?_append (pre ++ gap) (a :: text) rest
      rw [Span.text?, hSource, hStop, hStart, hOffset, ← Text.byteSize_append]
      simpa using hSlice
    · obtain ⟨hSource, hStop⟩ := source_behind hSource hOffset hStart hStop
      exact ih hSource hStop t ht

end Slices

/-! ## Errors -/

/-- A fault names the first character of its cut, or its cut starts with a single byte, or all of
the cut is reported. -/
def Blames (a : Char) : Piece → Prop
  | .fault (.unexpectedCharacter c) => c = a
  | .fault .invalidEscape => a.utf8Size = 1
  | _ => True

theorem extent_of_blames {a : Char} {cause : LexError.Cause} (h : Blames a (.fault cause))
    (start stop : Nat) :
    cause.extent start stop = ⟨start, start + a.utf8Size⟩ ∨ cause.extent start stop = ⟨start, stop⟩ := by
  cases cause with
  | unexpectedCharacter c =>
    obtain rfl : c = a := h
    exact .inl rfl
  | invalidEscape =>
    rw [show a.utf8Size = 1 from h]
    exact .inl rfl
  | unterminatedString | invalidNumber => exact .inr rfl

theorem blames_int (a : Char) (base : Nat) (digits : List Char) (suffix : Option IntSuffix) :
    Blames a (intPiece base digits suffix) := by
  unfold intPiece
  split <;> trivial

theorem blames_number (a : Char) (cs : List Char) : Blames a (number a cs).piece := by
  unfold number
  dsimp only
  split
  · exact blames_int a _ _ _
  · split
    · exact blames_int a _ _ _
    · rw [decimalNumber_eq]
      unfold decimalRest
      dsimp only
      split
      · exact blames_int a _ _ _
      · trivial

theorem blames_quoted {a : Char} (h : a.utf8Size = 1) (opening : Nat) (cs : List Char) :
    Blames a (quoted opening cs).piece := by
  unfold quoted
  dsimp only
  split
  · dsimp only
    split
    · trivial
    · exact h
  · trivial

theorem blames_character (cs : List Char) : Blames '\'' (character cs).piece := by
  unfold character
  split
  · dsimp only
    split
    · trivial
    · rfl
  · unfold brokenCharacter
    split <;> rfl

theorem blames_marked {a : Char} (h : a.utf8Size = 1) (cs : List Char) :
    Blames a (marked a cs).piece := by
  fun_cases marked a cs with
  | case1 =>
    unfold verbatim
    dsimp only
    split <;> trivial
  | case2 => exact blames_quoted h 1 _
  | case3 | case5 => trivial
  | case4 | case6 | case7 => rfl

theorem blames_munch (a : Char) (cs : List Char) : Blames a (munch a cs).piece := by
  fun_cases munch a cs with
  | case1 | case3 | case4 | case8 | case9 => trivial
  | case2 => exact blames_number a cs
  | case5 _ _ _ _ ha =>
    obtain rfl := beq_iff_eq.mp ha
    exact blames_quoted rfl 0 cs
  | case6 _ _ _ _ _ ha =>
    obtain rfl := beq_iff_eq.mp ha
    exact blames_character cs
  | case7 _ _ _ _ _ _ ha =>
    apply blames_marked
    rw [Bool.or_eq_true, beq_iff_eq, beq_iff_eq] at ha
    rcases ha with rfl | rfl <;> rfl
  | case10 =>
    unfold punctuation
    split
    · trivial
    · rfl

/-- What is reported of a fault lies in its cut. -/
theorem cuts_extent {source pre cs : List Char} {a : Char} {cause : LexError.Cause} {stop : Nat}
    (hSource : source = pre ++ a :: cs) (h : (munch a cs).piece = .fault cause)
    (hStop : stop = Text.byteSize pre + a.utf8Size + Text.byteSize (cs.take (munch a cs).extra)) :
    (cause.extent (Text.byteSize pre) stop).Cuts source ∧
      (cause.extent (Text.byteSize pre) stop).start = Text.byteSize pre ∧
      (cause.extent (Text.byteSize pre) stop).stop ≤ stop := by
  obtain ⟨hCut, hSize⟩ := cut hSource (munch a cs).extra
  have hWidth := a.utf8Size_pos
  have hBlames : Blames a (.fault cause) := h ▸ blames_munch a cs
  rcases extent_of_blames hBlames (Text.byteSize pre) stop with hExtent | hExtent
  · rw [hExtent]
    refine ⟨⟨⟨pre, _, hSource, rfl⟩, ⟨pre ++ [a], cs, by simp [hSource], ?_⟩, ?_⟩, rfl, ?_⟩
    · rw [Text.byteSize_append]
      rfl
    · exact Nat.lt_add_of_pos_right hWidth
    · dsimp only
      omega
  · rw [hExtent]
    refine ⟨⟨⟨pre, _, hSource, rfl⟩, ⟨_, _, hCut, hStop.trans hSize⟩, ?_⟩, rfl, Nat.le_refl _⟩
    dsimp only
    omega

/-- Errors of the text that is left behind `pre`, apart from each other and from the tokens. -/
structure Result.Apart (source pre : List Char) (budget : Nat) (r : Result) : Prop where
  few : r.errors.length ≤ budget
  cuts : ∀ e ∈ r.errors, e.span.Cuts source
  after : ∀ e ∈ r.errors, Text.byteSize pre ≤ e.span.start
  sorted : r.errors.Pairwise fun x y => x.span.stop ≤ y.span.start
  apart : ∀ t ∈ r.tokens, ∀ e ∈ r.errors,
    t.span.stop ≤ e.span.start ∨ e.span.stop ≤ t.span.start

theorem Result.Apart.empty (source pre : List Char) (budget : Nat) :
    Result.Apart source pre budget ⟨[], []⟩ :=
  ⟨Nat.zero_le _, nofun, nofun, .nil, nofun⟩

section Apart

variable {source pre more : List Char} {budget : Nat} {r : Result}

theorem Result.Apart.later (h : r.Apart source (pre ++ more) budget) : r.Apart source pre budget := by
  refine ⟨h.few, h.cuts, fun e he => ?_, h.sorted, h.apart⟩
  have hAfter := h.after e he
  rw [Text.byteSize_append] at hAfter
  omega

theorem Result.Apart.token (h : r.Apart source pre budget) (kind : TokenKind) (start : Nat) :
    Result.Apart source pre budget ⟨⟨kind, start, Text.byteSize pre⟩ :: r.tokens, r.errors⟩ := by
  refine ⟨h.few, h.cuts, h.after, h.sorted, ?_⟩
  rintro t (_ | ⟨_, ht⟩) e he
  · exact .inl (h.after e he)
  · exact h.apart t ht e he

/-- An error in front of a text, with tokens and errors only behind it. -/
theorem Result.Apart.error {cause : LexError.Cause} {span : Span}
    (h : r.Apart source (pre ++ more) (budget - 1)) (hBudget : budget ≠ 0)
    (hTokens : ∀ t ∈ r.tokens, Behind source (pre ++ more) t) (hCuts : span.Cuts source)
    (hStart : span.start = Text.byteSize pre) (hStop : span.stop ≤ Text.byteSize (pre ++ more)) :
    Result.Apart source pre budget ⟨r.tokens, ⟨cause, span⟩ :: r.errors⟩ := by
  constructor
  · have hFew := h.few
    rw [List.length_cons]
    omega
  · rintro e (_ | ⟨_, he⟩)
    · exact hCuts
    · exact h.cuts e he
  · rintro e (_ | ⟨_, he⟩)
    · exact Nat.le_of_eq hStart.symm
    · exact h.later.after e he
  · apply List.pairwise_cons.mpr
    exact ⟨fun e he => Nat.le_trans hStop (h.after e he), h.sorted⟩
  · rintro t ht e (_ | ⟨_, he⟩)
    · exact .inr (Nat.le_trans hStop (hTokens t ht).after)
    · exact h.apart t ht e he

end Apart

theorem run_apart (source : List Char) (offset budget : Nat) (cs : List Char) :
    ∀ pre, source = pre ++ cs → offset = Text.byteSize pre →
      (run offset budget cs).Apart source pre budget := by
  fun_induction run offset budget cs with
  | case1 | case2 =>
    intro pre _ _
    exact .empty source pre _
  | case3 offset budget a cs hBudget m stop hBlank ih =>
    rintro pre hSource rfl
    obtain ⟨hCut, hStop⟩ := cut hSource m.extra
    exact (ih _ hCut hStop).later
  | case4 offset budget a cs hBudget m stop kind hKind r ih =>
    rintro pre hSource rfl
    obtain ⟨hCut, hStop⟩ := cut hSource m.extra
    have hToken := (ih _ hCut hStop).token kind (Text.byteSize pre)
    rw [← hStop] at hToken
    exact hToken.later
  | case5 offset budget a cs hBudget m stop cause hCause r ih =>
    rintro pre hSource rfl
    obtain ⟨hCut, hStop⟩ := cut hSource m.extra
    obtain ⟨hTokens, _⟩ := run_tokens source stop (budget - 1) (cs.drop m.extra) _ hCut hStop
    obtain ⟨hCuts, hFirst, hLast⟩ := cuts_extent hSource hCause (rfl : stop = _)
    exact (ih _ hCut hStop).error hBudget hTokens hCuts hFirst (Nat.le_trans hLast (Nat.le_of_eq hStop))

/-- Tokens and errors of a source: each stands over text of its own, and where there is no error
all other text is blank and each token is the same by itself. -/
structure Accounts (source : List Char) (ts : List Token) (errors : List LexError) : Prop where
  tokens_cut : ∀ t ∈ ts, t.span.Cuts source
  tokens_sorted : ts.Pairwise fun x y => x.span.stop ≤ y.span.start
  errors_few : errors.length ≤ 20
  errors_cut : ∀ e ∈ errors, e.span.Cuts source
  errors_sorted : errors.Pairwise fun x y => x.span.stop ≤ y.span.start
  apart : ∀ t ∈ ts, ∀ e ∈ errors, t.span.stop ≤ e.span.start ∨ e.span.stop ≤ t.span.start
  gap_before : errors = [] → ∀ before t after, ts = before ++ t :: after →
    ∃ gap, Text.slice? source (endOf 0 before) t.span.start = some gap ∧ Blanks false gap
  gap_behind : errors = [] →
    ∃ gap, Text.slice? source (endOf 0 ts) (Text.byteSize source) = some gap ∧ Blanks true gap
  alone : errors = [] → ∀ t ∈ ts, ∃ text, t.span.text? source = some text ∧
    tokenize text = ⟨[⟨t.kind, 0, Text.byteSize text⟩,
      ⟨.eof, Text.byteSize text, Text.byteSize text⟩], []⟩

theorem tokenize_accounts (source : List Char) :
    ∃ ts, (tokenize source).tokens = ts ++ [⟨.eof, Text.byteSize source, Text.byteSize source⟩] ∧
      Accounts source ts (tokenize source).errors := by
  obtain ⟨hTokens, hSorted⟩ := run_tokens source 0 maxErrors source [] rfl rfl
  have hApart := run_apart source 0 maxErrors source [] rfl rfl
  have reads : (tokenize source).errors = [] → Reads 0 source (run 0 maxErrors source).tokens :=
    reads_run (by decide)
  have hSource : source = [] ++ source := rfl
  refine ⟨(run 0 maxErrors source).tokens, rfl, ?_⟩
  constructor
  case tokens_cut => exact fun t ht => ⟨(hTokens t ht).start, (hTokens t ht).stop, (hTokens t ht).width⟩
  case tokens_sorted => exact hSorted
  case errors_few => exact hApart.few
  case errors_cut => exact hApart.cuts
  case errors_sorted => exact hApart.sorted
  case apart => exact hApart.apart
  case gap_before => exact fun hFree => (reads hFree).gap_before hSource rfl
  case gap_behind => exact fun hFree => (reads hFree).gap_behind hSource rfl
  case alone => exact fun hFree => (reads hFree).alone hSource rfl

end Lexer

end Stackable
