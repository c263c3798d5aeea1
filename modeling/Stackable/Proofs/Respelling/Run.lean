import Stackable.Proofs.Parser.Halting
import Stackable.Proofs.Parser.Steps
import Stackable.Proofs.Respelling.Lookahead

/-!
# Reading a text with a respelled word

`Tracks p q s f M` compares a run of `p` with the run of `q` over the respelled tokens: if `p` meets
no error, `q` ends in the respelled state with the respelled result. The two part only at the word
itself. There `q` can follow if the word creates an array of one dimension that is the whole initial
value of a declarator, and `M` says of a result that such a declarator is in it. A word that was
read and is not found in the result has been read as something else; no promise is made then.
-/

set_option autoImplicit false

namespace Stackable

open ParseState Parse

def Respelling.state (v : Respelling) (s : ParseState) : ParseState :=
  { s with
    rest := s.rest.map v.token
    prevEnd := v.shift s.prevEnd
    endOffset := v.shift s.endOffset }

@[simp] theorem Respelling.current_state (v : Respelling) (s : ParseState) :
    (v.state s).current = v.token s.current := by
  unfold ParseState.current Respelling.state
  cases s.rest with
  | nil => simp [token, kind, span, TokenKind.isKeyword]
  | cons x l => rfl

/-- The tokens of a text in which a word is respelled. -/
structure RespelledText extends Respelling where
  tokens : List Token
  /-- The number of tokens from the word on. -/
  left : Nat
  position : ∀ x l, (x :: l) <:+ tokens → (x.span.start = toRespelling.word ↔ l.length + 1 = left)

namespace RespelledText

variable (c : RespelledText) {α α' β β' : Type} {s t : ParseState}

/-- The word is read on the way from `s` to `t`. -/
def Within (s t : ParseState) : Prop := t.rest.length < c.left ∧ c.left ≤ s.rest.length

/-- The word is a `new` behind a `=`, and what the creation consists of stands behind it. -/
def Fits : Prop :=
  (∃ x y l, (x :: y :: l) <:+ c.tokens ∧ x.kind = .punct .eq ∧ x.span = c.initial.mark ∧
    y.kind = .keyword .newKw ∧ y.span.start = c.word) ∧
  ∀ n ∈ (Node.expr c.created).descendants, n.span.start ≠ c.word

def Tracks (p : Parse α) (q : Parse β) (s : ParseState) (f : α → β) (M : α → Prop) : Prop :=
  s.rest <:+ c.tokens →
    match p s with
    | .ok a t => s.LeadsTo t ∧ (t.errors = s.errors →
        (M a → c.Within s t ∧ c.Fits) ∧
        (c.Fits → (c.Within s t → M a) → q (c.state s) = .ok (f a) (c.state t)))
    | .error _ _ => True

/-- As `Tracks`, for rules that read no declarator. -/
abbrev Plain (p : Parse α) (q : Parse β) (s : ParseState) (f : α → β) : Prop :=
  c.Tracks p q s f fun _ => False

variable {c}

theorem Tracks.pure {a : α} {b : β} {f : α → β} {M : α → Prop} (h : b = f a) (hM : ¬M a) :
    c.Tracks (pure a) (pure b) s f M := by
  intro _
  refine ⟨.refl s, fun _ => ⟨fun ha => absurd ha hM, fun _ _ => ?_⟩⟩
  rw [h]
  rfl

theorem Tracks.follow {p : Parse α} {q : Parse β} {f : α → β} {M : α → Prop} {a : α}
    (h : c.Tracks p q s f M) (hs : s.rest <:+ c.tokens) (hp : p s = .ok a t)
    (same : t.errors = s.errors) (fits : c.Fits) (found : c.Within s t → M a) :
    q (c.state s) = .ok (f a) (c.state t) := by
  have h := h hs
  rw [hp] at h
  exact (h.2 same).2 fits found

theorem Tracks.mono {p : Parse α} {q : Parse β} {f : α → β} {M N : α → Prop}
    (hp : c.Tracks p q s f M) (h : ∀ a, N a → M a) : c.Tracks p q s f N := by
  intro hs
  have hp := hp hs
  split
  next a t hps =>
    rw [hps] at hp
    obtain ⟨lead, hp⟩ := hp
    refine ⟨lead, fun same => ⟨fun ha => (hp same).1 (h a ha), fun fits hw => ?_⟩⟩
    exact (hp same).2 fits fun hIn => h a (hw hIn)
  next => trivial

/-- What the second part need not account for is what the first part has found. -/
theorem Tracks.bind_run {p : Parse α} {q : Parse α'} {k : α → Parse β} {k' : α' → Parse β'}
    {f : α → α'} {g : β → β'} {L : α → Prop} {M : β → Prop} (hp : c.Tracks p q s f L)
    (hk : ∀ a t, p s = .ok a t → s.LeadsTo t →
      c.Tracks (k a) (k' (f a)) t g fun b => M b ∧ ¬L a) :
    c.Tracks (p >>= k) (q >>= k') s g M := by
  intro hs
  have hp := hp hs
  cases hps : p s with
  | error e t =>
    rw [bind_of_error hps]
    trivial
  | ok a t =>
    rw [hps] at hp
    obtain ⟨hst, hp⟩ := hp
    have hk := hk a t hps hst (hst.suffix.trans hs)
    rw [bind_of_ok hps]
    cases hkt : k a t with
    | error e u => trivial
    | ok b u =>
      rw [hkt] at hk
      obtain ⟨htu, hk⟩ := hk
      refine ⟨hst.trans htu, fun same => ?_⟩
      have sameFirst : t.errors = s.errors :=
        Classical.byContradiction fun hne => hst.ne_of_ne_left htu hne same
      have sameSecond : u.errors = t.errors := same.trans sameFirst.symm
      obtain ⟨findFirst, follow⟩ := hp sameFirst
      obtain ⟨findSecond, followSecond⟩ := hk sameSecond
      have hLengthFirst := hst.length_le
      have hLengthSecond := htu.length_le
      constructor
      · intro hb
        by_cases ha : L a
        · obtain ⟨⟨hlt, hle⟩, fits⟩ := findFirst ha
          exact ⟨⟨Nat.lt_of_le_of_lt hLengthSecond hlt, hle⟩, fits⟩
        · obtain ⟨⟨hlt, hle⟩, fits⟩ := findSecond ⟨hb, ha⟩
          exact ⟨⟨hlt, Nat.le_trans hle hLengthFirst⟩, fits⟩
      · intro fits found
        -- the word is read by one part only, and only that part can find it
        have foundFirst : c.Within s t → L a := by
          intro hIn
          refine Classical.byContradiction fun ha => ?_
          have hb := found ⟨Nat.lt_of_le_of_lt hLengthSecond hIn.1, hIn.2⟩
          exact Nat.not_le.mpr hIn.1 (findSecond ⟨hb, ha⟩).1.2
        have foundSecond : c.Within t u → M b ∧ ¬L a := by
          intro hIn
          refine ⟨found ⟨hIn.1, Nat.le_trans hIn.2 hLengthFirst⟩, fun ha => ?_⟩
          exact Nat.not_le.mpr (findFirst ha).1.1 hIn.2
        rw [bind_of_ok (follow fits foundFirst), followSecond fits foundSecond]

theorem Tracks.bind {p : Parse α} {q : Parse α'} {k : α → Parse β} {k' : α' → Parse β'}
    {f : α → α'} {g : β → β'} {L : α → Prop} {M : β → Prop} (hp : c.Tracks p q s f L)
    (hk : ∀ a t, s.LeadsTo t → c.Tracks (k a) (k' (f a)) t g fun b => M b ∧ ¬L a) :
    c.Tracks (p >>= k) (q >>= k') s g M :=
  hp.bind_run fun a t _ hst => hk a t hst

theorem Plain.bind {p : Parse α} {q : Parse α'} {k : α → Parse β} {k' : α' → Parse β'}
    {f : α → α'} {g : β → β'} {M : β → Prop} (hp : c.Plain p q s f)
    (hk : ∀ a t, s.LeadsTo t → c.Tracks (k a) (k' (f a)) t g M) :
    c.Tracks (p >>= k) (q >>= k') s g M :=
  Tracks.bind hp fun a t hst => (hk a t hst).mono fun _ h => h.1

theorem Tracks.map {p : Parse α} {q : Parse α'} {m : α → β} {m' : α' → β'} {f : α → α'}
    {g : β → β'} {L : α → Prop} {M : β → Prop} (hp : c.Tracks p q s f L)
    (h : ∀ a, m' (f a) = g (m a)) (hM : ∀ a, M (m a) → L a) :
    c.Tracks (m <$> p) (m' <$> q) s g M := by
  rw [← bind_pure_comp, ← bind_pure_comp]
  exact hp.bind fun a t _ => .pure (h a) fun ⟨ha, hn⟩ => hn (hM a ha)

theorem Tracks.ite {cond : Prop} [Decidable cond] {p p' : Parse α} {q q' : Parse β} {f : α → β}
    {M : α → Prop} (yes : cond → c.Tracks p q s f M) (no : ¬cond → c.Tracks p' q' s f M) :
    c.Tracks (if cond then p else p') (if cond then q else q') s f M := by
  split
  · exact yes ‹_›
  · exact no ‹_›

/-- Both branches go on alike with what they give. -/
theorem Tracks.join {cond : Prop} [Decidable cond] {p p' : Parse α} {q q' : Parse α'}
    {k : α → Parse β} {k' : α' → Parse β'} {f : α → α'} {g : β → β'} {L : α → Prop} {M : β → Prop}
    (yes : cond → c.Tracks p q s f L) (no : ¬cond → c.Tracks p' q' s f L)
    (rest : ∀ a t, s.LeadsTo t → c.Tracks (k a) (k' (f a)) t g fun b => M b ∧ ¬L a) :
    c.Tracks (if cond then p >>= k else p' >>= k) (if cond then q >>= k' else q' >>= k') s g M :=
  .ite (fun h => (yes h).bind rest) fun h => (no h).bind rest

theorem Plain.join {cond : Prop} [Decidable cond] {p p' : Parse α} {q q' : Parse α'}
    {k : α → Parse β} {k' : α' → Parse β'} {f : α → α'} {g : β → β'} {M : β → Prop}
    (yes : cond → c.Plain p q s f) (no : ¬cond → c.Plain p' q' s f)
    (rest : ∀ a t, s.LeadsTo t → c.Tracks (k a) (k' (f a)) t g M) :
    c.Tracks (if cond then p >>= k else p' >>= k) (if cond then q >>= k' else q' >>= k') s g M :=
  .ite (fun h => Plain.bind (yes h) rest) fun h => Plain.bind (no h) rest

/-- One branch does something first, and both go on alike. -/
theorem Tracks.optional {cond : Prop} [Decidable cond] {p k : Parse β} {q k' : Parse β'} {g : β → β'}
    {M : β → Prop} (rest : ∀ t, s.LeadsTo t → c.Tracks k k' t g M)
    (yes : cond → (∀ t, s.LeadsTo t → c.Tracks k k' t g M) → c.Tracks p q s g M) :
    c.Tracks (if cond then p else k) (if cond then q else k') s g M :=
  .ite (fun h => yes h rest) fun _ => rest s (.refl s)

theorem left_of_word (hs : s.rest <:+ c.tokens) (h : s.current.span.start = c.word)
    (hRest : 0 < s.rest.length) : c.left = s.rest.length := by
  unfold ParseState.current at h
  cases hEq : s.rest with
  | nil => simp [hEq] at hRest
  | cons x l =>
    rw [hEq] at hs h
    exact ((c.position x l hs).mp h).symm

/-- A rule that reads the word and no declarator has read the word as something else. -/
theorem Tracks.of_word {p : Parse α} {q : Parse β} {f : α → β} (h : s.current.span.start = c.word)
    (hp : Ends p s fun _ t => t.rest.length < s.rest.length) : c.Plain p q s f := by
  intro hs
  split
  next a t hps =>
    obtain ⟨hLead, hShorter⟩ := (ends_of_ok hps).mp hp
    have hLeft := left_of_word hs h (Nat.zero_lt_of_lt hShorter)
    refine ⟨hLead, fun _ => ⟨False.elim, fun _ found => (found ?_).elim⟩⟩
    exact ⟨hLeft ▸ hShorter, Nat.le_of_eq hLeft⟩
  next => trivial

theorem Tracks.of_fits {p : Parse α} {q : Parse β} {f : α → β}
    (hp : c.Fits → s.rest <:+ c.tokens → c.Plain p q s f) (lead : Ends p s fun _ _ => True) :
    c.Plain p q s f := by
  intro hs
  split
  next a t hps =>
    refine ⟨((ends_of_ok hps).mp lead).1, fun same => ⟨False.elim, fun fits found => ?_⟩⟩
    have hp := hp fits hs hs
    rw [hps] at hp
    exact (hp.2 same).2 fits found
  next => trivial

/-- The token that comes next is read alike, or it is the word. -/
theorem Tracks.by_kind {p : Parse α} {q : Parse β} {f : α → β} {M : α → Prop}
    (same : (c.token s.current).kind = s.current.kind → c.Tracks p q s f M)
    (word : s.current.kind = .keyword .newKw →
      (c.token s.current).kind = .keyword .stackallocKw → s.current.span.start = c.word →
      c.Tracks p q s f M) : c.Tracks p q s f M := by
  rcases c.kind_cases s.current with hk | ⟨hStart, hNew, hk⟩
  · exact same hk
  · exact word hNew hk hStart

/-- Behind anything but a `=` the word does not come. -/
theorem kind_behind (fits : c.Fits) {x : Token} {l : List Token} (hs : (x :: l) <:+ c.tokens)
    (hx : x.kind ≠ .punct .eq) : Tokens.kind (l.map c.token) = Tokens.kind l := by
  cases l with
  | nil => rfl
  | cons y l =>
    rcases c.kind_cases y with hk | ⟨hStart, _, _⟩
    · exact hk
    · obtain ⟨⟨x', y', l', hs', hx', _, _, hStart'⟩, _⟩ := fits
      have hLeft := (c.position y l ((List.suffix_cons x _).trans hs)).mp hStart
      have hLeft' := (c.position y' l' ((List.suffix_cons x' _).trans hs')).mp hStart'
      have hLength : (x :: y :: l).length = (x' :: y' :: l').length := by
        simp only [List.length_cons]
        omega
      have hEq := (List.suffix_of_suffix_length_le hs hs' (Nat.le_of_eq hLength)).eq_of_length hLength
      cases hEq
      exact absurd hx' hx

theorem iterate_tracks {body : α → Parse (α ⊕ β)} {body' : α' → Parse (α' ⊕ β')} {f : α → α'}
    {g : β → β'} {A : α → Prop} {M : β → Prop}
    (step : ∀ a t, c.Tracks (body a) (body' (f a)) t (Sum.map f g)
      fun r => Sum.elim A M r ∧ ¬A a) (n : Nat) (a : α) (s : ParseState) :
    c.Tracks (iterate body n a) (iterate body' n (f a)) s g fun b => M b ∧ ¬A a := by
  induction n generalizing a s with
  | zero => exact fun _ => trivial
  | succ n ih =>
    refine (step a s).bind fun r t _ => ?_
    cases r with
    | inl next => exact (ih next t).mono fun b ⟨⟨hb, hna⟩, hn⟩ => ⟨hb, fun h => hn ⟨h, hna⟩⟩
    | inr result => exact .pure rfl fun ⟨hb, hn⟩ => hn hb

/-- What a repetition has found is told from what it has gathered so far. -/
theorem loop_tracks {body : α → Parse (α ⊕ β)} {body' : α' → Parse (α' ⊕ β')} {f : α → α'}
    {g : β → β'} {M : β → Prop} {a : α} {a' : α'} (A : α → Prop) (start : ¬A a) (ha : a' = f a)
    (step : ∀ a t, c.Tracks (body a) (body' (f a)) t (Sum.map f g)
      fun r => Sum.elim A M r ∧ ¬A a) : c.Tracks (loop body a) (loop body' a') s g M := by
  have h := iterate_tracks step (s.rest.length + 1) a s
  intro hs
  have h := h hs
  change match iterate body (s.rest.length + 1) a s with
    | .ok a t => _
    | .error _ _ => True
  split
  next b t hRun =>
    rw [hRun] at h
    obtain ⟨lead, h⟩ := h
    refine ⟨lead, fun same => ⟨fun hb => (h same).1 ⟨hb, start⟩, fun fits found => ?_⟩⟩
    have follow := (h same).2 fits fun hIn => ⟨found hIn, start⟩
    change iterate body' ((s.rest.map c.token).length + 1) a' (c.state s) = _
    rw [List.length_map, ha]
    exact follow
  next => trivial

theorem loop_plain {body : α → Parse (α ⊕ β)} {body' : α' → Parse (α' ⊕ β')} {f : α → α'}
    {g : β → β'} {a : α} {a' : α'} (ha : a' = f a)
    (step : ∀ a t, c.Plain (body a) (body' (f a)) t (Sum.map f g)) :
    c.Plain (loop body a) (loop body' a') s g := by
  refine loop_tracks (fun _ => False) id ha fun a t => (step a t).mono fun r ⟨h, _⟩ => ?_
  cases r <;> exact h

theorem Tracks.of_eq {p : Parse α} {q : Parse α'} {a : α} {a' : α'} {k : α → Parse β}
    {k' : α' → Parse β'} {g : β → β'} {M : β → Prop} (hp : p s = .ok a s)
    (hq : q (c.state s) = .ok a' (c.state s)) (h : c.Tracks (k a) (k' a') s g M) :
    c.Tracks (p >>= k) (q >>= k') s g M := by
  unfold Tracks at h ⊢
  rwa [bind_of_ok hp, bind_of_ok hq]

section Reading

variable {g : β → β'} {M : β → Prop}

theorem Tracks.current {k : Token → Parse β} {k' : Token → Parse β'}
    (h : c.Tracks (k s.current) (k' (c.token s.current)) s g M) :
    c.Tracks (current >>= k) (current >>= k') s g M := by
  refine .of_eq rfl ?_ h
  rw [← c.current_state]
  rfl

theorem Tracks.currentKind {k : TokenKind → Parse β} {k' : TokenKind → Parse β'}
    (h : c.Tracks (k s.current.kind) (k' (c.token s.current).kind) s g M) :
    c.Tracks (currentKind >>= k) (currentKind >>= k') s g M := by
  refine .of_eq rfl ?_ h
  rw [← c.current_state]
  rfl

theorem Tracks.currentStart {k : Nat → Parse β} {k' : Nat → Parse β'}
    (h : c.Tracks (k s.current.span.start) (k' (c.shift s.current.span.start)) s g M) :
    c.Tracks (currentStart >>= k) (currentStart >>= k') s g M := by
  refine .of_eq rfl ?_ h
  change EStateM.Result.ok (c.state s).current.span.start _ = _
  rw [c.current_state]
  rfl

theorem Tracks.peekKind {n : Nat} {k : TokenKind → Parse β} {k' : TokenKind → Parse β'}
    (h : c.Tracks (k (Tokens.kind (s.rest.drop n)))
      (k' (Tokens.kind ((s.rest.drop n).map c.token))) s g M) :
    c.Tracks (peekKind n >>= k) (peekKind n >>= k') s g M := by
  refine .of_eq rfl ?_ h
  rw [List.map_drop]
  rfl

theorem Tracks.remaining {k : List Token → Parse β} {k' : List Token → Parse β'}
    (h : c.Tracks (k s.rest) (k' (s.rest.map c.token)) s g M) :
    c.Tracks (remaining >>= k) (remaining >>= k') s g M := .of_eq rfl rfl h

theorem Tracks.spanFrom {start start' : Nat} {k : Span → Parse β} {k' : Span → Parse β'}
    (h : c.Tracks (k ⟨start, s.prevEnd⟩) (k' ⟨start', c.shift s.prevEnd⟩) s g M) :
    c.Tracks (spanFrom start >>= k) (spanFrom start' >>= k') s g M := .of_eq rfl rfl h

theorem Tracks.pendingGt {k : Bool → Parse β} {k' : Bool → Parse β'}
    (h : c.Tracks (k s.pendingGt) (k' s.pendingGt) s g M) :
    c.Tracks (pendingGt >>= k) (pendingGt >>= k') s g M := .of_eq rfl rfl h

theorem Tracks.check {p : Punct} {k : Bool → Parse β} {k' : Bool → Parse β'}
    (h : c.Tracks (k (s.current.kind.isPunct p)) (k' (s.current.kind.isPunct p)) s g M) :
    c.Tracks (check p >>= k) (check p >>= k') s g M := by
  refine .of_eq rfl ?_ h
  rw [← c.isPunct_token, ← c.current_state]
  rfl

theorem Tracks.checkWord {w : Keyword} {k : Bool → Parse β} {k' : Bool → Parse β'}
    (h : c.Tracks (k (s.current.kind.isKeyword w)) (k' ((c.token s.current).kind.isKeyword w)) s g
      M) : c.Tracks (checkWord w >>= k) (checkWord w >>= k') s g M := by
  refine .of_eq rfl ?_ h
  rw [← c.current_state]
  rfl

theorem Tracks.checkName {name : String} {k : Bool → Parse β} {k' : Bool → Parse β'}
    (h : c.Tracks (k (s.current.kind.isName name)) (k' (s.current.kind.isName name)) s g M) :
    c.Tracks (checkName name >>= k) (checkName name >>= k') s g M := by
  refine .of_eq rfl ?_ h
  rw [← c.isName_token, ← c.current_state]
  rfl

theorem Tracks.atEnd {k : Bool → Parse β} {k' : Bool → Parse β'}
    (h : c.Tracks (k s.current.kind.isEof) (k' s.current.kind.isEof) s g M) :
    c.Tracks (atEnd >>= k) (atEnd >>= k') s g M := by
  refine .of_eq rfl ?_ h
  rw [← c.isEof_token, ← c.current_state]
  rfl

theorem Tracks.atDefaultLabel {k : Bool → Parse β} {k' : Bool → Parse β'}
    (h : c.Tracks
      (k (s.current.kind.isKeyword .defaultKw && (Tokens.kind (s.rest.drop 1)).isPunct .colon))
      (k' (s.current.kind.isKeyword .defaultKw && (Tokens.kind (s.rest.drop 1)).isPunct .colon))
      s g M) : c.Tracks (atDefaultLabel >>= k) (atDefaultLabel >>= k') s g M := by
  refine .of_eq rfl ?_ h
  rw [← c.isKeyword_token _ (w := .defaultKw) (by decide) (by decide), ← c.isPunct_map,
    ← c.current_state, List.map_drop]
  rfl

end Reading

theorem failAt_tracks {cause : ParseError.Cause} {span : Span} {q : Parse β} {f : α → β}
    {M : α → Prop} : c.Tracks (failAt cause span) q s f M := fun _ => trivial

theorem failExpected_tracks {what : Expected} {q : Parse β} {f : α → β} {M : α → Prop} :
    c.Tracks (failExpected what) q s f M := fun _ => trivial

theorem attempt_bind {p : Parse α} {k : Except ParseError α → Parse β} {a : α}
    (h : p s = .ok a t) : (attempt p >>= k) s = (p >>= fun a => k (.ok a)) s := by
  rw [bind_of_ok (attempt_of_ok h), bind_of_ok h]

theorem exists_eq_ok_of_bind {p : Parse α} {k : α → Parse β} {b : β} (h : (p >>= k) s = .ok b t) :
    ∃ a u, p s = .ok a u := by
  obtain ⟨a, u, hp, _⟩ := bind_eq_ok.mp h
  exact ⟨a, u, hp⟩

/-- After an error that was kept nothing is promised. -/
theorem attempt_tracks {p : Parse α} {q : Parse α'} {k : Except ParseError α → Parse β}
    {k' : Except ParseError α' → Parse β'} {f : α → α'} {g : β → β'} {L : α → Prop} {M : β → Prop}
    (hp : c.Tracks p q s f L) (lead : Ends p s fun _ _ => True)
    (ok : ∀ a t, c.Tracks (k (.ok a)) (k' (.ok (f a))) t g fun b => M b ∧ ¬L a)
    (error : ∀ e t, Ends (k (.error e)) t fun _ u => u.errors ≠ t.errors) :
    c.Tracks (attempt p >>= k) (attempt q >>= k') s g M := by
  intro hs
  cases hps : p s with
  | ok a t =>
    have hBind : c.Tracks (p >>= fun a => k (.ok a)) (q >>= fun a => k' (.ok a)) s g M :=
      hp.bind fun a t _ => ok a t
    have h := hBind hs
    rw [attempt_bind hps]
    split
    next b u hRun =>
      rw [hRun] at h
      refine ⟨h.1, fun same => ⟨(h.2 same).1, fun fits found => ?_⟩⟩
      have follow := (h.2 same).2 fits found
      obtain ⟨a', t', hq⟩ := exists_eq_ok_of_bind follow
      rw [attempt_bind hq, follow]
    next => trivial
  | error e t =>
    have hst := (ends_of_error hps).mp lead
    rw [bind_of_ok (attempt_of_error hps)]
    split
    next b u hRun =>
      obtain ⟨htu, hNe⟩ := (ends_of_ok hRun).mp (error e t)
      refine ⟨hst.trans htu, fun same => ?_⟩
      exact absurd same (hst.ne_of_ne_right htu hNe)
    next => trivial

/-! ## Reading tokens -/

theorem advance_state {x : Token} (h : advance s = .ok x t) :
    advance (c.state s) = .ok (c.token x) (c.state t) := by
  rcases advance_cases s with ⟨hEof, hRun⟩ | ⟨y, l, hRest, hy, hRun⟩
  · rw [hRun] at h
    cases h
    rcases advance_cases (c.state s) with ⟨_, hRun'⟩ | ⟨y, l, hRest, hy, _⟩
    · rw [hRun', c.current_state]
    · -- the respelled token would be the end of the text as well
      rw [← c.isEof_token, ← c.current_state, ParseState.current, hRest, List.headD_cons, hy] at hEof
      cases hEof
  · rw [hRun] at h
    cases h
    rcases advance_cases (c.state s) with ⟨hEof, _⟩ | ⟨y', l', hRest', _, hRun'⟩
    · rw [c.current_state, c.isEof_token, ParseState.current, hRest, List.headD_cons, hy] at hEof
      cases hEof
    · rw [hRun']
      change s.rest.map c.token = _ at hRest'
      rw [hRest, List.map_cons] at hRest'
      obtain ⟨rfl, rfl⟩ := List.cons.inj hRest'
      rfl

theorem advance_tracks (s : ParseState) : c.Plain advance advance s c.token := by
  intro _
  split
  next x t hRun =>
    have lead := (ends_of_ok hRun).mp (advance_ends s)
    exact ⟨lead.1, fun _ => ⟨False.elim, fun _ _ => advance_state hRun⟩⟩
  next => trivial

theorem skip_tracks {n : Nat} (h : Tokens.Inner (s.rest.take n)) :
    c.Plain (skip n) (skip n) s fun u => u := by
  intro _
  refine ⟨(skip_ends h).1, fun _ => ⟨False.elim, fun _ _ => ?_⟩⟩
  change EStateM.Result.ok () _ = _
  congr 1
  simp only [Respelling.state, ParseState.mk.injEq, List.map_drop, true_and, and_true]
  rw [← List.map_take, List.getLast?_map]
  cases (s.rest.take n).getLast? <;> rfl

theorem setPendingGt_tracks (b : Bool) (s : ParseState) :
    c.Plain (setPendingGt b) (setPendingGt b) s fun u => u :=
  fun _ => ⟨(setPendingGt_ends b s).1, fun _ => ⟨False.elim, fun _ _ => rfl⟩⟩

theorem freshId_tracks (s : ParseState) : c.Plain freshId freshId s fun id => id :=
  fun _ => ⟨⟨(LeadsTo.refl s).read, Nat.le_succ _, List.prefix_rfl, rfl⟩, fun _ =>
    ⟨False.elim, fun _ _ => rfl⟩⟩

theorem accept_tracks (p : Punct) (s : ParseState) :
    c.Plain (accept p) (accept p) s fun b => b := by
  unfold accept
  refine .check (.ite (fun _ => ?_) fun _ => .pure rfl id)
  exact (advance_tracks s).bind fun _ _ _ => .pure rfl id

theorem acceptWord_tracks_of_kind (w : Keyword) (h : (c.token s.current).kind = s.current.kind) :
    c.Plain (acceptWord w) (acceptWord w) s fun b => b := by
  unfold acceptWord
  refine .checkWord ?_
  rw [h]
  refine .ite (fun _ => ?_) fun _ => .pure rfl id
  exact (advance_tracks s).bind fun _ _ _ => .pure rfl id

theorem acceptWord_tracks {w : Keyword} (hNew : w ≠ .newKw) (hStack : w ≠ .stackallocKw)
    (s : ParseState) : c.Plain (acceptWord w) (acceptWord w) s fun b => b := by
  unfold acceptWord
  refine .checkWord ?_
  rw [c.isKeyword_token _ hNew hStack]
  refine .ite (fun _ => ?_) fun _ => .pure rfl id
  exact (advance_tracks s).bind fun _ _ _ => .pure rfl id

theorem expect_tracks (p : Punct) (s : ParseState) :
    c.Plain (expect p) (expect p) s fun u => u := by
  unfold expect
  refine (accept_tracks p s).bind fun b t _ => ?_
  exact .ite (fun _ => .pure rfl id) fun _ => failExpected_tracks

theorem expectWord_tracks (w : Keyword) (s : ParseState) :
    c.Plain (expectWord w) (expectWord w) s fun u => u := by
  refine .by_kind (fun hk => ?_) fun _ _ hs => ?_
  · unfold expectWord
    refine (acceptWord_tracks_of_kind w hk).bind fun b t _ => ?_
    exact .ite (fun _ => .pure rfl id) fun _ => failExpected_tracks
  · exact .of_word hs ((expectWord_ends w s).mono fun _ _ h => h.moves)

theorem expectName_tracks (s : ParseState) : c.Plain expectName expectName s fun n => n := by
  unfold expectName
  refine .currentKind (.by_kind (fun hk => ?_) fun hNew _ _ => ?_)
  · rw [hk]
    split
    · exact (advance_tracks s).bind fun _ _ _ => .pure rfl id
    · exact failExpected_tracks
  · rw [hNew]
    exact failExpected_tracks

theorem expectClosingAngle_tracks (s : ParseState) :
    c.Plain expectClosingAngle expectClosingAngle s fun u => u := by
  unfold expectClosingAngle
  refine .pendingGt (.ite (fun _ => setPendingGt_tracks false s) fun _ => ?_)
  refine (accept_tracks .gt s).bind fun b t _ => .ite (fun _ => .pure rfl id) fun _ => ?_
  refine (accept_tracks .gtGt t).bind fun b u _ => ?_
  exact .ite (fun _ => setPendingGt_tracks true u) fun _ => failExpected_tracks

/-- What one more item makes a list hold is in the item. -/
theorem not_found_snoc {L : α → Prop} {l : List α} {x : α} :
    ¬(((∃ y ∈ l ++ [x], L y) ∧ ¬∃ y ∈ l, L y) ∧ ¬L x) := by
  rintro ⟨⟨⟨y, hy, hLy⟩, hl⟩, hx⟩
  rcases List.mem_append.mp hy with hy | hy
  · exact hl ⟨y, hy, hLy⟩
  · exact hx (List.mem_singleton.mp hy ▸ hLy)

theorem commaSeparated_tracks {item : Parse α} {item' : Parse α'} {f : α → α'} {L : α → Prop}
    (h : ∀ t, c.Tracks item item' t f L) (s : ParseState) :
    c.Tracks (commaSeparated item) (commaSeparated item') s (List.map f) fun l => ∃ x ∈ l, L x := by
  refine loop_tracks (f := List.map f) (fun l => ∃ x ∈ l, L x) (by simp) rfl fun l t => ?_
  refine (h t).bind fun x u _ => ?_
  refine (accept_tracks .comma u).bind fun b w _ => ?_
  exact .ite (fun _ => .pure (by simp) not_found_snoc) fun _ => .pure (by simp) not_found_snoc

theorem commaSeparated_plain {item : Parse α} {item' : Parse α'} {f : α → α'}
    (h : ∀ t, c.Plain item item' t f) (s : ParseState) :
    c.Plain (commaSeparated item) (commaSeparated item') s (List.map f) :=
  (commaSeparated_tracks h s).mono fun _ => False.elim

theorem countCommas_tracks (s : ParseState) : c.Plain countCommas countCommas s fun n => n := by
  refine loop_plain (f := fun n => n) rfl fun n t => ?_
  refine (accept_tracks .comma t).bind fun b u _ => ?_
  exact .ite (fun _ => .pure rfl id) fun _ => .pure rfl id

theorem skipAttributes_tracks (s : ParseState) :
    c.Plain skipAttributes skipAttributes s fun u => u := by
  refine loop_plain (f := fun u => u) rfl fun _ t => ?_
  refine .check (.ite (fun _ => ?_) fun _ => .pure rfl id)
  refine (advance_tracks t).bind fun opening u _ => .remaining ?_
  rw [c.toClosingBracket_map]
  refine (skip_tracks (Tokens.inner_toClosingBracket 1 u.rest)).bind fun _ w _ => ?_
  exact .ite (fun _ => .pure rfl id) fun _ => failAt_tracks

theorem skipConstraints_tracks (s : ParseState) :
    c.Plain skipConstraints skipConstraints s fun u => u := by
  unfold skipConstraints
  refine .checkName (.ite (fun _ => .remaining ?_) fun _ => .pure rfl id)
  rw [c.toBody_map]
  exact skip_tracks (Tokens.inner_toBody s.rest)

theorem finishExpr_tracks {start : Nat} {kind kind' : ExprKind Expr}
    (h : kind' = c.exprKind start kind) :
    c.Plain (finishExpr start kind) (finishExpr (c.shift start) kind') s c.expr := by
  unfold finishExpr
  refine (freshId_tracks s).bind fun n t _ => .spanFrom ?_
  exact .pure (by rw [h]; rfl) id

theorem finishStmt_tracks {start : Nat} {kind kind' : StmtKind Stmt} {M : Stmt → Prop}
    (h : kind' = c.stmtKind kind) (hM : ∀ id span, ¬M ⟨id, kind, span⟩) :
    c.Tracks (finishStmt start kind) (finishStmt (c.shift start) kind') s c.stmt M := by
  unfold finishStmt
  refine (freshId_tracks s).bind fun n t _ => .spanFrom ?_
  exact .pure (by rw [h]; rfl) (hM _ _)

end RespelledText

end Stackable
