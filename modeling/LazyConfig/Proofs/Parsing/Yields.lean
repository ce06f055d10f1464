import LazyConfig.Parser
set_option autoImplicit false

/-!
# Parsing: what a parser yields and what it refuses

A run of a parser has an answer and a record.  Statements about what is read only need
the answer, so they are made with two predicates that forget the record: `Yields` for
a value with the cursor behind it, and `Refuses` for a failure.  Both go through `bind`
and `attempt`, which is all that the rules of the grammar are made of besides loops.

A loop is described by `Loops`, an inductive account of its rounds.  Every round but
the last must shorten what is ahead; then the allowance of rounds is never used up, and
`Loops.yields` turns the account into an answer.
-/

namespace LazyConfig.Parser

variable {α β σ : Type} {s : Settings}

/-! ## Answers -/

/-- The parser reads a value from one cursor up to another. -/
def Yields (p : Parser α) (s : Settings) (c : Cursor) (a : α) (after : Cursor) : Prop :=
  (p s c).1 = .ok a after

/-- The parser fails at a cursor. -/
def Refuses (p : Parser α) (s : Settings) (c : Cursor) : Prop :=
  ∃ f, (p s c).1 = .failed f

theorem Yields.pure (a : α) (c : Cursor) : Yields (pure a : Parser α) s c a c := rfl

theorem Refuses.fail (cause : Cause) (c : Cursor) : Refuses (fail cause : Parser α) s c :=
  ⟨⟨cause, c.offset⟩, rfl⟩

theorem Yields.bind {p : Parser α} {k : α → Parser β} {c c' c'' : Cursor} {a : α} {b : β}
    (hp : Yields p s c a c') (hk : Yields (k a) s c' b c'') : Yields (p >>= k) s c b c'' := by
  rcases hr : p s c with ⟨reply, events⟩
  have hreply : reply = .ok a c' := by simpa [Yields, hr] using hp
  subst hreply
  unfold Yields
  rw [bind_of_ok hr]
  exact hk

/-- The parser behind fails, so the sequence does. -/
theorem Yields.bind_refuses {p : Parser α} {k : α → Parser β} {c c' : Cursor} {a : α}
    (hp : Yields p s c a c') (hk : Refuses (k a) s c') : Refuses (p >>= k) s c := by
  rcases hr : p s c with ⟨reply, events⟩
  have hreply : reply = .ok a c' := by simpa [Yields, hr] using hp
  subst hreply
  obtain ⟨f, hf⟩ := hk
  refine ⟨f, ?_⟩
  rw [bind_of_ok hr]
  exact hf

/-- The parser in front fails, so the sequence does. -/
theorem Refuses.bind {p : Parser α} {c : Cursor} (h : Refuses p s c) (k : α → Parser β) :
    Refuses (p >>= k) s c := by
  obtain ⟨f, hf⟩ := h
  rcases hr : p s c with ⟨reply, events⟩
  have hreply : reply = .failed f := by simpa [hr] using hf
  subst hreply
  exact ⟨f, by rw [bind_of_failed hr]⟩

/-- An alternative that reads something is taken. -/
theorem Yields.attempt {p : Parser α} {c c' : Cursor} {a : α} (branch : Branch)
    (h : Yields p s c a c') : Yields (attempt branch p) s c (some a) c' := by
  rcases hr : p s c with ⟨reply, events⟩
  have hreply : reply = .ok a c' := by simpa [Yields, hr] using h
  subst hreply
  simp [Yields, Parser.attempt, hr]

/-- An alternative that fails is given up, and nothing has been read. -/
theorem Refuses.attempt {p : Parser α} {c : Cursor} (branch : Branch) (h : Refuses p s c) :
    Yields (attempt branch p) s c none c := by
  obtain ⟨f, hf⟩ := h
  rcases hr : p s c with ⟨reply, events⟩
  have hreply : reply = .failed f := by simpa [hr] using hf
  subst hreply
  simp [Yields, Parser.attempt, hr]

/-! ## Steps that always succeed -/

theorem yields_cursor (c : Cursor) : Yields cursor s c c c := rfl

theorem yields_advance (n : Nat) (c : Cursor) :
    Yields (Parser.advance n) s c () (c.advance n) := rfl

theorem yields_ahead (f : Lexicon → List Char → α) (c : Cursor) :
    Yields (ahead f) s c (f s.lexicon c.rest) c := rfl

/-! ## Loops -/

/-- The rounds by which a loop gets from a state at a cursor to its value: each one but
the last leaves less ahead than it found. -/
inductive Loops (body : σ → Parser (Round σ α)) (s : Settings) :
    σ → Cursor → α → Cursor → Prop where
  /-- The round is the last one. -/
  | done {state : σ} {c c' : Cursor} {a : α}
      (h : Yields (body state) s c (.done a) c') : Loops body s state c a c'
  /-- Another round follows. -/
  | again {state next : σ} {c c' c'' : Cursor} {a : α}
      (h : Yields (body state) s c (.again next) c') (shorter : c'.rest.length < c.rest.length)
      (later : Loops body s next c' a c'') : Loops body s state c a c''

theorem Loops.yields_rounds {body : σ → Parser (Round σ α)} {state : σ} {c c' : Cursor} {a : α}
    (h : Loops body s state c a c') (n : Nat) (hn : c.rest.length < n) :
    Yields (rounds body n state) s c a c' := by
  induction h generalizing n with
  | done h =>
    obtain ⟨m, rfl⟩ : ∃ m, n = m + 1 := ⟨n - 1, by omega⟩
    exact Yields.bind h (Yields.pure _ _)
  | again h shorter later ih =>
    obtain ⟨m, rfl⟩ : ∃ m, n = m + 1 := ⟨n - 1, by omega⟩
    exact Yields.bind h (ih m (by omega))

/-- A loop that comes to an end within its rounds reads its value. -/
theorem Loops.yields {body : σ → Parser (Round σ α)} {state : σ} {c c' : Cursor} {a : α}
    (h : Loops body s state c a c') : Yields (repeated body state) s c a c' :=
  h.yields_rounds _ (Nat.lt_succ_self _)

end LazyConfig.Parser
