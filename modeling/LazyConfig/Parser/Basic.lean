import LazyConfig.Expr.Basic
import LazyConfig.Text.Position
import LazyConfig.Token
set_option autoImplicit false

/-!
# Parsers

A parser reads from a cursor.  It answers with a value and the cursor behind it, with
a failure, or that its allowance of nested rules is used up; the third answer is kept
apart so that it is never taken for a refusal of the text.

Besides its answer a run has a record.  Every failure that is raised is recorded,
also one that an alternative recovers from, because the failure shown to a user is the
one furthest into the text.  If the settings ask for a trace, every alternative that is
given up is recorded too.  The record is an output only: nothing reads it back.
-/

namespace LazyConfig

/-! ## Failures -/

/-- What a text lacks, or has and may not have. -/
inductive Cause where
  /-- Something follows the expression. -/
  | trailing
  /-- A delimiter or a keyword is missing. -/
  | missing (lexeme : String)
  /-- An identifier is missing. -/
  | noIdentifier
  /-- A keyword stands where an identifier should. -/
  | keyword (word : String)
  /-- A string is missing. -/
  | noString
  /-- A string that should be a name has antiquotes. -/
  | antiquotedName
  /-- A pattern names a field twice. -/
  | repeatedField (e : RepeatedField)
  /-- The text ends inside a string. -/
  | unterminated
  /-- The text ends inside an indented string. -/
  | unterminatedIndented
  deriving DecidableEq, Repr

/-- The cause in words. -/
def Cause.words : Cause → String
  | .trailing => "expected end of input"
  | .missing lexeme => "expected " ++ Text.quote lexeme
  | .noIdentifier => "expected identifier"
  | .keyword word => "unexpected keyword " ++ Text.quote word
  | .noString => "expected string"
  | .antiquotedName => "expected a name without antiquotation"
  | .repeatedField e => e.message
  | .unterminated => "unterminated string"
  | .unterminatedIndented => "unterminated indented string"

/-- A cause and the offset where it shows. -/
structure Failure where
  /-- What is wrong. -/
  cause : Cause
  /-- The number of characters in front of the place. -/
  offset : Nat
  deriving DecidableEq, Repr

/-- The failure in words, with the line and the column in the text it is about. -/
def Failure.message (text : String) (f : Failure) : String :=
  f.cause.words ++ (Text.Position.ofOffset text.toList f.offset).describe

/-! ## The record of a run -/

/-- The alternatives that a parser may try and give up. -/
inductive Branch where
  /-- A function. -/
  | lambda
  /-- One more argument. -/
  | dotted
  /-- A key behind a dot. -/
  | key
  deriving DecidableEq, Repr

/-- The label of an alternative in a trace. -/
def Branch.label : Branch → String
  | .lambda => "lambda_"
  | .dotted => "dotted"
  | .key => "key"

/-- What a run records. -/
inductive Event where
  /-- A failure was raised. -/
  | raised (failure : Failure)
  /-- An alternative that started at an offset was given up because of a failure. -/
  | abandoned (branch : Branch) (start : Nat) (failure : Failure)
  deriving DecidableEq, Repr

/-- The failure that is further into the text; of two at one offset the later one. -/
def further (best : Option Failure) : Event → Option Failure
  | .abandoned _ _ _ => best
  | .raised f =>
      match best with
      | none => some f
      | some g => if g.offset ≤ f.offset then some f else some g

/-- The furthest failure that a run raised, and of those at one offset the last. -/
def furthest? (events : List Event) : Option Failure := events.foldl further none

/-- The line of a trace for an event about a text. -/
def Event.traceLine? (text : String) : Event → Option String
  | .raised _ => none
  | .abandoned branch start f =>
      some ("[PARSE] " ++ branch.label ++ " failed at " ++ toString start ++ ": "
        ++ f.message text)

/-! ## Parsers -/

/-- What does not change during a run. -/
structure Settings where
  /-- The keywords and delimiters. -/
  lexicon : Lexicon
  /-- Whether alternatives that are given up are recorded. -/
  tracing : Bool

/-- A place in a text and what follows it. -/
structure Cursor where
  /-- The number of characters in front. -/
  offset : Nat
  /-- The characters behind. -/
  rest : List Char
  deriving DecidableEq, Repr

/-- The cursor a number of characters further on. -/
def Cursor.advance (c : Cursor) (n : Nat) : Cursor := ⟨c.offset + n, c.rest.drop n⟩

/-- The answer of a parser. -/
inductive Reply (α : Type) where
  /-- A value, and the cursor behind what was read. -/
  | ok (value : α) (after : Cursor)
  /-- A failure. -/
  | failed (failure : Failure)
  /-- The allowance of nested rules is used up. -/
  | exhausted

/-- A parser: an answer and a record for each cursor. -/
def Parser (α : Type) : Type := Settings → Cursor → Reply α × List Event

namespace Parser

variable {α β σ : Type}

/-- The parser that reads nothing. -/
protected def pure (a : α) : Parser α := fun _ c => (.ok a c, [])

/-- One parser behind the other. -/
protected def bind (p : Parser α) (k : α → Parser β) : Parser β := fun s c =>
  match p s c with
  | (.ok a after, events) =>
      let (reply, later) := k a s after
      (reply, events ++ later)
  | (.failed f, events) => (.failed f, events)
  | (.exhausted, events) => (.exhausted, events)

instance : Monad Parser where
  pure := Parser.pure
  bind := Parser.bind

/-- The answer when the allowance of nested rules is used up. -/
def exhausted : Parser α := fun _ _ => (.exhausted, [])

/-- Raises a failure at an offset. -/
def failAt (cause : Cause) (offset : Nat) : Parser α := fun _ _ =>
  (.failed ⟨cause, offset⟩, [.raised ⟨cause, offset⟩])

/-- Raises a failure where the parser stands. -/
def fail (cause : Cause) : Parser α := fun s c => failAt cause c.offset s c

/-- The cursor where the parser stands. -/
def cursor : Parser Cursor := fun _ c => (.ok c c, [])

/-- Goes to a cursor. -/
def seek (c : Cursor) : Parser Unit := fun _ _ => (.ok () c, [])

/-- What a function of the lexicon finds in the characters ahead. -/
def ahead (f : Lexicon → List Char → α) : Parser α := fun s c => (.ok (f s.lexicon c.rest) c, [])

/-- Passes over a number of characters. -/
def advance (n : Nat) : Parser Unit := fun _ c => (.ok () (c.advance n), [])

/-- Tries an alternative.  If it fails, the parser stands where it stood before, and there
is no value. -/
def attempt (branch : Branch) (p : Parser α) : Parser (Option α) := fun s c =>
  match p s c with
  | (.ok a after, events) => (.ok (some a) after, events)
  | (.failed f, events) =>
      (.ok none c, events ++ if s.tracing then [.abandoned branch c.offset f] else [])
  | (.exhausted, events) => (.exhausted, events)

/-! ## Repetition -/

/-- How a round of a repetition ends. -/
inductive Round (σ α : Type) where
  /-- Another round, with a new state. -/
  | again (state : σ)
  /-- The repetition is over. -/
  | done (value : α)

/-- At most the given number of rounds. -/
def rounds (body : σ → Parser (Round σ α)) : Nat → σ → Parser α
  | 0, _ => exhausted
  | n + 1, state => do
      match ← body state with
      | .again next => rounds body n next
      | .done value => pure value

/-- Rounds until one of them ends the repetition.  As every round but the last must pass
over a character, there are at most as many rounds as characters ahead, and one more. -/
def repeated (body : σ → Parser (Round σ α)) (state : σ) : Parser α := fun s c =>
  rounds body (c.rest.length + 1) state s c

/-! ## Equations -/

@[simp] theorem pure_apply (a : α) (s : Settings) (c : Cursor) :
    (pure a : Parser α) s c = (.ok a c, []) := rfl

theorem bind_apply (p : Parser α) (k : α → Parser β) (s : Settings) (c : Cursor) :
    (p >>= k) s c =
      match p s c with
      | (.ok a after, events) => ((k a s after).1, events ++ (k a s after).2)
      | (.failed f, events) => (.failed f, events)
      | (.exhausted, events) => (.exhausted, events) := rfl

theorem bind_of_ok {p : Parser α} {s : Settings} {c after : Cursor} {a : α}
    {events : List Event} (h : p s c = (.ok a after, events)) (k : α → Parser β) :
    (p >>= k) s c = ((k a s after).1, events ++ (k a s after).2) := by
  rw [bind_apply, h]

theorem bind_of_failed {p : Parser α} {s : Settings} {c : Cursor} {f : Failure}
    {events : List Event} (h : p s c = (.failed f, events)) (k : α → Parser β) :
    (p >>= k) s c = (.failed f, events) := by
  rw [bind_apply, h]

/-- Reading nothing first changes nothing. -/
theorem pure_bind (a : α) (k : α → Parser β) : (pure a : Parser α) >>= k = k a := by
  funext s c
  simp [bind_apply]

/-- Reading nothing last changes nothing. -/
theorem bind_pure (p : Parser α) : p >>= pure = p := by
  funext s c
  rw [bind_apply]
  split <;> simp_all

/-- The record of a sequence is the records of its parts in a row, however the parts are
grouped. -/
theorem bind_assoc {γ : Type} (p : Parser α) (k : α → Parser β) (l : β → Parser γ) :
    p >>= k >>= l = p >>= fun a => k a >>= l := by
  funext s c
  rcases h : p s c with ⟨reply, events⟩
  cases reply with
  | ok a after =>
    rw [bind_of_ok h]
    rcases hk : k a s after with ⟨reply, later⟩
    have hpk : (p >>= k) s c = (reply, events ++ later) := by rw [bind_of_ok h, hk]
    cases reply with
    | ok b after => rw [bind_of_ok hpk, bind_of_ok hk]; simp
    | failed f => rw [bind_of_failed hpk, bind_of_failed hk]
    | exhausted => simp [bind_apply, h, hk]
  | failed f =>
    rw [bind_of_failed h, bind_of_failed (bind_of_failed h k)]
  | exhausted => simp [bind_apply, h]

instance : LawfulMonad Parser :=
  LawfulMonad.mk' Parser (fun p => Parser.bind_pure p) (fun a k => Parser.pure_bind a k)
    (fun p k l => Parser.bind_assoc p k l)

end Parser

end LazyConfig
