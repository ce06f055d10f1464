import LazyConfig.Eval.Error
set_option autoImplicit false

/-!
# Evaluation: runs over a store

A run starts from a store and ends in a value, a failure, or with its allowance of
nested steps used up; whichever it is, there is a store behind it.  Besides, a run
leaves notes if a trace is wanted.  Like the record of a parser they are an output
only.

The operations on cells are all here: `delay` makes one, `peek` looks into one, and
`occupy` is the rule by which a cell is computed.  While its computation goes on the
cell says so, with a value it holds the value from then on, and without one it holds
the computation it held before, so that it can be tried again.
-/

namespace LazyConfig

/-- What a trace notes. -/
inductive EvalNote where
  /-- Recursive bindings of these names were made. -/
  | letrec (names : List String)
  /-- An application is evaluated. -/
  | application (t : Term)
  /-- A builtin function is called. -/
  | builtin (b : Builtin)

/-- The text of a note, which may have several lines. -/
def EvalNote.text : EvalNote → String
  | .letrec names => "[EVAL] letrec " ++ Text.quoteList names
  | .application t => "[EVAL] eval_apply: " ++ t.display
  | .builtin b => "[EVAL]   builtin " ++ b.name

/-- The cells by address. -/
structure Store where
  /-- The cell of each address. -/
  cells : Array Cell

namespace Store

/-- The store without cells. -/
def empty : Store := ⟨#[]⟩

/-- The cell at an address. -/
def get? (s : Store) (a : Addr) : Option Cell := s.cells[a]?

/-- The address that the next cell will have. -/
def next (s : Store) : Addr := s.cells.size

/-- The store with one more cell. -/
def push (s : Store) (c : Cell) : Store := ⟨s.cells.push c⟩

/-- The store with another cell at an address. -/
def set (s : Store) (a : Addr) (c : Cell) : Store := ⟨s.cells.setIfInBounds a c⟩

/-- Whether the cell at an address holds a value. -/
def isDone (s : Store) (a : Addr) : Bool :=
  match s.get? a with
  | some c => c.isDone
  | none => false

theorem get?_set (s : Store) (a : Addr) (c : Cell) (b : Addr) :
    (s.set a c).get? b = if a = b then (if a < s.next then some c else none) else s.get? b :=
  Array.getElem?_setIfInBounds

@[simp] theorem next_set (s : Store) (a : Addr) (c : Cell) : (s.set a c).next = s.next := by
  simp [next, set]

end Store

/-! ## Runs -/

/-- How a run ends. -/
inductive Outcome (α : Type) where
  /-- With a value. -/
  | value (a : α)
  /-- With a failure. -/
  | error (e : EvalError)
  /-- The allowance of nested steps is used up. -/
  | exhausted

/-- The end of a run, the store behind it, and its notes. -/
structure Result (α : Type) where
  /-- How the run ended. -/
  outcome : Outcome α
  /-- The store behind the run. -/
  store : Store
  /-- The notes in order. -/
  notes : List EvalNote

/-- A run from a store; the flag says whether a trace is wanted. -/
def Run (α : Type) : Type := Bool → Store → Result α

namespace Run

variable {α β : Type}

/-- The run that does nothing. -/
protected def pure (a : α) : Run α := fun _ s => ⟨.value a, s, []⟩

/-- One run behind the other. -/
protected def bind (p : Run α) (k : α → Run β) : Run β := fun tracing s =>
  match p tracing s with
  | ⟨.value a, s', notes⟩ =>
      let ⟨outcome, s'', later⟩ := k a tracing s'
      ⟨outcome, s'', notes ++ later⟩
  | ⟨.error e, s', notes⟩ => ⟨.error e, s', notes⟩
  | ⟨.exhausted, s', notes⟩ => ⟨.exhausted, s', notes⟩

instance : Monad Run where
  pure := Run.pure
  bind := Run.bind

/-- Fails. -/
def fail (e : EvalError) : Run α := fun _ s => ⟨.error e, s, []⟩

/-- The run whose allowance is used up. -/
def exhausted : Run α := fun _ s => ⟨.exhausted, s, []⟩

/-- Leaves a note if a trace is wanted. -/
def note (n : EvalNote) : Run Unit := fun tracing s =>
  ⟨.value (), s, if tracing then [n] else []⟩

/-- Does one thing after the other for the members of a list. -/
def forEach (f : α → Run β) : List α → Run (List β)
  | [] => pure []
  | x :: rest => do
      let y ← f x
      let ys ← forEach f rest
      return y :: ys

/-! ## Cells -/

/-- A new cell. -/
def allocate (c : Cell) : Run Addr := fun _ s => ⟨.value s.next, s.push c, []⟩

/-- A new cell for a computation that is not started. -/
def delay (c : Suspension) : Run Addr := allocate (.delayed c)

/-- The address that the next cell will have. -/
def nextAddr : Run Addr := fun _ s => ⟨.value s.next, s, []⟩

/-- The cell at an address. -/
def peek (a : Addr) : Run Cell := fun _ s =>
  match s.get? a with
  | some c => ⟨.value c, s, []⟩
  | none => ⟨.error (.dangling a), s, []⟩

/-- The cell at an address holds a computation while it goes on, and its value from then
on; if there is none, it holds the computation as before. -/
def occupy (a : Addr) (c : Suspension) (p : Run Value) : Run Value := fun tracing s =>
  match p tracing (s.set a (.running c)) with
  | ⟨.value v, s', notes⟩ => ⟨.value v, s'.set a (.done v), notes⟩
  | ⟨.error e, s', notes⟩ => ⟨.error e, s'.set a (.delayed c), notes⟩
  | ⟨.exhausted, s', notes⟩ => ⟨.exhausted, s'.set a (.delayed c), notes⟩

/-! ## Equations -/

@[simp] theorem pure_apply (a : α) (tracing : Bool) (s : Store) :
    (pure a : Run α) tracing s = ⟨.value a, s, []⟩ := rfl

theorem bind_apply (p : Run α) (k : α → Run β) (tracing : Bool) (s : Store) :
    (p >>= k) tracing s =
      match p tracing s with
      | ⟨.value a, s', notes⟩ =>
          ⟨(k a tracing s').outcome, (k a tracing s').store, notes ++ (k a tracing s').notes⟩
      | ⟨.error e, s', notes⟩ => ⟨.error e, s', notes⟩
      | ⟨.exhausted, s', notes⟩ => ⟨.exhausted, s', notes⟩ := rfl

theorem bind_of_value {p : Run α} {tracing : Bool} {s s' : Store} {a : α}
    {notes : List EvalNote} (h : p tracing s = ⟨.value a, s', notes⟩) (k : α → Run β) :
    (p >>= k) tracing s =
      ⟨(k a tracing s').outcome, (k a tracing s').store, notes ++ (k a tracing s').notes⟩ := by
  rw [bind_apply, h]

theorem bind_of_error {p : Run α} {tracing : Bool} {s s' : Store} {e : EvalError}
    {notes : List EvalNote} (h : p tracing s = ⟨.error e, s', notes⟩) (k : α → Run β) :
    (p >>= k) tracing s = ⟨.error e, s', notes⟩ := by
  rw [bind_apply, h]

theorem bind_of_exhausted {p : Run α} {tracing : Bool} {s s' : Store}
    {notes : List EvalNote} (h : p tracing s = ⟨.exhausted, s', notes⟩) (k : α → Run β) :
    (p >>= k) tracing s = ⟨.exhausted, s', notes⟩ := by
  rw [bind_apply, h]

end Run

end LazyConfig
