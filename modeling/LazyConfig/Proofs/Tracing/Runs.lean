import LazyConfig.Proofs.Scripts.Sessions
import LazyConfig.Proofs.Tracing.Lowering
import LazyConfig.Proofs.Tracing.Reading
set_option autoImplicit false

/-!
# Tracing: evaluation

With a trace a run leaves notes of recursive bindings, applications and builtin functions.
It ends in the same way without them and leaves the same cells behind, so no note ever has a
cell computed.  The labels of computations are not in the cells: a trace shows in the wording
of one failure, and only there.
-/

namespace LazyConfig

namespace Run

variable {α β : Type}

/-- With a trace and without one, the run ends in the same way and leaves the same store. -/
def TraceBlind (p : Run α) : Prop :=
  ∀ s : Store, (p true s).outcome = (p false s).outcome ∧ (p true s).store = (p false s).store

namespace TraceBlind

/-! ## Steps -/

theorem pure (a : α) : (pure a : Run α).TraceBlind := fun _ => ⟨rfl, rfl⟩

theorem fail (e : EvalError) : (fail e : Run α).TraceBlind := fun _ => ⟨rfl, rfl⟩

theorem exhausted : (exhausted : Run α).TraceBlind := fun _ => ⟨rfl, rfl⟩

theorem note (x : EvalNote) : (note x).TraceBlind := fun _ => ⟨rfl, rfl⟩

theorem allocate (c : Cell) : (allocate c).TraceBlind := fun _ => ⟨rfl, rfl⟩

theorem grow (cs : Addr → List Suspension) : (grow cs).TraceBlind := fun _ => ⟨rfl, rfl⟩

theorem peek (a : Addr) : (peek a).TraceBlind := fun s => by
  unfold Run.peek
  cases s.get? a <;> exact ⟨rfl, rfl⟩

theorem bind {p : Run α} {k : α → Run β} (hp : p.TraceBlind) (hk : ∀ a, (k a).TraceBlind) :
    (p >>= k).TraceBlind := by
  intro s
  have h := hp s
  rw [bind_apply, bind_apply]
  rcases hon : p true s with ⟨on, t, notesOn⟩
  rcases hoff : p false s with ⟨off, t', notesOff⟩
  rw [hon, hoff] at h
  obtain ⟨rfl, rfl⟩ : on = off ∧ t = t' := h
  cases on with
  | value a => exact hk a t
  | error e => exact ⟨rfl, rfl⟩
  | exhausted => exact ⟨rfl, rfl⟩

/-- What is left in a cell depends on how its computation ends, and not on its notes. -/
theorem occupy {p : Run Value} (hp : p.TraceBlind) (a : Addr) (c : Suspension) :
    (occupy a c p).TraceBlind := by
  intro s
  obtain ⟨houtcome, hstore⟩ := hp (s.set a (.running c))
  rw [occupy_apply, occupy_apply, houtcome, hstore]
  exact ⟨rfl, rfl⟩

end TraceBlind

end Run

open Run

/-! ## Levels -/

/-- The run of a script is blind to tracing if the level below is. -/
theorem Script.traceBlind_run {α : Type} {n : Nat}
    (hforce : ∀ a, (perform n (.force a)).TraceBlind)
    (hwork : ∀ {κ : Kind} (j : Job κ), (j.run n).TraceBlind) (p : Script α) :
    (p.run n).TraceBlind := by
  induction p with
  | done a => exact .pure a
  | fail e => exact .fail e
  | note x p ih => exact (TraceBlind.note x).bind fun _ => ih
  | grow cs next ih => exact (TraceBlind.grow cs).bind ih
  | store v next ih => exact (TraceBlind.allocate _).bind ih
  | force a next ih => exact (hforce a).bind ih
  | work j next ih => exact (hwork j).bind ih

/-- Forcing a cell is blind to tracing if what it starts in the cell is. -/
theorem traceBlind_force {n : Nat} (h : ∀ c, ((Script.resume c).run n).TraceBlind) (a : Addr) :
    (perform (n + 1) (.force a)).TraceBlind := by
  refine (TraceBlind.peek a).bind fun c => ?_
  cases c with
  | done v => exact .pure v
  | running c => exact .fail _
  | delayed c =>
    refine TraceBlind.occupy ?_ a c
    rw [← Script.run_resume]
    exact h c

/-- No level looks at whether there is a trace. -/
theorem traceBlind_levels (n : Nat) :
    (∀ a, (perform n (.force a)).TraceBlind) ∧
      ∀ {κ : Kind} (j : Job κ), (j.run n).TraceBlind := by
  induction n with
  | zero =>
    refine ⟨fun a => .exhausted, fun j => ?_⟩
    rw [Job.run_zero]
    exact .exhausted
  | succ n ih =>
    refine ⟨traceBlind_force fun c => Script.traceBlind_run ih.1 ih.2 _, fun j => ?_⟩
    rw [Job.run_succ]
    exact Script.traceBlind_run ih.1 ih.2 _

theorem traceBlind_script {α : Type} (n : Nat) (p : Script α) : (p.run n).TraceBlind :=
  Script.traceBlind_run (traceBlind_levels n).1 (traceBlind_levels n).2 p

theorem traceBlind_perform (n : Nat) (task : Task) : (perform n task).TraceBlind := by
  cases task with
  | eval t env => exact (traceBlind_levels n).2 (.eval t env)
  | apply f a => exact (traceBlind_levels n).2 (.apply f a)
  | force a => exact (traceBlind_levels n).1 a

/-! ## Sessions -/

namespace Session

/-- The answers to commands in turn and the session behind them; each command says whether
it is traced. -/
def converse (n : Nat) (s : Session) : List (Command × Bool) → List Answer × Session
  | [] => ([], s)
  | (c, tracing) :: rest =>
      let turn := s.perform n tracing c
      let (answers, last) := converse n turn.session rest
      (turn.answer :: answers, last)

theorem running_traceBlind (s : Session) {α : Type} {p : Run α} (hp : p.TraceBlind)
    (finish : Session → α → Session × Answer) :
    (s.running true p finish).session = (s.running false p finish).session ∧
      (s.running true p finish).answer = (s.running false p finish).answer := by
  have h := hp s.store
  unfold running
  rcases hon : p true s.store with ⟨on, t, notesOn⟩
  rcases hoff : p false s.store with ⟨off, t', notesOff⟩
  rw [hon, hoff] at h
  obtain ⟨rfl, rfl⟩ : on = off ∧ t = t' := h
  cases on <;> exact ⟨rfl, rfl⟩

/-- A command is answered in the same way with a trace and without one, and leaves the same
session behind. -/
theorem perform_traceBlind (n : Nat) (s : Session) (c : Command) :
    (s.perform n true c).session = (s.perform n false c).session ∧
      (s.perform n true c).answer = (s.perform n false c).answer := by
  rw [perform_eq_follow, perform_eq_follow]
  cases s.plan c with
  | reply answer => exact ⟨rfl, rfl⟩
  | value p => exact s.running_traceBlind (traceBlind_script n p) _
  | env p => exact s.running_traceBlind (traceBlind_script n p) _
  | data p => exact s.running_traceBlind (traceBlind_script n p) _
  | program p => exact s.running_traceBlind (traceBlind_script n p) _

theorem converse_traceBlind (n : Nat) (s : Session) (commands : List (Command × Bool)) :
    s.converse n commands = s.converse n (commands.map fun c => (c.1, false)) := by
  induction commands generalizing s with
  | nil => rfl
  | cons command rest ih =>
    obtain ⟨c, tracing⟩ := command
    have hturn : (s.perform n tracing c).session = (s.perform n false c).session ∧
        (s.perform n tracing c).answer = (s.perform n false c).answer := by
      cases tracing with
      | true => exact s.perform_traceBlind n c
      | false => exact ⟨rfl, rfl⟩
    simp only [converse, List.map_cons, hturn.1, hturn.2, ih]

end Session

/-! ## Messages -/

/-- Only the message about infinite recursion names a computation by its label. -/
theorem EvalError.message_labelled (e : EvalError) :
    e.errorClass? = some .infiniteRecursion ∨ e.message true = e.message false := by
  cases e with
  | infiniteRecursion c => exact .inl rfl
  | _ => exact .inr rfl

/-! ## All stages -/

/-- A trace changes no result.

* A text is accepted as the same tree or refused for the same failure, and the furthest failure
  is the same, whatever the keywords and the delimiters are.
* A tree has the same core term, or is refused for the same reason.
* The evaluation of a term ends in the same way, and so does computing all data of a value or
  turning it into a program.  The cells are the same behind each of them, also where it fails.
* So is everything that a session shows: commands are answered in the same way, marks included,
  whichever of them are traced, and lead to the same session.
* A failure has the same message, unless it is about infinite recursion. -/
theorem tracing_changes_no_result :
    (∀ (lexicon : Lexicon) (text : String),
      (readTraced ⟨lexicon, true⟩ text).1 = (readTraced ⟨lexicon, false⟩ text).1 ∧
        furthest? (readTraced ⟨lexicon, true⟩ text).2 =
          furthest? (readTraced ⟨lexicon, false⟩ text).2) ∧
    (∀ e : Expr, (e.toTerm true).1 = (e.toTerm false).1) ∧
    (∀ (n : Nat) (t : Term) (env : Env), (evaluate n t env).TraceBlind) ∧
    (∀ (n : Nat) (v : Value), (deepen n v).TraceBlind ∧ (express n v).TraceBlind) ∧
    (∀ (n : Nat) (s : Session) (commands : List (Command × Bool)),
      s.converse n commands = s.converse n (commands.map fun c => (c.1, false))) ∧
    ∀ e : EvalError,
      e.errorClass? = some .infiniteRecursion ∨ e.message true = e.message false := by
  refine ⟨fun lexicon text => ?_, Expr.traceBlind_toTerm, fun n t env => ?_, fun n v => ?_,
    Session.converse_traceBlind, EvalError.message_labelled⟩
  · obtain ⟨hverdict, hraised⟩ := readTraced_traceBlind lexicon text
    exact ⟨hverdict, furthest?_congr hraised⟩
  · exact traceBlind_perform n (.eval t env)
  · exact ⟨(traceBlind_levels n).2 (.deepen v), (traceBlind_levels n).2 (.express v)⟩

end LazyConfig
