import LazyConfig.Proofs.Order.Lagging
set_option autoImplicit false

/-!
# Order: what was done before does not matter

What a session computes it keeps in its cells, and what fails leaves cells behind.  None of
this can be told from later answers.  Whatever is asked of a session is answered in the same
way after anything else that was asked first, in any order, with success or without, and
even if it had to be given up: the same value with the same data, or the same failure.  Only
the marks tell which cells hold values already.
-/

namespace LazyConfig

/-! ## Operations -/

/-- What can be done with a session. -/
inductive Operation where
  /-- A command. -/
  | command (c : Command)
  /-- A kept value is applied to the argument in a cell of the store. -/
  | apply (value : Nat) (argument : Addr)

namespace Session

/-- One operation, with an allowance of nested steps. -/
def operate (n : Nat) (tracing : Bool) (s : Session) : Operation → Turn
  | .command c => s.perform n tracing c
  | .apply value argument =>
      match s.values[value]? with
      | none => s.reply .nowhere
      | some f =>
          if argument < s.store.next then
            s.running tracing (LazyConfig.perform n (.apply f argument)) keep
          else s.reply .nowhere

/-- How a session does an operation. -/
def planFor (s : Session) : Operation → Plan
  | .command c => s.plan c
  | .apply value argument => s.planValue value fun f =>
      if argument < s.store.next then .value (.job (.apply f argument)) else .reply .nowhere

theorem operate_eq_follow (n : Nat) (tracing : Bool) (s : Session) (q : Operation) :
    s.operate n tracing q = s.follow n tracing (s.planFor q) := by
  cases q with
  | command c => exact s.perform_eq_follow n tracing c
  | apply value argument =>
    simp only [operate, planFor, follow_planValue]
    cases s.values[value]? with
    | none => rfl
    | some f =>
      by_cases ha : argument < s.store.next
      · simp only [if_pos ha]
        exact congrArg (s.running tracing · keep) (Script.run_job n (.apply f argument)).symm
      · simp only [if_neg ha]
        rfl

end Session

/-- An operation that is tried with an allowance of nested steps, traced or not. -/
structure Attempt where
  /-- What is done. -/
  operation : Operation
  /-- The allowance. -/
  allowance : Nat
  /-- Whether the run is traced. -/
  tracing : Bool

/-- The session behind an attempt, whatever comes of it. -/
def Session.attempt (s : Session) (a : Attempt) : Session :=
  (s.operate a.allowance a.tracing a.operation).session

/-- The session behind some attempts. -/
def Session.after (s : Session) (attempts : List Attempt) : Session :=
  attempts.foldl Session.attempt s

/-- The sessions that operations lead to from the start. -/
def Session.Reached (s : Session) : Prop := ∃ attempts, s = Session.start.after attempts

/-- All that commands lead to, operations lead to. -/
theorem Session.Reachable.reached {s : Session} (h : s.Reachable) : s.Reached := by
  induction h with
  | start => exact ⟨[], rfl⟩
  | perform _ n tr c ih =>
    obtain ⟨attempts, rfl⟩ := ih
    refine ⟨attempts ++ [⟨.command c, n, tr⟩], ?_⟩
    rw [after, after, List.foldl_append]
    rfl

/-! ## What is observed -/

/-- What can be seen inside a value apart from the marks. -/
def Inside.unmarked : Inside → Inside
  | .nothing => .nothing
  | .items marks => .items (marks.map fun _ => false)
  | .entries marks => .entries (marks.map fun e => (e.1, false))
  | .closure binder body => .closure binder body
  | .arguments marks => .arguments (marks.map fun _ => false)

/-- What can be seen of a value apart from the marks. -/
def View.unmarked (w : View) : View := ⟨w.summary, w.inside.unmarked⟩

/-- What comes of an operation. -/
inductive Observation where
  /-- A value without its marks, and the answer when all its data is asked for. -/
  | value (view : View) (data : Answer)
  /-- Any other answer. -/
  | answer (a : Answer)

namespace Session

/-- Asks for all data of a value that is kept. -/
def Turn.observe (n : Nat) (tracing : Bool) (turn : Turn) : Observation :=
  match turn.answer with
  | .kept value view => .value view.unmarked (turn.session.perform n tracing (.deepen value)).answer
  | a => .answer a

/-- What comes of an operation, with an allowance of nested steps. -/
def observe (n : Nat) (tracing : Bool) (s : Session) (q : Operation) : Observation :=
  (s.operate n tracing q).observe n tracing

end Session

/-- The allowance sufficed. -/
def Observation.Finished : Observation → Prop
  | .value _ data => data ≠ .exhausted
  | .answer a => a ≠ .exhausted

/-- The same failure in the same words: computations that need their own values may be
different ones. -/
inductive EvalError.Same : EvalError → EvalError → Prop where
  | refl (e : EvalError) : Same e e
  | recursion {c d : Suspension}
      (h : ∀ labelled, (EvalError.infiniteRecursion c).message labelled =
        (EvalError.infiniteRecursion d).message labelled) :
      Same (.infiniteRecursion c) (.infiniteRecursion d)

/-- The same answer. -/
inductive Answer.Same : Answer → Answer → Prop where
  | refl (a : Answer) : Same a a
  | failed {e e' : EvalError} (h : e.Same e') : Same (.failed e) (.failed e')

/-- The same observation. -/
inductive Observation.Same : Observation → Observation → Prop where
  | value (view : View) {a b : Answer} (h : a.Same b) : Same (.value view a) (.value view b)
  | answer {a b : Answer} (h : a.Same b) : Same (.answer a) (.answer b)

/-- The operation is about what the session has, and asks for a value, for data or for a
text. -/
def Operation.AsksOf (s : Session) : Operation → Prop
  | .command (.lookup env _) => env < s.envs.size
  | .command (.evaluate env _) => env < s.envs.size
  | .command (.call env _ _) => env < s.envs.size
  | .command (.apply value env _) => value < s.values.size ∧ env < s.envs.size
  | .command (.item value _) => value < s.values.size
  | .command (.entry value _) => value < s.values.size
  | .command (.deepen value) => value < s.values.size
  | .command (.render value) => value < s.values.size
  | .command (.bind _ _) => False
  | .command (.contains _ _) => False
  | .command (.marks _) => False
  | .command (.view _) => False
  | .apply value argument => value < s.values.size ∧ argument < s.store.next

/-! ## Sessions that lag behind -/

namespace Session

theorem Sound.planFor_alike {s : Session} (h : s.Sound) (q : Operation) :
    PlanAlike s.store.self (s.planFor q) (s.planFor q) := by
  cases q with
  | command c => exact h.plan_alike c
  | apply value argument =>
    refine h.planValue_alike value fun f hf => ?_
    by_cases ha : argument < s.store.next
    · rw [if_pos ha]
      exact .value (.job (.apply hf ⟨rfl, ha⟩))
    · rw [if_neg ha]
      exact .reply .nowhere

theorem running_store (s : Session) (tr : Bool) {α : Type} (p : Run α)
    {finish : Session → α → Session × Answer}
    (hfinish : ∀ t a, (finish t a).1.store = t.store) :
    (s.running tr p finish).session.store = (p tr s.store).store := by
  unfold running
  rcases p tr s.store with ⟨outcome, t, notes⟩
  cases outcome with
  | value a => exact hfinish ⟨t, s.envs, s.values⟩ a
  | error e => rfl
  | exhausted => rfl

/-- The store behind a plan is ahead of whatever lags behind the store before it. -/
theorem lags_follow {s : Session} {H : History} {β : Link} {r : Store} (h : Lags H β r s.store)
    (n : Nat) (tr : Bool) (plan : Plan) :
    ∃ K, Lags K β r (s.follow n tr plan).session.store := by
  have hscript : ∀ {α : Type} (p : Script α), ∃ K, Lags K β r (p.run n tr s.store).store := by
    intro α p
    obtain ⟨K, own, hg, -⟩ := p.hasAccount n H s.store [] tr h.recorded h.idle
    exact ⟨K, h.onward hg⟩
  cases plan with
  | reply answer => exact ⟨H, h⟩
  | value p =>
    rw [follow_value, running_store s tr _ fun _ _ => rfl]
    exact hscript p
  | env p =>
    rw [follow_env, running_store s tr _ fun _ _ => rfl]
    exact hscript p
  | data p =>
    rw [follow_data, running_store s tr _ fun _ _ => rfl]
    exact hscript p
  | program p =>
    rw [follow_program, running_store s tr _ fun _ _ => rfl]
    exact hscript p

/-- Attempts keep what a session has, and a store that lags behind lags behind still. -/
theorem after_keeps (s : Session) (attempts : List Attempt) : s.Keeps (s.after attempts) := by
  induction attempts generalizing s with
  | nil => exact .refl s
  | cons a rest ih =>
    have hfirst : s.Keeps (s.attempt a) := by
      rw [attempt, operate_eq_follow]
      exact s.follow_keeps _ _ _
    exact hfirst.trans (ih (s.attempt a))

theorem Sound.after {s : Session} (h : s.Sound) (attempts : List Attempt) :
    (s.after attempts).Sound := by
  induction attempts generalizing s with
  | nil => exact h
  | cons a rest ih =>
    refine ih ?_
    rw [attempt, operate_eq_follow]
    exact h.follow _ _ (h.planFor_alike a.operation)

theorem Reached.sound {s : Session} (h : s.Reached) : s.Sound := by
  obtain ⟨attempts, rfl⟩ := h
  exact sound_start.after attempts

theorem Reached.idle {s : Session} (h : s.Reached) : s.Idle := by
  obtain ⟨attempts, rfl⟩ := h
  exact (start.after_keeps attempts).idle Reachable.start.idle

theorem lags_after {s : Session} {H : History} {β : Link} {r : Store} (h : Lags H β r s.store)
    (attempts : List Attempt) : ∃ K, Lags K β r (s.after attempts).store := by
  induction attempts generalizing s H with
  | nil => exact ⟨H, h⟩
  | cons a rest ih =>
    obtain ⟨K, hfirst⟩ := lags_follow h a.allowance a.tracing (s.planFor a.operation)
    rw [← operate_eq_follow] at hfirst
    exact ih hfirst

end Session

end LazyConfig
