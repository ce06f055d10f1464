import LazyConfig.Eval.Data
set_option autoImplicit false

/-!
# Evaluation: call by name

The evaluator without its memory.  Cells are made where `perform` makes them, but a cell
is neither occupied while its computation goes on nor filled when it is over: whoever
needs it computes it again from its term and its environment.  Terms, applications and
builtin functions are those of `perform`.

It is no way to run programs.  It says what programs mean without any state, so it is
what the evaluator is compared with.
-/

namespace LazyConfig

section

variable (self : Task → Run Value)

/-- The value of a cell, computed anew unless the cell held it from the start. -/
def recomputeCell (a : Addr) : Run Value := do
  match ← Run.peek a with
  | .done v => return v
  | .running c => resume self c
  | .delayed c => resume self c

/-- One task without memory, with the help of tasks one level deeper. -/
def stepByName : Task → Run Value
  | .eval t env => evalTerm self t env
  | .apply f argument => applyValue self f argument
  | .force a => recomputeCell self a

end

/-- A task without memory, with an allowance of nested levels. -/
def performByName : Nat → Task → Run Value
  | 0, _ => Run.exhausted
  | n + 1, task => stepByName (performByName n) task

/-- The data of a value, computed by a given evaluator. -/
def deepenBy (run : Nat → Task → Run Value) : Nat → Value → Run (Data FunctionKind)
  | 0, _ => Run.exhausted
  | _ + 1, .text s => return .text s
  | n + 1, .list items => do
      let ds ← Run.forEach (fun a => do deepenBy run n (← run n (.force a))) items
      return .list ds
  | n + 1, .dict entries => do
      let ds ← Run.forEach (fun e => do
        let d ← deepenBy run n (← run n (.force e.2))
        return (e.1, d)) entries.entries
      return .dict ds
  | _ + 1, .closure _ _ _ => return .function .lambda
  | _ + 1, .builtin b _ => return .function (.builtin b)

theorem deepenBy_perform (n : Nat) (v : Value) : deepenBy perform n v = deepen n v := by
  induction n generalizing v with
  | zero => rfl
  | succ n ih => cases v <;> simp only [deepenBy, deepen, ih]

/-- The data of a term in an environment. -/
def computeShared (n : Nat) (t : Term) (env : Env) : Run (Data FunctionKind) := do
  deepen n (← perform n (.eval t env))

/-- The data of a term in an environment, with every cell computed as often as needed. -/
def computeByName (n : Nat) (t : Term) (env : Env) : Run (Data FunctionKind) := do
  deepenBy performByName n (← performByName n (.eval t env))

/-! ## Cells of plain data -/

mutual

/-- The value is plain data, down to the cells inside it. -/
def Store.ValueIs (s : Store) : Plain → Value → Prop
  | .text text, v => v = .text text
  | .list ds, v => ∃ items, v = .list items ∧ s.ItemsAre ds items
  | .dict ds, v => ∃ entries : Table Addr, v = .dict entries ∧ s.EntriesAre ds entries.entries
  | .function f, _ => nomatch f

/-- The cells hold the items of a list of plain data. -/
def Store.ItemsAre (s : Store) : List Plain → List Addr → Prop
  | [], items => items = []
  | d :: ds, items => ∃ a v rest, items = a :: rest ∧ s.get? a = some (.done v) ∧
      s.ValueIs d v ∧ s.ItemsAre ds rest

/-- The cells hold the entries of a dict of plain data, under the same keys. -/
def Store.EntriesAre (s : Store) : List (String × Plain) → List (String × Addr) → Prop
  | [], entries => entries = []
  | (key, d) :: ds, entries => ∃ a v rest, entries = (key, a) :: rest ∧
      s.get? a = some (.done v) ∧ s.ValueIs d v ∧ s.EntriesAre ds rest

end

/-- The cell holds plain data, ready and complete. -/
def Store.Holds (s : Store) (a : Addr) (d : Plain) : Prop :=
  ∃ v, s.get? a = some (.done v) ∧ s.ValueIs d v

/-- Every name is bound to a cell of ready plain data. -/
def Store.IsReady (s : Store) (env : Env) : Prop :=
  ∀ x a, env.get? x = some a → ∃ d, s.Holds a d

end LazyConfig
