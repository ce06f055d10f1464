import LazyConfig.Proofs.Lockstep.Alike
set_option autoImplicit false

/-!
# Lockstep: ends that cannot be told apart

A caller sees data, or the class of a failure and its words.  Runs that end alike, and whose
values are data, are the same to a caller: a failure names no cell.
-/

namespace LazyConfig

/-- Ends that cannot be told apart: the same value, failures of one class in the same words,
or allowances that are used up. -/
inductive Outcome.Same {α : Type} : Outcome α → Outcome α → Prop where
  | value (a : α) : Same (.value a) (.value a)
  | error {e e' : EvalError} (hclass : e.errorClass? = e'.errorClass?)
      (hmessage : ∀ labelled, e.message labelled = e'.message labelled) :
      Same (.error e) (.error e')
  | exhausted : Same .exhausted .exhausted

namespace Outcome.Same

variable {α : Type} {o o' o'' : Outcome α}

theorem symm (h : Same o o') : Same o' o := by
  cases h with
  | value a => exact .value a
  | error hclass hmessage => exact .error hclass.symm fun labelled => (hmessage labelled).symm
  | exhausted => exact .exhausted

theorem trans (h : Same o o') (h' : Same o' o'') : Same o o'' := by
  cases h with
  | value a => exact h'
  | exhausted => exact h'
  | error hclass hmessage =>
    cases h' with
    | error hclass' hmessage' =>
      exact .error (hclass.trans hclass') fun labelled =>
        (hmessage labelled).trans (hmessage' labelled)

end Outcome.Same

/-- Failures that are alike are of one class. -/
theorem ErrorAlike.errorClass?_eq {β : Link} {e e' : EvalError} (h : ErrorAlike β e e') :
    e.errorClass? = e'.errorClass? := by
  cases h with
  | same => rfl
  | recursion => rfl

theorem OutcomeAlike.same {α : Type} {β : Link} {o o' : Outcome α}
    (h : OutcomeAlike β Eq o o') : o.Same o' := by
  cases h with
  | value h => exact h ▸ .value _
  | error he => exact .error he.errorClass?_eq he.message_eq
  | exhausted => exact .exhausted

end LazyConfig
