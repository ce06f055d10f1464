import LazyConfig.Expr.ToTerm
import LazyConfig.Proofs.Lockstep.Calls
import LazyConfig.Proofs.Scripts.Allowance
set_option autoImplicit false

/-!
# Interpolation: terms appended to each other

Terms that are appended to each other become calls of `append` that are nested to the right.
`concatenate` says what they come to: the terms are evaluated one after the other from the
left, each to a text, and the texts are joined.  The first term that has no text ends it.

A term stands the deeper in the calls the more terms are in front of it, and the allowance
that is left for it is the smaller.  So the calls are compared with `concatenateBy`, where each
term has an allowance of its own.
-/

namespace LazyConfig

open Run.Ends

/-! ## Texts in sequence -/

/-- The text of a value, to append something to it. -/
def textOf : Value → Run String
  | .text a => return a
  | v => Run.fail (.notAString .append v.summary)

/-- The text that a term has in an environment. -/
def evalText (n : Nat) (t : Term) (env : Env) : Run String := do
  textOf (← perform n (.eval t env))

/-- The joined texts of terms.  The allowance of a term depends on how many are behind it. -/
def concatenateBy (allowance : Nat → Nat) (env : Env) : List Term → Run String
  | [] => return ""
  | t :: rest => do
      let a ← evalText (allowance rest.length) t env
      let b ← concatenateBy allowance env rest
      return a ++ b

/-- The joined texts of terms that are evaluated from the left. -/
def concatenate (n : Nat) (env : Env) (ts : List Term) : Run String :=
  concatenateBy (fun _ => n) env ts

variable {n m : Nat} {env env' : Env} {t u : Term} {ts rest : List Term} {tr tr' : Bool}
  {s s' : Store}

theorem concatenateBy_singleton (allowance : Nat → Nat) (t : Term) (env : Env) :
    concatenateBy allowance env [t] = evalText (allowance 0) t env := by
  have hstep : concatenateBy allowance env [t] =
      evalText (allowance 0) t env >>= fun a => pure (a ++ "") := rfl
  rw [hstep]
  simp only [String.append_empty]
  exact Run.bind_pure _

/-! ## Larger allowances -/

theorem Run.Le.eq_of_ne {α : Type} {p q : Run α} (h : p.Le q)
    (hout : (p tr s).outcome ≠ .exhausted) : q tr s = p tr s :=
  ((h tr s).resolve_left hout).symm

theorem Job.run_le (hnm : n ≤ m) {κ : Kind} (j : Job κ) : (j.run n).Le (j.run m) := by
  intro tr s
  by_cases hout : (j.run n tr s).outcome = .exhausted
  · exact Or.inl hout
  · rw [← Script.run_job] at hout
    have hsame := Script.run_eq_of_le hnm (Script.job j) hout
    rw [Script.run_job, Script.run_job] at hsame
    exact Or.inr hsame.symm

theorem perform_eval_le (hnm : n ≤ m) (t : Term) (env : Env) :
    (perform n (.eval t env)).Le (perform m (.eval t env)) :=
  Job.run_le hnm (.eval t env)

theorem evalText_le (hnm : n ≤ m) (t : Term) (env : Env) :
    (evalText n t env).Le (evalText m t env) :=
  .bind (perform_eval_le hnm t env) fun _ => .refl _

theorem concatenateBy_le {allowance larger : Nat → Nat} (env : Env)
    (h : ∀ k, k < ts.length → allowance k ≤ larger k) :
    (concatenateBy allowance env ts).Le (concatenateBy larger env ts) := by
  induction ts with
  | nil => exact .refl _
  | cons t rest ih =>
    refine .bind (evalText_le (h _ (Nat.lt_succ_self _)) t env) fun a => ?_
    exact .bind (ih fun k hk => h k (Nat.lt_succ_of_lt hk)) fun b => .refl _

/-! ## Calls in a chain -/

/-- What is left for a term with so many terms behind it, if the last one is left `n` levels.
The last call has two terms, and each call takes three levels. -/
def chained (n k : Nat) : Nat := n + 3 * (k - 1)

/-- The value of terms that are appended to each other. -/
def chain (n : Nat) (env : Env) : List Term → Run Value
  | [] => return .text ""
  | [t] => perform n (.eval t env)
  | t :: next :: rest => do
      let a ← evalText (chained n (next :: rest).length) t env
      let b ← chain n env (next :: rest) >>= textOf
      return .text (a ++ b)

theorem chain_bind_textOf (n : Nat) (env : Env) (t : Term) (rest : List Term) :
    (chain n env (t :: rest) >>= textOf) = concatenateBy (chained n) env (t :: rest) := by
  induction rest generalizing t with
  | nil => exact (concatenateBy_singleton (chained n) t env).symm
  | cons next rest ih =>
    rw [chain, concatenateBy, Run.bind_assoc, ih]
    simp only [Run.bind_assoc]
    rfl

theorem chain_cons_cons (n : Nat) (env : Env) (t next : Term) (rest : List Term) :
    chain n env (t :: next :: rest) =
      concatenateBy (chained n) env (t :: next :: rest) >>= fun a => pure (.text a) := by
  have hcons : concatenateBy (chained n) env (t :: next :: rest) =
      evalText (chained n (next :: rest).length) t env >>= fun a =>
        concatenateBy (chained n) env (next :: rest) >>= fun b => pure (a ++ b) := rfl
  rw [chain, chain_bind_textOf, hcons]
  simp only [Run.bind_assoc, Run.pure_bind]

section

variable {β γ : Link} {φ : Frame}

theorem textOf_alike {v w : Value} (hs : Linked γ φ s s') (h : ValueAlike γ v w) :
    Alike γ φ (fun _ => Eq) (textOf v tr s) (textOf w tr' s') := by
  have hsummary := h.summary_eq
  cases h with
  | text a => exact Alike.pure hs rfl
  | list _ | dict _ | closure _ | builtin _ =>
    simp only [textOf, hsummary]
    exact Alike.fail hs (.same _)

/-- One call: the first term is evaluated, and then the second one as another run does it. -/
theorem append_alike (hφ : ¬ φ.whole) (hs : Linked β φ s s') (he : EnvAlike β t env env')
    {q : Run Value} (hq : ∀ γ ψ w w', β.Le γ → ¬ ψ.whole → Linked γ ψ w w' →
      Alike γ ψ ValueAlike (perform n (.eval u env) tr w) (q tr' w')) :
    Alike β φ ValueAlike
      (perform (n + 3) (.eval (.app (.app (.function .append) t) u) env) tr s)
      ((do
        let a ← evalText n t env'
        let b ← q >>= textOf
        return Value.text (a ++ b)) tr' s') := by
  refine Alike.of_ends_left (eval_call (fun _ => rfl) (fun _ _ => rfl)) ?_
  have hfirst : Alike β (waiting φ s u env) (fun _ => Eq)
      (forceText (perform (n + 1)) .append s.next tr (callStore s t u env))
      (evalText n t env' tr' s') :=
    Alike.bind (Alike.force_first hs he) fun γ w w' a b _ hw hab => textOf_alike hw hab
  refine Alike.bind_frame hfirst (fun γ w w' hw => hw.of_waiting hφ) ?_
  rintro γ v v' a _ hle hv rfl
  have hsecond : Alike γ φ (fun _ => Eq)
      (forceText (perform (n + 1)) .append (s.next + 1) tr v) ((q >>= textOf) tr' v') :=
    Alike.bind (Alike.force_second hs hv hφ fun ψ w hψ hw => hq γ ψ w v' hle hψ hw)
      fun ζ w w' c d _ hw hcd => textOf_alike hw hcd
  refine Alike.bind hsecond ?_
  rintro ζ w w' b _ _ hw rfl
  exact Alike.pure hw (ValueAlike.text _)

/-- The calls go in lockstep with the run that evaluates one term after the other. -/
theorem chain_alike (n : Nat) (t : Term) (rest : List Term) (hφ : ¬ φ.whole)
    (hs : Linked β φ s s') (he : ∀ x, Paired β (env.get? x) (env'.get? x)) :
    Alike β φ ValueAlike (perform (n + 3 * rest.length) (.eval (appendTerms (t :: rest)) env) tr s)
      (chain n env' (t :: rest) tr' s') := by
  induction rest generalizing t β φ s s' with
  | nil => exact perform_alike φ tr tr' n β s s' _ _ hs (.eval fun x _ => he x)
  | cons next rest ih =>
    refine append_alike (n := n + 3 * rest.length) hφ hs (fun x _ => he x) ?_
    intro γ ψ w w' hle hψ hw
    exact ih next hψ hw fun x => (he x).imp hle

end

end LazyConfig
