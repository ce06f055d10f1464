import LazyConfig.Expr.ToTerm
import LazyConfig.Proofs.Lockstep.Calls
import LazyConfig.Proofs.Scope
set_option autoImplicit false

/-!
# Scopes: lookups

A name that a scope takes out of a source has the term of a lookup.  `select` says what it has
without that term: the source is evaluated in the environment, and what its dict has under the
name is computed.
-/

namespace LazyConfig

open Run.Ends

/-- The dict that a term has in an environment, to look something up in. -/
def evalDict (n : Nat) (u : Term) (env : Env) : Run (Table Addr) := do
  match ← perform n (.eval u env) with
  | .dict entries => return entries
  | v => Run.fail (.notADict .lookup v.summary)

/-- What the dict of a term has under a name. -/
def select (n : Nat) (u : Term) (x : String) (env : Env) : Run Value := do
  let entries ← evalDict n u env
  match entries.get? x with
  | some a => perform (n + 1) (.force a)
  | none => Run.fail (.keyNotFound x)

variable {n : Nat} {tr : Bool} {s : Store} {env : Env} {u : Term} {x : String}

/-- The source of a lookup, in its cell and by itself. -/
theorem forceDict_alike (hs : s.Closed) (henv : s.Binds env) :
    Alike s.self (waiting .silent s (.text x) env) (fun γ e e' => Keyed γ e.entries e'.entries)
      (forceDict (perform (n + 1)) .lookup s.next tr (callStore s u (.text x) env))
      (evalDict n u env tr s) := by
  refine Alike.bind (Alike.force_first hs.silent (henv.alike u)) fun γ t t' v w _ ht hv => ?_
  cases hv with
  | dict hentries => exact Alike.pure ht hentries
  | text text => exact Alike.fail ht (.same _)
  | list hitems =>
    have hsummary := (ValueAlike.list hitems).summary_eq
    exact Alike.fail ht (congrArg (EvalError.notADict .lookup) hsummary ▸ .same _)
  | closure he => exact Alike.fail ht (.same _)
  | builtin harguments => exact Alike.fail ht (.same _)

/-- A lookup has what the source has under the name. -/
theorem lookup_alike (hs : s.Closed) (henv : s.Binds env) :
    Alike s.self .silent ValueAlike (perform (n + 3) (.eval (lookupTerm u (.text x)) env) tr s)
      (select n u x env tr s) := by
  refine Alike.of_ends_left (eval_call (fun _ => rfl) (fun _ _ => rfl)) ?_
  cases n with
  | zero =>
    -- Nothing is left for the source, so neither run goes on behind it.
    have hstop : Alike s.self (waiting .silent s (.text x) env) (fun _ _ _ => False)
        (forceDict (perform 1) .lookup s.next tr (callStore s u (.text x) env))
        (evalDict 0 u env tr s) := by
      have halike : Alike s.self _ _ _ (evalDict 0 u env tr s) := forceDict_alike (x := x) hs henv
      obtain ⟨γ, hle, ht, ho⟩ := halike
      refine ⟨γ, hle, ht, ?_⟩
      have hexhausted : (evalDict 0 u env tr s).outcome = .exhausted := rfl
      rw [hexhausted] at ho ⊢
      generalize (forceDict (perform 1) .lookup s.next tr
        (callStore s u (.text x) env)).outcome = o at ho ⊢
      cases ho with
      | exhausted => exact .exhausted
    exact Alike.bind_silent hstop fun γ t t' e e' _ _ hfalse => hfalse.elim
  | succ n =>
    refine Alike.bind_silent (forceDict_alike hs henv) fun γ t t' e e' _ ht hentries => ?_
    obtain ⟨hcell, hfree⟩ := ht.second
    have hname : (forceText (perform (n + 2)) .lookup (s.next + 1)).Ends tr t (.value x)
        (t.set (s.next + 1) (.done (.text x))) :=
      (force_still hcell fun t => eval_text x env).bind (pure x tr _)
    have hlinked : Linked γ .silent (t.set (s.next + 1) (.done (.text x))) t' := by
      refine ht.left (fun a c hac => ?_) (fun a d hd => hd.elim) id
      have hne : s.next + 1 ≠ a := by
        rintro rfl
        exact hfree c hac
      rw [Store.get?_set, if_neg hne]
    refine Alike.of_ends_left (hname.bind ⟨rfl, rfl⟩) ?_
    obtain ⟨a, c, ha, hc, hac⟩ | ⟨ha, hc⟩ := hentries.findEntry x
    · have hget : e.get? x = some a := ha
      have hget' : e'.get? x = some c := hc
      simp only [hget, hget']
      exact perform_alike .silent tr tr (n + 2) _ _ _ _ _ hlinked (.force hac)
    · have hget : e.get? x = none := ha
      have hget' : e'.get? x = none := hc
      simp only [hget, hget']
      exact Alike.fail hlinked (.same _)

end LazyConfig
