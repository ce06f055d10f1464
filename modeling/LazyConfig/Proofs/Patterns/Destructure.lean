import LazyConfig.Proofs.Tables
import LazyConfig.Proofs.Ends
set_option autoImplicit false

/-!
# Patterns: taking an argument apart directly

What a function with a pattern is for, without the functions it is composed of.  The
argument is forced and nothing else; each name is bound to the entry under it, or else to
a new cell with its default.
-/

namespace LazyConfig

/-- The entries of an argument, which must be a dict and may have further keys only if
there is an ellipsis. -/
def takeEntries (names : List String) (ellipsis : Bool) : Value → Outcome (Table Addr)
  | .dict entries =>
      match entries.keys.filter fun k => !names.contains k, ellipsis with
      | extra@(_ :: _), false => .error (.unexpectedKeys extra)
      | _, _ => .value entries
  | v => .error (.notADict (if ellipsis then .mergeLeft else .disallowExtra) v.summary)

/-- New cells for terms under keys. -/
def delayTable (env : Env) (entries : List (String × Term)) : Run (Table Addr) := do
  let cells ← delayAll env (entries.map Prod.snd)
  return Table.ofList ((entries.map Prod.fst).zip cells)

/-- The environment in which each name has its entry, or else the cell of its default. -/
def bindFields (entries fallback : Table Addr) (names : List String) (env : Env) : Env :=
  names.foldl (fun env x =>
    match (entries.get? x).or (fallback.get? x) with
    | some a => env.insert x a
    | none => env) env

/-- The environment in which the names of a pattern are bound. -/
def destructure (names : List String) (ellipsis : Bool) (defaults : List (String × Term))
    (argument : Run Value) (env : Env) : Run Env := do
  let v ← argument
  let entries ← Run.conclude (takeEntries names ellipsis v)
  let fallback ← delayTable env defaults
  match names.filter fun x => !(entries.contains x || fallback.contains x) with
  | [] => return bindFields entries fallback names env
  | missing => Run.fail (.missingKeys missing)

/-! ## What is refused -/

/-- The keys that are refused are those outside the pattern, in ascending order. -/
theorem unexpected_of_takeEntries {names : List String} {ellipsis : Bool} {v : Value}
    {extra : List String} (h : takeEntries names ellipsis v = .error (.unexpectedKeys extra)) :
    ellipsis = false ∧ extra.Pairwise (· < ·) ∧
      ∃ entries, v = .dict entries ∧ ∀ k, k ∈ extra ↔ k ∈ entries.keys ∧ k ∉ names := by
  cases v with
  | dict entries =>
    have hpairwise : entries.keys.Pairwise (· < ·) := List.pairwise_map.mpr entries.ascending
    simp only [takeEntries] at h
    cases hextra : entries.keys.filter fun k => !names.contains k with
    | nil =>
      rw [hextra] at h
      cases h
    | cons k rest =>
      cases ellipsis with
      | true =>
        rw [hextra] at h
        cases h
      | false =>
        rw [hextra] at h
        obtain rfl := EvalError.unexpectedKeys.inj (Outcome.error.inj h)
        refine ⟨rfl, hextra ▸ hpairwise.filter _, entries, rfl, fun k' => ?_⟩
        rw [← hextra, List.mem_filter]
        simp
  | text text => cases h
  | list items => cases h
  | closure binder body env => cases h
  | builtin b arguments => cases h

/-! ## What is bound -/

/-- The names are bound to the entries of both dicts, the argument first. -/
theorem bindNames_merge (entries fallback : Table Addr) (names : List String) (env : Env) :
    bindNames (entries.merge fallback) names env = bindFields entries fallback names env := by
  induction names generalizing env with
  | nil => rfl
  | cons x names ih =>
    have hget := Table.get?_merge entries fallback x
    cases hx : (entries.get? x).or (fallback.get? x) with
    | none =>
      have hfields : bindFields entries fallback (x :: names) env =
          bindFields entries fallback names env := by
        unfold bindFields
        rw [List.foldl_cons, hx]
      rw [bindNames_cons_of_none (hget.trans hx), hfields, ih]
    | some a =>
      have hfields : bindFields entries fallback (x :: names) env =
          bindFields entries fallback names (env.insert x a) := by
        unfold bindFields
        rw [List.foldl_cons, hx]
      rw [bindNames_cons_of_some (hget.trans hx), hfields, ih]

end LazyConfig
