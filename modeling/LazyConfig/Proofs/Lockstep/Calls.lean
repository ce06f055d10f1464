import LazyConfig.Proofs.Lockstep.Steps
set_option autoImplicit false

/-!
# Lockstep: calls with two arguments

A term that calls a builtin function makes a cell for each of two arguments, and the function
computes one after the other.  The run that evaluates the arguments where they stand, without
cells, goes in lockstep with it.  While the first argument is computed, the frame says that the
cell of the second one waits.
-/

namespace LazyConfig

open Run.Ends

/-- The frame with a further cell that nothing stands for. -/
def Frame.with (φ : Frame) (a : Addr) (d : Cell) : Frame :=
  ⟨fun b e => φ.held b e ∨ b = a ∧ e = d, False⟩

/-- The store of a call, with a cell for each argument. -/
def callStore (s : Store) (t u : Term) (env : Env) : Store :=
  (s.append [.delayed (.term t env)]).append [.delayed (.term u env)]

/-- The frame of a call while the first argument is computed. -/
def waiting (φ : Frame) (s : Store) (u : Term) (env : Env) : Frame :=
  φ.with (s.next + 1) (.delayed (.term u env))

variable {β γ : Link} {φ : Frame} {n : Nat} {tr tr' : Bool} {s s' v v' : Store} {env env' : Env}
  {t u : Term}

theorem get?_callStore_first (s : Store) (t u : Term) (env : Env) :
    (callStore s t u env).get? s.next = some (.delayed (.term t env)) :=
  Store.get?_append_of_some (Store.get?_append_next s _ []) _

theorem get?_callStore_second (s : Store) (t u : Term) (env : Env) :
    (callStore s t u env).get? (s.next + 1) = some (.delayed (.term u env)) := by
  rw [callStore, Store.append_append]
  exact Store.get?_append_add s _ 1

/-- A term that calls a builtin function makes the cells and calls it. -/
theorem Run.Ends.eval_call {b : Builtin} {call : Addr → Addr → Call}
    (hpartial : ∀ a, b.call? [a] = none) (hcall : ∀ a c, b.call? [a, c] = some (call a c)) :
    (perform (n + 3) (.eval (.app (.app (.function b) t) u) env)).Ends tr s
      (runCall (perform (n + 1)) (call s.next (s.next + 1)) tr (callStore s t u env)).outcome
      (runCall (perform (n + 1)) (call s.next (s.next + 1)) tr (callStore s t u env)).store := by
  have hfunction : (perform (n + 2) (.eval (.app (.function b) t) env)).Ends tr s
      (.value (.builtin b [s.next])) (s.append [.delayed (.term t env)]) :=
    eval_partial (eval_function b env) (hpartial _)
  have hnext : (s.append [.delayed (.term t env)]).next = s.next + 1 := Store.next_append s _
  refine eval_app hfunction ?_
  rw [hnext]
  exact apply_call (hcall _ _) ⟨rfl, rfl⟩

/-- Nothing stands for the new cells. -/
theorem Linked.callStore (hs : Linked β φ s s') (t u : Term) (env : Env) :
    Linked β (waiting φ s u env) (callStore s t u env) s' := by
  refine hs.left (fun a c hac => ?_) ?_ id
  · obtain ⟨d, d', hd, -, -⟩ := hs.cells a c hac
    rw [hd]
    exact Store.get?_append_of_some (Store.get?_append_of_some hd _) _
  · rintro a d (hd | ⟨rfl, rfl⟩)
    · obtain ⟨hget, hfree⟩ := hs.held a d hd
      exact ⟨Store.get?_append_of_some (Store.get?_append_of_some hget _) _, hfree⟩
    · exact ⟨get?_callStore_second s t u env, fun c hac => (hs.ne_new hac 1).1 rfl⟩

/-- The first argument, in its cell and where it stands. -/
theorem Alike.force_first (hs : Linked β φ s s') (he : EnvAlike β t env env') :
    Alike β (waiting φ s u env) ValueAlike
      (perform (n + 1) (.force s.next) tr (callStore s t u env))
      (perform n (.eval t env') tr' s') := by
  refine Alike.force_left (hs.callStore t u env) (get?_callStore_first s t u env)
    (fun c hac => (hs.ne_new hac 0).1 rfl) ?_ fun ψ hψ => ?_
  · rintro d (hd | ⟨heq, -⟩)
    · exact Store.ne_new_of_get? (hs.held _ _ hd).1 0 rfl
    · exact Nat.ne_of_lt (Nat.lt_succ_self _) heq
  · exact perform_alike ψ tr tr' n β _ s' _ _ hψ (.eval he)

/-- The cell of the second argument waits behind the first one. -/
theorem Linked.second (h : Linked γ (waiting φ s u env) v v') :
    v.get? (s.next + 1) = some (.delayed (.term u env)) ∧ ∀ c, ¬ γ (s.next + 1) c :=
  h.held _ _ (Or.inr ⟨rfl, rfl⟩)

/-- Once the second argument is needed, its cell need not be in the frame. -/
theorem Linked.of_waiting (h : Linked γ (waiting φ s u env) v v') (hφ : ¬ φ.whole) :
    Linked γ φ v v' :=
  h.left (fun _ _ _ => rfl) (fun a d hd => h.held a d (Or.inl hd)) hφ

/-- The second argument, in its cell and as another run has it from linked stores. -/
theorem Alike.force_second (hs : Linked β φ s s') (h : Linked γ (waiting φ s u env) v v')
    (hφ : ¬ φ.whole) {r' : Result Value}
    (hp : ∀ ψ w, ¬ ψ.whole → Linked γ ψ w v' →
      Alike γ ψ ValueAlike (perform n (.eval u env) tr w) r') :
    Alike γ φ ValueAlike (perform (n + 1) (.force (s.next + 1)) tr v) r' := by
  obtain ⟨hcell, hfree⟩ := h.second
  refine Alike.force_left (h.of_waiting hφ) hcell hfree (fun d hd => ?_) fun ψ hψ => ?_
  · exact Store.ne_new_of_get? (hs.held _ _ hd).1 1 rfl
  · refine hp ψ _ (fun hwhole => ?_) hψ
    have hlt := Store.lt_next_of_get? hcell
    rw [← Store.next_set v (s.next + 1) (.running (.term u env))] at hlt
    obtain ⟨c, hc⟩ := hψ.whole hwhole _ hlt
    exact hfree c hc

end LazyConfig
