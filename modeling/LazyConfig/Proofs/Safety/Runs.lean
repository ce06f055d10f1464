import LazyConfig.Proofs.Keeping
import LazyConfig.Proofs.Safety.Scripts
import Mathlib.Logic.Relation
set_option autoImplicit false

/-!
# Safety: runs over proper stores

A safe script leaves a proper store behind a proper one, however its run ends, and fails in
declared ways only; by induction on the levels below it.

A run comes by many stores before it is over.  A *moment* of a run is what is left of a script
on some level, with the levels below and the store as it is then, and `Moment.Next` is one thing
more that is done.  What holds of all moments of a run is proved for one such thing.
-/

namespace LazyConfig

/-! ## Levels -/

/-- The run behind a proper store ended well. -/
structure Result.Safe {α : Type} (Fits : Nat → α → Prop) (r : Result α) : Prop where
  /-- The store is proper. -/
  store : r.store.Proper
  /-- The value is over the cells that are there now. -/
  value : ∀ a, r.outcome = .value a → Fits r.store.next a
  /-- The failure is a declared one. -/
  error : ∀ e, r.outcome = .error e → e.isDeclared = true

/-- What is done on a level below ends well over proper stores. -/
structure LevelSafe (tr : Bool) (n : Nat) : Prop where
  /-- Forcing a cell ends well. -/
  force : ∀ (s : Store) (a : Addr), s.Proper → a < s.next →
    (perform n (.force a) tr s).Safe Value.Proper
  /-- Proper jobs end well. -/
  work : ∀ (s : Store) (κ : Kind) (j : Job κ), s.Proper → j.Proper s.next →
    (j.run n tr s).Safe κ.Proper

namespace Result.Safe

variable {α β : Type} {Fits : Nat → α → Prop} {Fits' : Nat → β → Prop} {tr : Bool} {s : Store}

theorem pure (hs : s.Proper) {a : α} (ha : Fits s.next a) :
    ((pure a : Run α) tr s).Safe Fits where
  store := hs
  value := by
    rintro _ ⟨⟩
    exact ha
  error := fun _ h => nomatch h

theorem fail (hs : s.Proper) {e : EvalError} (he : e.isDeclared = true) :
    ((Run.fail e : Run α) tr s).Safe Fits where
  store := hs
  value := fun _ h => nomatch h
  error := by
    rintro _ ⟨⟩
    exact he

theorem exhausted (hs : s.Proper) : ((Run.exhausted : Run α) tr s).Safe Fits where
  store := hs
  value := fun _ h => nomatch h
  error := fun _ h => nomatch h

/-- What comes behind a run that gave a value. -/
theorem after {p : Run α} {k : α → Run β} {a : α} {t : Store} {notes : List EvalNote}
    (hp : p tr s = ⟨.value a, t, notes⟩) (hk : (k a tr t).Safe Fits') :
    ((p >>= k) tr s).Safe Fits' := by
  rw [Run.bind_of_value hp]
  exact ⟨hk.store, hk.value, hk.error⟩

theorem bind {p : Run α} {k : α → Run β} (hp : (p tr s).Safe Fits)
    (hk : ∀ (t : Store) (a : α), (p tr s).store = t → t.Proper → Fits t.next a →
      (k a tr t).Safe Fits') : ((p >>= k) tr s).Safe Fits' := by
  rcases hr : p tr s with ⟨outcome, t, notes⟩
  rw [hr] at hp hk
  cases outcome with
  | value a => exact after hr (hk t a rfl hp.store (hp.value a rfl))
  | error e =>
    rw [Run.bind_of_error hr]
    refine ⟨hp.store, fun _ h => (nomatch h), fun e' h => ?_⟩
    obtain rfl := Outcome.error.inj h
    exact hp.error e rfl
  | exhausted =>
    rw [Run.bind_of_exhausted hr]
    exact ⟨hp.store, fun _ h => (nomatch h), fun _ h => (nomatch h)⟩

end Result.Safe

/-- New cells for computations that may refer to each other. -/
theorem Store.Proper.grow {s : Store} (hs : s.Proper) {ks : List Suspension}
    (hks : ∀ k ∈ ks, k.Proper (s.next + ks.length)) : (s.append (ks.map .delayed)).Proper := by
  refine hs.append fun c hc => ?_
  obtain ⟨k, hk, rfl⟩ := List.mem_map.mp hc
  rw [List.length_map]
  exact .delayed (hks k hk)

/-- A new cell for a value. -/
theorem Store.Proper.keep {s : Store} (hs : s.Proper) {v : Value} (hv : v.Proper s.next) :
    (s.append [.done v]).Proper := by
  refine hs.append fun c hc => ?_
  obtain rfl := List.mem_singleton.mp hc
  exact .done (hv.mono (Nat.le_succ _))

section

variable {tr : Bool} {n : Nat}

/-- A safe script ends well over a proper store. -/
theorem Script.Safe.run {α : Type} {Fits : Nat → α → Prop} {p : Script α} {size : Nat}
    (hp : p.Safe Fits size) (hlevel : LevelSafe tr n) {s : Store} (hs : s.Proper)
    (hsize : s.next = size) : (p.run n tr s).Safe Fits := by
  induction hp generalizing s with
  | done h => exact .pure hs (hsize ▸ h)
  | fail h => exact .fail hs h
  | note x _ ih => exact Result.Safe.after rfl (ih hs hsize)
  | @grow size cs next hcs _ ih =>
    subst hsize
    refine Result.Safe.after rfl (ih (hs.grow hcs) ?_)
    rw [Store.next_append, List.length_map]
  | store hv _ ih =>
    subst hsize
    refine Result.Safe.after (allocate_apply _ tr s) (ih (hs.keep hv) ?_)
    rw [Store.next_append, List.length_singleton]
  | force ha _ ih =>
    subst hsize
    refine Result.Safe.bind (hlevel.force s _ hs ha) fun t v ht hproper hv => ?_
    have hle : s.next ≤ t.next := ht ▸ (perform_keeps n _ tr s).next_le
    exact ih t.next v hle hv hproper rfl
  | @work size κ j next hj _ ih =>
    subst hsize
    refine Result.Safe.bind (hlevel.work s κ j hs hj) fun t x ht hproper hx => ?_
    have hle : s.next ≤ t.next := ht ▸ ((levels_keep n).2 j tr s).next_le
    exact ih t.next x hle hx hproper rfl

/-- Behind the computation of a cell the cell is settled. -/
theorem Result.Safe.settle {r : Result Value} (h : r.Safe Value.Proper) (a : Addr)
    {k : Suspension} (hk : k.Proper r.store.next) : (r.store.settle a k r.outcome).Proper := by
  rw [Store.settle_eq_set]
  refine h.store.set a ?_
  cases ho : r.outcome with
  | value v => exact .done (h.value v ho)
  | error e => exact .delayed hk
  | exhausted => exact .delayed hk

theorem safe_force (hlevel : LevelSafe tr n) {s : Store} {a : Addr} (hs : s.Proper)
    (ha : a < s.next) : (perform (n + 1) (.force a) tr s).Safe Value.Proper := by
  obtain ⟨c, hc⟩ := Store.exists_get? ha
  refine Result.Safe.after (peek_apply hc) ?_
  cases hs a c hc with
  | done hv => exact .pure hs hv
  | running hk => exact .fail hs rfl
  | @delayed k hk =>
    have hoccupied : (s.set a (.running k)).Proper := hs.set a (.running hk)
    have hrun := (Script.Safe.resume hk).run hlevel hoccupied (Store.next_set s a _)
    have hlater := ((Script.resume k).run_keeps n tr (s.set a (.running k))).next_le
    rw [Store.next_set] at hlater
    rw [Script.run_resume] at hrun hlater
    have hsettled := hrun.settle a (hk.mono hlater)
    dsimp only
    rw [occupy_apply]
    refine ⟨hsettled, fun v hv => ?_, hrun.error⟩
    rw [Store.next_settle]
    exact hrun.value v hv

theorem levelSafe (tr : Bool) (n : Nat) : LevelSafe tr n := by
  induction n with
  | zero =>
    refine ⟨fun s a hs _ => .exhausted hs, fun s κ j hs _ => ?_⟩
    rw [Job.run_zero]
    exact .exhausted hs
  | succ n ih =>
    refine ⟨fun s a hs ha => safe_force ih hs ha, fun s κ j hs hj => ?_⟩
    rw [Job.run_succ]
    exact hj.script.run ih hs rfl

end

/-! ## Moments -/

/-- What is left to do on a level, the number of levels below it, and the store. -/
structure Moment where
  /-- The kind of the result. -/
  kind : Kind
  /-- The levels below. -/
  levels : Nat
  /-- What is left to do. -/
  script : Script kind.Result
  /-- The store. -/
  store : Store

namespace Moment

/-- One thing more is done: a note is left, cells are made, a delayed cell is occupied and its
computation starts on the level below, or a job starts there.  With what forcing a cell or a job
gave the level goes on, and if it failed the level fails too. -/
inductive Next (tr : Bool) : Moment → Moment → Prop where
  | note {κ : Kind} {n : Nat} {x : EvalNote} {p : Script κ.Result} {s : Store} :
      Next tr ⟨κ, n, .note x p, s⟩ ⟨κ, n, p, s⟩
  | grow {κ : Kind} {n : Nat} {cs : Addr → List Suspension} {next : Addr → Script κ.Result}
      {s : Store} :
      Next tr ⟨κ, n, .grow cs next, s⟩ ⟨κ, n, next s.next, s.append ((cs s.next).map .delayed)⟩
  | store {κ : Kind} {n : Nat} {v : Value} {next : Addr → Script κ.Result} {s : Store} :
      Next tr ⟨κ, n, .store v next, s⟩ ⟨κ, n, next s.next, s.append [.done v]⟩
  | occupy {κ : Kind} {n : Nat} {a : Addr} {next : Value → Script κ.Result} {s : Store}
      {k : Suspension} (hk : s.get? a = some (.delayed k)) :
      Next tr ⟨κ, n + 1, .force a next, s⟩ ⟨.value, n, Script.resume k, s.set a (.running k)⟩
  | forced {κ : Kind} {n : Nat} {a : Addr} {next : Value → Script κ.Result} {s t : Store}
      {v : Value} (h : (perform n (.force a)).Ends tr s (.value v) t) :
      Next tr ⟨κ, n, .force a next, s⟩ ⟨κ, n, next v, t⟩
  | unforced {κ : Kind} {n : Nat} {a : Addr} {next : Value → Script κ.Result} {s t : Store}
      {e : EvalError} (h : (perform n (.force a)).Ends tr s (.error e) t) :
      Next tr ⟨κ, n, .force a next, s⟩ ⟨κ, n, .fail e, t⟩
  | start {κ μ : Kind} {n : Nat} {j : Job μ} {next : μ.Result → Script κ.Result} {s : Store} :
      Next tr ⟨κ, n + 1, .work j next, s⟩ ⟨μ, n, j.script, s⟩
  | worked {κ μ : Kind} {n : Nat} {j : Job μ} {next : μ.Result → Script κ.Result} {s t : Store}
      {x : μ.Result} (h : (j.run n).Ends tr s (.value x) t) :
      Next tr ⟨κ, n, .work j next, s⟩ ⟨κ, n, next x, t⟩
  | failed {κ μ : Kind} {n : Nat} {j : Job μ} {next : μ.Result → Script κ.Result} {s t : Store}
      {e : EvalError} (h : (j.run n).Ends tr s (.error e) t) :
      Next tr ⟨κ, n, .work j next, s⟩ ⟨κ, n, .fail e, t⟩

/-- The later moment is one of the run from the earlier one. -/
def Leads (tr : Bool) : Moment → Moment → Prop := Relation.ReflTransGen (Next tr)

section

variable {tr : Bool} {κ : Kind} {n : Nat} {p : Script κ.Result} {s t : Store}

/-- A run that gives a value has this among its moments. -/
theorem leads_of_value {x : κ.Result} (h : (p.run n).Ends tr s (.value x) t) :
    Leads tr ⟨κ, n, p, s⟩ ⟨κ, n, .done x, t⟩ := by
  induction p generalizing s with
  | done y =>
    obtain ⟨ho, rfl⟩ := h
    obtain rfl := Outcome.value.inj ho
    exact .refl
  | fail e => exact nomatch h.1
  | note y p ih => exact .head .note (ih h)
  | grow cs next ih => exact .head .grow (ih _ h)
  | store v next ih => exact .head .store (ih _ h)
  | force a next ih =>
    obtain ⟨v, u, hv, h⟩ := h.value_of_bind
    exact .head (.forced hv) (ih v h)
  | work j next ih =>
    obtain ⟨y, u, hy, h⟩ := h.value_of_bind
    exact .head (.worked hy) (ih y h)

/-- A run that fails has the failure among its moments. -/
theorem leads_of_error {e : EvalError} (h : (p.run n).Ends tr s (.error e) t) :
    Leads tr ⟨κ, n, p, s⟩ ⟨κ, n, .fail e, t⟩ := by
  induction p generalizing s with
  | done y => exact nomatch h.1
  | fail e' =>
    obtain ⟨ho, rfl⟩ := h
    obtain rfl := Outcome.error.inj ho
    exact .refl
  | note y p ih => exact .head .note (ih h)
  | grow cs next ih => exact .head .grow (ih _ h)
  | store v next ih => exact .head .store (ih _ h)
  | force a next ih =>
    obtain ⟨v, u, hv, h⟩ | ⟨o, ho, hstop⟩ := h.of_bind
    · exact .head (.forced hv) (ih v h)
    · cases hstop
      exact .head (.unforced ho) .refl
  | work j next ih =>
    obtain ⟨y, u, hy, h⟩ | ⟨o, ho, hstop⟩ := h.of_bind
    · exact .head (.worked hy) (ih y h)
    · cases hstop
      exact .head (.failed ho) .refl

end

/-- What is left to do is safe over a proper store. -/
structure Safe (m : Moment) : Prop where
  /-- The store is proper. -/
  store : m.store.Proper
  /-- The script is safe over the cells of the store. -/
  script : m.script.Safe m.kind.Proper m.store.next

variable {tr : Bool} {m m' : Moment}

/-- One thing more is safe. -/
theorem Safe.next (hm : m.Safe) (h : m.Next tr m') : m'.Safe := by
  obtain ⟨hs, hp⟩ := hm
  cases h with
  | note =>
    cases hp with
    | note x hp => exact ⟨hs, hp⟩
  | grow =>
    cases hp with
    | grow hcs hp =>
      refine ⟨hs.grow hcs, ?_⟩
      dsimp only
      rw [Store.next_append, List.length_map]
      exact hp
  | store =>
    cases hp with
    | store hv hp =>
      refine ⟨hs.keep hv, ?_⟩
      dsimp only
      rw [Store.next_append, List.length_singleton]
      exact hp
  | occupy hk =>
    cases hs _ _ hk with
    | delayed hproper =>
      refine ⟨hs.set _ (.running hproper), ?_⟩
      dsimp only
      rw [Store.next_set]
      exact .resume hproper
  | @forced κ n a next s t v h =>
    cases hp with
    | force ha hp =>
      obtain ⟨ho, rfl⟩ := h
      have hsafe := (levelSafe tr n).force s a hs ha
      exact ⟨hsafe.store, hp _ v (perform_keeps n _ tr s).next_le (hsafe.value v ho)⟩
  | @unforced κ n a next s t e h =>
    cases hp with
    | force ha hp =>
      obtain ⟨ho, rfl⟩ := h
      have hsafe := (levelSafe tr n).force s a hs ha
      exact ⟨hsafe.store, .fail (hsafe.error e ho)⟩
  | start =>
    cases hp with
    | work hj hp => exact ⟨hs, hj.script⟩
  | @worked κ μ n j next s t x h =>
    cases hp with
    | work hj hp =>
      obtain ⟨ho, rfl⟩ := h
      have hsafe := (levelSafe tr n).work s μ j hs hj
      exact ⟨hsafe.store, hp _ x ((levels_keep n).2 j tr s).next_le (hsafe.value x ho)⟩
  | @failed κ μ n j next s t e h =>
    cases hp with
    | work hj hp =>
      obtain ⟨ho, rfl⟩ := h
      have hsafe := (levelSafe tr n).work s μ j hs hj
      exact ⟨hsafe.store, .fail (hsafe.error e ho)⟩

/-- Every moment of a run is safe if the first one is. -/
theorem Safe.leads (hm : m.Safe) (h : m.Leads tr m') : m'.Safe := by
  induction h with
  | refl => exact hm
  | tail _ hnext ih => exact ih.next hnext

end Moment

end LazyConfig
