import LazyConfig.Proofs.Scripts.Sessions
import LazyConfig.Proofs.Ends
set_option autoImplicit false

/-!
# What runs keep

A run may fill cells and make new ones, and it does nothing else to a store: a value stays
the value of its cell, a cell without a value goes on holding its own computation, and a
computation is going on behind the run exactly where one was going on in front of it.  This
holds however the run ends, so a failure that unwinds through any number of cells leaves
each of them to be tried again.

Environments and values are only ever added to a session, and what they hold are addresses.
So they are kept as they are, and their cells are kept in the sense above.
-/

namespace LazyConfig

/-! ## Later states -/

/-- What a cell may become: a delayed computation may be replaced by a value. -/
inductive Cell.Becomes : Cell → Cell → Prop where
  /-- The cell stays as it is. -/
  | same (c : Cell) : Becomes c c
  /-- The cell gets a value. -/
  | filled (k : Suspension) (v : Value) : Becomes (.delayed k) (.done v)

/-- What a cell holds behind its computation: the value, or the computation as before. -/
def Cell.settled (k : Suspension) : Outcome Value → Cell
  | .value v => .done v
  | .error _ => .delayed k
  | .exhausted => .delayed k

theorem Cell.becomes_settled (k : Suspension) (o : Outcome Value) :
    (Cell.delayed k).Becomes (settled k o) := by
  cases o with
  | value v => exact .filled k v
  | error e => exact .same _
  | exhausted => exact .same _

theorem Cell.settled_ne_running (k l : Suspension) (o : Outcome Value) :
    settled k o ≠ .running l := by
  cases o <;> exact nofun

theorem Store.settle_eq_set (s : Store) (a : Addr) (k : Suspension) (o : Outcome Value) :
    s.settle a k o = s.set a (.settled k o) := by
  cases o <;> rfl

theorem Cell.Becomes.trans {c d e : Cell} (h : c.Becomes d) (h' : d.Becomes e) : c.Becomes e := by
  cases h with
  | same => exact h'
  | filled k v =>
    cases h' with
    | same => exact .filled k v

/-- The second store is a later state of the first. -/
structure Store.Keeps (s t : Store) : Prop where
  /-- Every cell is still there. -/
  cells : ∀ a c, s.get? a = some c → ∃ d, t.get? a = some d ∧ c.Becomes d
  /-- No other computation is going on. -/
  running : ∀ a k, t.get? a = some (.running k) → s.get? a = some (.running k)

namespace Store.Keeps

variable {s t u : Store} {a : Addr}

theorem refl (s : Store) : s.Keeps s where
  cells := fun _ c h => ⟨c, h, .same c⟩
  running := fun _ _ h => h

theorem trans (h : s.Keeps t) (h' : t.Keeps u) : s.Keeps u where
  cells := by
    intro a c hc
    obtain ⟨d, hd, hcd⟩ := h.cells a c hc
    obtain ⟨e, he, hde⟩ := h'.cells a d hd
    exact ⟨e, he, hcd.trans hde⟩
  running := fun a k ha => h.running a k (h'.running a k ha)

/-- A value stays the value of its cell. -/
theorem done (h : s.Keeps t) {v : Value} (ha : s.get? a = some (.done v)) :
    t.get? a = some (.done v) := by
  obtain ⟨d, hd, hcd⟩ := h.cells a _ ha
  cases hcd with
  | same => exact hd

/-- A computation that is going on goes on. -/
theorem goes_on (h : s.Keeps t) {k : Suspension} (ha : s.get? a = some (.running k)) :
    t.get? a = some (.running k) := by
  obtain ⟨d, hd, hcd⟩ := h.cells a _ ha
  cases hcd with
  | same => exact hd

/-- There are at least as many cells as before. -/
theorem next_le (h : s.Keeps t) : s.next ≤ t.next := by
  refine Nat.le_of_not_lt fun hlt => ?_
  obtain ⟨c, hc⟩ := exists_get? hlt
  obtain ⟨d, hd, -⟩ := h.cells _ _ hc
  exact Nat.lt_irrefl _ (lt_next_of_get? hd)

/-- New cells may hold anything but a computation that is going on. -/
theorem append (s : Store) {cs : List Cell} (hcs : ∀ k, Cell.running k ∉ cs) :
    s.Keeps (s.append cs) where
  cells := fun a d hd => ⟨d, get?_append_of_some hd cs, .same d⟩
  running := by
    intro a k ha
    rw [get?_append] at ha
    split at ha
    · exact ha
    · exact absurd (List.mem_of_getElem? ha) (hcs k)

/-- A cell that was occupied in between: its computation is over, and it is settled. -/
theorem settle {k : Suspension} (ha : s.get? a = some (.delayed k))
    (h : (s.set a (.running k)).Keeps t) (o : Outcome Value) :
    s.Keeps (t.settle a k o) ∧ (t.settle a k o).get? a = some (.settled k o) := by
  have hlt : a < s.next := lt_next_of_get? ha
  have hoccupied : (s.set a (.running k)).get? a = some (.running k) := by
    rw [get?_set, if_pos rfl, if_pos hlt]
  have hlater : a < t.next := lt_next_of_get? (h.goes_on hoccupied)
  have hown : (t.settle a k o).get? a = some (.settled k o) := by
    rw [settle_eq_set, get?_set, if_pos rfl, if_pos hlater]
  have hother : ∀ b, a ≠ b → (t.settle a k o).get? b = t.get? b ∧
      (s.set a (.running k)).get? b = s.get? b := by
    intro b hab
    exact ⟨get?_settle_of_ne t hab k o, by rw [get?_set, if_neg hab]⟩
  refine ⟨⟨fun b c hb => ?_, fun b l hb => ?_⟩, hown⟩
  · by_cases hab : a = b
    · subst hab
      obtain rfl : Cell.delayed k = c := Option.some.inj (ha.symm.trans hb)
      exact ⟨_, hown, Cell.becomes_settled k o⟩
    · rw [(hother b hab).1]
      exact h.cells b c (by rw [(hother b hab).2, hb])
  · by_cases hab : a = b
    · subst hab
      exact absurd (Option.some.inj (hown.symm.trans hb)) (Cell.settled_ne_running k l o)
    · rw [(hother b hab).1] at hb
      rw [← (hother b hab).2]
      exact h.running b l hb

end Store.Keeps

/-! ## Runs that keep their store -/

/-- The run keeps every store, however it ends. -/
def Run.Keeps {α : Type} (p : Run α) : Prop := ∀ (tr : Bool) (s : Store), s.Keeps (p tr s).store

namespace Run.Keeps

variable {α β : Type} {p : Run α}

theorem pure (a : α) : (pure a : Run α).Keeps := fun _ s => .refl s

theorem fail (e : EvalError) : (Run.fail e : Run α).Keeps := fun _ s => .refl s

theorem exhausted : (Run.exhausted : Run α).Keeps := fun _ s => .refl s

theorem note (n : EvalNote) : (Run.note n).Keeps := fun _ s => .refl s

theorem grow (cs : Addr → List Suspension) : (Run.grow cs).Keeps :=
  fun _ s => .append s (by simp)

theorem allocate_done (v : Value) : (Run.allocate (.done v)).Keeps := by
  intro tr s
  rw [allocate_apply]
  exact .append s (by simp)

theorem bind {k : α → Run β} (hp : p.Keeps) (hk : ∀ a, (k a).Keeps) : (p >>= k).Keeps := by
  intro tr s
  have hfirst := hp tr s
  rcases hr : p tr s with ⟨outcome, t, notes⟩
  rw [hr] at hfirst
  cases outcome with
  | value a =>
    rw [Run.bind_of_value hr]
    exact hfirst.trans (hk a tr t)
  | error e =>
    rw [Run.bind_of_error hr]
    exact hfirst
  | exhausted =>
    rw [Run.bind_of_exhausted hr]
    exact hfirst

end Run.Keeps

/-! ## Cells -/

section

variable {self : Task → Run Value} (hself : ∀ task, (self task).Keeps)

include hself

theorem keeps_resume (k : Suspension) : (resume self k).Keeps := by
  cases k with
  | term t env => exact hself _
  | composed f x => exact Run.Keeps.bind (hself _) fun v => hself _

/-- Behind the run that forces a delayed cell the cell is settled. -/
theorem forceCell_delayed {a : Addr} {k : Suspension} (tr : Bool) {s : Store}
    (ha : s.get? a = some (.delayed k)) :
    s.Keeps (forceCell self a tr s).store ∧ (forceCell self a tr s).store.get? a =
      some (.settled k (forceCell self a tr s).outcome) := by
  have hforce : (forceCell self a).Ends tr s (Run.occupy a k (resume self k) tr s).outcome
      (Run.occupy a k (resume self k) tr s).store := by
    have hpeek : (Run.peek a).Ends tr s (.value (.delayed k)) s := by
      rw [Run.Ends, peek_apply ha]
      exact ⟨rfl, rfl⟩
    exact hpeek.bind ⟨rfl, rfl⟩
  rw [hforce.1, hforce.2, occupy_apply]
  exact Store.Keeps.settle ha (keeps_resume hself k tr _) _

theorem keeps_forceCell (a : Addr) : (forceCell self a).Keeps := by
  intro tr s
  cases ha : s.get? a with
  | none =>
    have hpeek : Run.peek a tr s = ⟨.error (.dangling a), s, []⟩ := by
      unfold Run.peek
      rw [ha]
    have hforce : forceCell self a tr s = _ := Run.bind_of_error hpeek _
    rw [hforce]
    exact .refl s
  | some c =>
    cases c with
    | delayed k => exact (forceCell_delayed hself tr ha).1
    | running k =>
      have hforce : forceCell self a tr s = _ := Run.bind_of_value (peek_apply ha) _
      rw [hforce]
      exact .refl s
    | done v =>
      have hforce : forceCell self a tr s = _ := Run.bind_of_value (peek_apply ha) _
      rw [hforce]
      exact .refl s

end

/-! ## Scripts -/

theorem Script.keeps_of_level {α : Type} {n : Nat} (hforce : ∀ a, (perform n (.force a)).Keeps)
    (hwork : ∀ {κ : Kind} (j : Job κ), (j.run n).Keeps) (p : Script α) : (p.run n).Keeps := by
  induction p with
  | done a => exact .pure a
  | fail e => exact .fail e
  | note x p ih => exact .bind (.note x) fun _ => ih
  | grow cs next ih => exact .bind (.grow cs) ih
  | store v next ih => exact .bind (.allocate_done v) ih
  | force a next ih => exact .bind (hforce a) ih
  | work j next ih => exact .bind (hwork j) ih

theorem levels_keep (n : Nat) :
    (∀ a, (perform n (.force a)).Keeps) ∧ ∀ {κ : Kind} (j : Job κ), (j.run n).Keeps := by
  induction n with
  | zero =>
    refine ⟨fun a => .exhausted, fun j => ?_⟩
    rw [Job.run_zero]
    exact .exhausted
  | succ n ih =>
    have htask : ∀ task, (perform n task).Keeps := by
      intro task
      cases task with
      | eval t env => exact ih.2 (.eval t env)
      | apply f a => exact ih.2 (.apply f a)
      | force a => exact ih.1 a
    refine ⟨keeps_forceCell htask, fun j => ?_⟩
    rw [Job.run_succ]
    exact j.script.keeps_of_level ih.1 ih.2

theorem Script.run_keeps {α : Type} (n : Nat) (p : Script α) : (p.run n).Keeps :=
  p.keeps_of_level (levels_keep n).1 (levels_keep n).2

theorem perform_keeps (n : Nat) (task : Task) : (perform n task).Keeps := by
  cases task with
  | eval t env => exact (levels_keep n).2 (.eval t env)
  | apply f a => exact (levels_keep n).2 (.apply f a)
  | force a => exact (levels_keep n).1 a

theorem deepen_keeps (n : Nat) (v : Value) : (deepen n v).Keeps := (levels_keep n).2 (.deepen v)

theorem express_keeps (n : Nat) (v : Value) : (express n v).Keeps := (levels_keep n).2 (.express v)

/-! ## Sessions -/

namespace Session

/-- The second session is a later state of the first. -/
structure Keeps (s t : Session) : Prop where
  /-- The store is a later state. -/
  store : s.store.Keeps t.store
  /-- Every environment is kept under its number. -/
  envs : ∀ (i : Nat) (env : Env), s.envs[i]? = some env → t.envs[i]? = some env
  /-- Every value is kept under its number. -/
  values : ∀ (i : Nat) (v : Value), s.values[i]? = some v → t.values[i]? = some v

/-- No computation is going on. -/
def Idle (s : Session) : Prop := ∀ a k, s.store.get? a ≠ some (.running k)

theorem Keeps.refl (s : Session) : s.Keeps s where
  store := .refl _
  envs := fun _ _ h => h
  values := fun _ _ h => h

theorem Keeps.trans {s t u : Session} (h : s.Keeps t) (h' : t.Keeps u) : s.Keeps u where
  store := h.store.trans h'.store
  envs := fun i env hi => h'.envs i env (h.envs i env hi)
  values := fun i v hi => h'.values i v (h.values i v hi)

theorem Keeps.idle {s t : Session} (h : s.Keeps t) (hs : s.Idle) : t.Idle :=
  fun a k ha => hs a k (h.store.running a k ha)

theorem getElem?_push_of_some {α : Type} {xs : Array α} {i : Nat} {x : α} (h : xs[i]? = some x)
    (y : α) : (xs.push y)[i]? = some x := by
  obtain ⟨hi, rfl⟩ := Array.getElem?_eq_some_iff.mp h
  rw [Array.getElem?_push_lt hi]

theorem keep_keeps (s : Session) (v : Value) : s.Keeps (s.keep v).1 where
  store := .refl _
  envs := fun _ _ h => h
  values := fun _ _ h => getElem?_push_of_some h v

theorem keepEnv_keeps (s : Session) (env : Env) : s.Keeps (s.keepEnv env).1 where
  store := .refl _
  envs := fun _ _ h => getElem?_push_of_some h env
  values := fun _ _ h => h

theorem running_keeps {α : Type} (s : Session) (tr : Bool) {p : Run α} (hp : p.Keeps)
    {finish : Session → α → Session × Answer} (hfinish : ∀ t a, Keeps t (finish t a).1) :
    s.Keeps (s.running tr p finish).session := by
  have hrun := hp tr s.store
  unfold running
  rcases hr : p tr s.store with ⟨outcome, t, notes⟩
  rw [hr] at hrun
  have hstore : s.Keeps ⟨t, s.envs, s.values⟩ := ⟨hrun, fun _ _ h => h, fun _ _ h => h⟩
  cases outcome with
  | value a => exact hstore.trans (hfinish ⟨t, s.envs, s.values⟩ a)
  | error e => exact hstore
  | exhausted => exact hstore

theorem follow_keeps (s : Session) (n : Nat) (tr : Bool) (plan : Plan) :
    s.Keeps (s.follow n tr plan).session := by
  cases plan with
  | reply answer => exact .refl s
  | value p => exact s.running_keeps tr (p.run_keeps n) keep_keeps
  | env p => exact s.running_keeps tr (p.run_keeps n) keepEnv_keeps
  | data p => exact s.running_keeps tr (p.run_keeps n) fun t _ => .refl t
  | program p => exact s.running_keeps tr (p.run_keeps n) fun t _ => .refl t

/-- A command keeps the session, whatever it answers. -/
theorem perform_command_keeps (s : Session) (n : Nat) (tr : Bool) (c : Command) :
    s.Keeps (s.perform n tr c).session := by
  rw [perform_eq_follow]
  exact s.follow_keeps n tr _

/-- Between the commands of a session no computation is going on. -/
theorem Reachable.idle {s : Session} (h : s.Reachable) : s.Idle := by
  induction h with
  | start => exact fun a k ha => nomatch Store.lt_next_of_get? ha
  | perform _ n tr c ih => exact (perform_command_keeps _ n tr c).idle ih

end Session

/-- Whatever is done with a store and however it ends, the store behind it is a later state:
every cell is still there, a cell with a value has it still, a computation is going on where
one was going on before and nowhere else, and any other cell holds its own computation as
before unless it has its value now.  A delayed cell that is forced has its value exactly if
the run gives one.  In a session no computation is going on between two commands, and a
command keeps, besides the store, each environment and each value as it is. -/
theorem operations_keep :
    (∀ (n : Nat) (task : Task) (tr : Bool) (s : Store), s.Keeps (perform n task tr s).store) ∧
      (∀ (n : Nat) (v : Value) (tr : Bool) (s : Store), s.Keeps (deepen n v tr s).store) ∧
      (∀ (n : Nat) (v : Value) (tr : Bool) (s : Store), s.Keeps (express n v tr s).store) ∧
      (∀ (n : Nat) (a : Addr) (k : Suspension) (tr : Bool) (s : Store),
        s.get? a = some (.delayed k) →
        (perform n (.force a) tr s).store.get? a =
          some (.settled k (perform n (.force a) tr s).outcome)) ∧
      ∀ s : Session, s.Reachable → s.Idle ∧
        ∀ (n : Nat) (tr : Bool) (c : Command), s.Keeps (s.perform n tr c).session := by
  refine ⟨fun n task => perform_keeps n task, fun n v => deepen_keeps n v,
    fun n v => express_keeps n v, fun n a k tr s ha => ?_,
    fun s hs => ⟨hs.idle, s.perform_command_keeps⟩⟩
  cases n with
  | zero => exact ha
  | succ n => exact (forceCell_delayed (perform_keeps n) tr ha).2

/-- A computation that fails stays in its cell. -/
theorem operations_keep_unbound :
    (perform 2 (.force 0) false ⟨#[.delayed (.term (.var "x") Table.empty)]⟩).store.get? 0 =
        some (.delayed (.term (.var "x") Table.empty)) ∧ Session.start.Idle :=
  ⟨operations_keep.2.2.2.1 2 0 (.term (.var "x") Table.empty) false _ rfl,
    (operations_keep.2.2.2.2 Session.start .start).1⟩

end LazyConfig
