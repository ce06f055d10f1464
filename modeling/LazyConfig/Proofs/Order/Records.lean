import LazyConfig.Proofs.Order.Histories
set_option autoImplicit false

/-!
# Order: runs write history

A history records a store if it agrees with what is in its cells.  Every run from a
recorded store leaves a recorded store: the history goes on from where it was, and there
is an account of the run in it, of the one kind if it gave a value and of the other kind if
it did not.  The cells that the run made on its own are none that any entry has.
-/

namespace LazyConfig

/-! ## Recorded stores -/

/-- What a history says of a cell. -/
inductive History.Tells (H : History) (a : Addr) : Cell → Prop where
  | delayed {c : Suspension} (hc : H.origin a = some (.suspended c))
      (hlog : ∀ e ∈ H.log, e.cell ≠ a) : Tells H a (.delayed c)
  | running {c : Suspension} (hc : H.origin a = some (.suspended c))
      (hlog : ∀ e ∈ H.log, e.cell ≠ a) : Tells H a (.running c)
  | done {v : Value} (hv : H.Knows a v) : Tells H a (.done v)

/-- The history agrees with the store. -/
structure Recorded (H : History) (s : Store) : Prop where
  /-- It is right about the cells. -/
  cells : ∀ a c, s.get? a = some c → H.Tells a c
  /-- It has no other cells. -/
  bounded : ∀ a o, H.origin a = some o → a < s.next
  /-- The cells made for computations are in the store. -/
  made : ∀ e ∈ H.log, ∀ x ∈ e.own, x < s.next
  /-- Its log is valid. -/
  valid : ValidLog H.origin H.log

/-- The cells whose computations are going on. -/
def Store.Busy (s : Store) (busy : List Addr) : Prop :=
  ∀ b, b ∈ busy ↔ ∃ c, s.get? b = some (.running c)

theorem Store.Busy.keeps {s t : Store} {busy : List Addr} (h : s.Busy busy) (hk : s.Keeps t) :
    t.Busy busy := fun b =>
  ⟨fun hb => ((h b).mp hb).imp fun _ hc => hk.goes_on hc,
    fun ⟨c, hc⟩ => (h b).mpr ⟨c, hk.running b c hc⟩⟩

/-- One more computation is going on. -/
theorem Store.Busy.occupy {s : Store} {busy : List Addr} (h : s.Busy busy) {b : Addr}
    (hb : b < s.next) (c : Suspension) : (s.set b (.running c)).Busy (b :: busy) := by
  intro a
  rw [List.mem_cons, Store.get?_set]
  by_cases hab : b = a
  · subst hab
    rw [if_pos rfl, if_pos hb]
    exact ⟨fun _ => ⟨c, rfl⟩, fun _ => Or.inl rfl⟩
  · rw [if_neg hab, ← h a]
    exact ⟨fun ha => ha.resolve_left (Ne.symm hab), Or.inr⟩

theorem History.Tells.add {H K : History} {a : Addr} {c : Cell} (hle : H.Le K)
    (hlog : K.log = H.log) (h : H.Tells a c) : K.Tells a c := by
  cases h with
  | delayed hc hnot => exact .delayed (hle.origin a _ hc) (hlog ▸ hnot)
  | running hc hnot => exact .running (hle.origin a _ hc) (hlog ▸ hnot)
  | done hv => exact .done (hv.mono hle)

namespace Recorded

variable {H : History} {s : Store}

/-- A cell in the log is in the store. -/
theorem lt_next (h : Recorded H s) {e : Entry} (he : e ∈ H.log) : e.cell < s.next := by
  obtain ⟨c, hc⟩ := h.valid.suspended he
  exact h.bounded _ _ hc

theorem le_add (h : Recorded H s) (os : List Origin) : H.Le (H.add s.next os) where
  origin := by
    intro a o ho
    simp only [History.add]
    rw [if_pos (h.bounded a o ho), ho]
  log := fun e he => he

/-- New cells. -/
theorem append (h : Recorded H s) (os : List Origin) :
    Recorded (H.add s.next os) (s.append (os.map Origin.cell)) where
  cells := by
    intro a c hc
    rw [Store.get?_append] at hc
    by_cases hlt : a < s.next
    · rw [if_pos hlt] at hc
      exact (h.cells a c hc).add (h.le_add os) rfl
    · rw [if_neg hlt, List.getElem?_map] at hc
      obtain ⟨o, ho, rfl⟩ := Option.map_eq_some_iff.mp hc
      have horigin : (H.add s.next os).origin a = some o := by
        simp only [History.add]
        rw [if_neg hlt, ho]
      cases o with
      | suspended c => exact .delayed horigin fun e he heq => hlt (heq ▸ h.lt_next he)
      | ready v => exact .done (.ready horigin)
  bounded := by
    intro a o ho
    rw [Store.next_append, List.length_map]
    by_cases hlt : a < s.next
    · exact Nat.lt_add_right _ hlt
    · simp only [History.add] at ho
      rw [if_neg hlt] at ho
      have hi := (List.getElem?_eq_some_iff.mp ho).1
      exact (Nat.sub_lt_iff_lt_add' (Nat.not_lt.mp hlt)).mp hi
  made := by
    intro e he x hx
    rw [Store.next_append]
    exact Nat.lt_add_right _ (h.made e he x hx)
  valid := h.valid.mono (h.le_add os).origin

/-- A cell may change in a way that the history agrees with. -/
theorem set (h : Recorded H s) {a : Addr} {c : Cell} (hc : H.Tells a c) :
    Recorded H (s.set a c) where
  cells := by
    intro b d hd
    rw [Store.get?_set] at hd
    split at hd
    · next hab =>
      subst hab
      split at hd
      · exact Option.some.inj hd ▸ hc
      · exact nomatch hd
    · exact h.cells b d hd
  bounded := fun b o ho => (Store.next_set s a c).symm ▸ h.bounded b o ho
  made := fun e he x hx => (Store.next_set s a c).symm ▸ h.made e he x hx
  valid := h.valid

end Recorded

/-! ## Later records -/

/-- The later store is recorded by a later history, and these cells were made in between
that no computation of the log made. -/
structure Grows (H : History) (s : Store) (own : List Addr) (K : History) (t : Store) :
    Prop where
  /-- The history goes on. -/
  le : H.Le K
  /-- New computations made new cells. -/
  recent : ∀ e ∈ K.log, e ∈ H.log ∨ ∀ x ∈ e.own, s.next ≤ x
  /-- The later store is recorded. -/
  recorded : Recorded K t
  /-- It is a later state of the earlier store. -/
  keeps : s.Keeps t
  /-- The cells are different ones. -/
  nodup : own.Nodup
  /-- They are new. -/
  new : ∀ x ∈ own, s.next ≤ x ∧ x < t.next
  /-- No computation made them. -/
  apart : ∀ x ∈ own, ∀ e ∈ K.log, x ∉ e.own

namespace Grows

variable {H K L : History} {s t u : Store} {own more : List Addr}

theorem refl (h : Recorded H s) : Grows H s [] H s where
  le := .refl H
  recent := fun _ he => Or.inl he
  recorded := h
  keeps := .refl s
  nodup := List.nodup_nil
  new := fun _ hx => absurd hx List.not_mem_nil
  apart := fun _ hx => absurd hx List.not_mem_nil

theorem trans (h : Grows H s own K t) (h' : Grows K t more L u) :
    Grows H s (own ++ more) L u where
  le := h.le.trans h'.le
  recent := by
    intro e he
    rcases h'.recent e he with hold | hnew
    · exact h.recent e hold
    · exact Or.inr fun x hx => Nat.le_trans h.keeps.next_le (hnew x hx)
  recorded := h'.recorded
  keeps := h.keeps.trans h'.keeps
  nodup := by
    refine List.nodup_append.mpr ⟨h.nodup, h'.nodup, fun x hx y hy hxy => ?_⟩
    exact Nat.lt_irrefl x (Nat.lt_of_lt_of_le (h.new x hx).2 (hxy ▸ (h'.new y hy).1))
  new := by
    intro x hx
    rcases List.mem_append.mp hx with hx | hx
    · exact ⟨(h.new x hx).1, Nat.lt_of_lt_of_le (h.new x hx).2 h'.keeps.next_le⟩
    · exact ⟨Nat.le_trans h.keeps.next_le (h'.new x hx).1, (h'.new x hx).2⟩
  apart := by
    intro x hx e he hmem
    rcases List.mem_append.mp hx with hx | hx
    · rcases h'.recent e he with hold | hnew
      · exact h.apart x hx e hold hmem
      · exact Nat.lt_irrefl x (Nat.lt_of_lt_of_le (h.new x hx).2 (hnew x hmem))
    · exact h'.apart x hx e he hmem

/-- New cells. -/
theorem append (h : Recorded H s) (os : List Origin) :
    Grows H s (List.range' s.next os.length) (H.add s.next os)
      (s.append (os.map Origin.cell)) where
  le := h.le_add os
  recent := fun _ he => Or.inl he
  recorded := h.append os
  keeps := by
    refine .append s fun k hk => ?_
    obtain ⟨o, -, ho⟩ := List.mem_map.mp hk
    cases o <;> exact nomatch ho
  nodup := List.nodup_range'
  new := by
    intro x hx
    rw [List.mem_range'_1] at hx
    rw [Store.next_append, List.length_map]
    exact hx
  apart := by
    intro x hx e he hmem
    rw [List.mem_range'_1] at hx
    exact Nat.lt_irrefl x (Nat.lt_of_lt_of_le (h.made e he x hmem) hx.1)

section

variable {b : Addr} {c : Suspension}

/-- Behind a computation that is over, the log has no entry for its cell yet. -/
theorem unlogged (hb : s.get? b = some (.delayed c))
    (h : Grows H (s.set b (.running c)) own K t) :
    K.origin b = some (.suspended c) ∧ ∀ e ∈ K.log, e.cell ≠ b := by
  have hrunning : (s.set b (.running c)).get? b = some (.running c) := by
    rw [Store.get?_set, if_pos rfl, if_pos (Store.lt_next_of_get? hb)]
  have htells := h.recorded.cells b _ (h.keeps.goes_on hrunning)
  cases htells with
  | running hc hlog => exact ⟨hc, hlog⟩

/-- A computation that gives a value is entered in the log, with the cells it made. -/
theorem settle_value (hb : s.get? b = some (.delayed c)) {v : Value}
    (h : Grows H (s.set b (.running c)) own K t) (hgives : Gives K (Script.resume c) v own) :
    Grows H s [] (K.enter ⟨b, v, own⟩) (t.set b (.done v)) := by
  obtain ⟨horigin, hlog⟩ := unlogged hb h
  have hnext : ∀ x ∈ own, s.next ≤ x := by
    intro x hx
    rw [← Store.next_set s b (.running c)]
    exact (h.new x hx).1
  refine ⟨h.le.trans (K.le_enter _), fun e he => ?_, ⟨fun a d hd => ?_, fun a o ho => ?_,
    fun e he x hx => ?_, ?_⟩, (Store.Keeps.settle hb h.keeps (.value v)).1, List.nodup_nil,
    fun _ hx => absurd hx List.not_mem_nil, fun _ hx => absurd hx List.not_mem_nil⟩
  · rcases List.mem_cons.mp he with rfl | hold
    · exact Or.inr hnext
    · have hrecent := h.recent e hold
      rwa [Store.next_set] at hrecent
  · rw [Store.get?_set] at hd
    by_cases hab : b = a
    · subst hab
      have hlt : b < t.next := h.recorded.bounded b _ horigin
      rw [if_pos rfl, if_pos hlt, Option.some.injEq] at hd
      subst hd
      exact .done (.computed ⟨b, v, own⟩ (List.mem_cons_self ..) rfl rfl)
    · rw [if_neg hab] at hd
      have hother : ∀ {e : Entry}, e ∈ (K.enter ⟨b, v, own⟩).log → (∀ e ∈ K.log, e.cell ≠ a) →
          e.cell ≠ a := by
        intro e he hold
        rcases List.mem_cons.mp he with rfl | he
        · exact hab
        · exact hold e he
      cases h.recorded.cells a d hd with
      | delayed hc hold => exact .delayed hc fun e he => hother he hold
      | running hc hold => exact .running hc fun e he => hother he hold
      | done hv => exact .done (hv.mono (K.le_enter _))
  · rw [Store.next_set]
    exact h.recorded.bounded a o ho
  · rw [Store.next_set]
    rcases List.mem_cons.mp he with rfl | hold
    · exact (h.new x hx).2
    · exact h.recorded.made e hold x hx
  · exact .cons h.recorded.valid horigin hlog hgives h.nodup h.apart

/-- A computation that gives no value is forgotten, and the cells it made are left over. -/
theorem settle_stop (hb : s.get? b = some (.delayed c))
    (h : Grows H (s.set b (.running c)) own K t) : Grows H s own K (t.set b (.delayed c)) := by
  obtain ⟨horigin, hlog⟩ := unlogged hb h
  have hrecent := h.recent
  have hnew := h.new
  rw [Store.next_set] at hrecent hnew
  refine ⟨h.le, hrecent, h.recorded.set (.delayed horigin hlog),
    (Store.Keeps.settle hb h.keeps .exhausted).1, h.nodup, ?_, h.apart⟩
  rw [Store.next_set]
  exact hnew

end

end Grows

/-! ## Accounts of runs -/

/-- The account of how a script ended. -/
def Accounts {α : Type} (K : History) (n : Nat) (busy : List Addr) (p : Script α)
    (own : List Addr) : Outcome α → Prop
  | .value a => Gives K p a own
  | .error e => Breaks K n busy p (.failed e) own
  | .exhausted => Breaks K n busy p .short own

namespace Accounts

variable {α β : Type} {K : History} {n : Nat} {busy own more : List Addr} {p : Script α}

theorem note {o : Outcome α} (h : Accounts K n busy p own o) (x : EvalNote) :
    Accounts K n busy (.note x p) own o := by
  cases o with
  | value a => exact Gives.note h
  | error e => exact Breaks.note h
  | exhausted => exact Breaks.note h

theorem after {f : α → Script β} {a : α} {o : Outcome β} (hp : Gives K p a own)
    (h : Accounts K n busy (f a) more o) : Accounts K n busy (p >>= f) (own ++ more) o := by
  cases o with
  | value b => exact hp.bind h
  | error e => exact hp.bind_breaks h
  | exhausted => exact hp.bind_breaks h

/-- The account of a job is that of its script. -/
theorem job {κ : Kind} {j : Job κ} {o : Outcome κ.Result} (h : Accounts K n busy j.script own o) :
    Accounts K (n + 1) busy (Script.job j) own o := by
  cases o with
  | value x =>
    have hgives : Gives K (Script.job j) x (own ++ []) := .work h (.done x)
    rw [List.append_nil] at hgives
    exact hgives
  | error e => exact Breaks.inWork h
  | exhausted => exact Breaks.inWork h

end Accounts

/-- Every run of the script is recorded, with an account. -/
def Script.HasAccount {α : Type} (n : Nat) (p : Script α) : Prop :=
  ∀ (H : History) (s : Store) (busy : List Addr) (tr : Bool), Recorded H s → s.Busy busy →
    ∃ K own, Grows H s own K (p.run n tr s).store ∧
      Accounts K n busy p own (p.run n tr s).outcome

namespace Script.HasAccount

variable {α β : Type} {n : Nat} {p : Script α}

theorem done (a : α) : HasAccount n (.done a) :=
  fun H _ _ _ hs _ => ⟨H, [], .refl hs, .done a⟩

theorem fail (e : EvalError) : HasAccount n (.fail e : Script α) :=
  fun H _ _ _ hs _ => ⟨H, [], .refl hs, .fail e⟩

theorem bind {f : α → Script β} (hp : HasAccount n p) (hf : ∀ a, HasAccount n (f a)) :
    HasAccount n (p >>= f) := by
  intro H s busy tr hs hbusy
  obtain ⟨K, own, hgrows, hfirst⟩ := hp H s busy tr hs hbusy
  rcases hr : p.run n tr s with ⟨outcome, t, notes⟩
  rw [hr] at hgrows hfirst
  rw [run_bind]
  cases outcome with
  | value a =>
    rw [Run.bind_of_value hr]
    obtain ⟨L, more, hgrows', hnext⟩ :=
      hf a K t busy tr hgrows.recorded (hbusy.keeps hgrows.keeps)
    have hgives : Gives L p a own := hfirst.mono hgrows'.le
    exact ⟨L, own ++ more, hgrows.trans hgrows', Accounts.after hgives hnext⟩
  | error e =>
    rw [Run.bind_of_error hr]
    exact ⟨K, own, hgrows, Breaks.bind hfirst⟩
  | exhausted =>
    rw [Run.bind_of_exhausted hr]
    exact ⟨K, own, hgrows, Breaks.bind hfirst⟩

theorem note (x : EvalNote) (hp : HasAccount n p) : HasAccount n (.note x p) := by
  intro H s busy tr hs hbusy
  obtain ⟨K, own, hgrows, h⟩ := hp H s busy tr hs hbusy
  exact ⟨K, own, hgrows, h.note x⟩

/-- New cells for suspended computations. -/
theorem grown (cs : Addr → List Suspension) : HasAccount n (.grow cs .done) := by
  intro H s busy tr hs hbusy
  have hgrows := Grows.append hs ((cs s.next).map .suspended)
  have hmade : (H.add s.next ((cs s.next).map .suspended)).Made s.next (cs s.next) := by
    intro i c hc
    rw [History.add_origin_add, List.getElem?_map, hc]
    rfl
  rw [List.map_map, List.length_map] at hgrows
  have hgives : Gives _ (Script.grow cs .done) s.next _ := .grow hmade (.done s.next)
  rw [List.append_nil] at hgives
  exact ⟨_, _, hgrows, hgives⟩

/-- A new cell that holds a value. -/
theorem stored (v : Value) : HasAccount n (.store v .done) := by
  intro H s busy tr hs hbusy
  have hgrows := Grows.append hs [.ready v]
  have hknown : (H.add s.next [.ready v]).Knows s.next v := .ready (H.add_origin_add s.next _ 0)
  rw [run, Run.bind_of_value (allocate_apply _ tr s)]
  exact ⟨_, _, hgrows, Gives.store hknown (.done s.next)⟩

/-! ## The level below -/

theorem job_zero {κ : Kind} (j : Job κ) : HasAccount 0 (Script.job j) := by
  intro H s busy tr hs hbusy
  rw [run_job, Job.run_zero]
  exact ⟨H, [], .refl hs, .shortWork⟩

theorem job_succ {κ : Kind} {j : Job κ} (h : HasAccount n j.script) :
    HasAccount (n + 1) (Script.job j) := by
  intro H s busy tr hs hbusy
  obtain ⟨K, own, hgrows, haccount⟩ := h H s busy tr hs hbusy
  rw [run_job, Job.run_succ]
  exact ⟨K, own, hgrows, haccount.job⟩

theorem cell_zero (b : Addr) : HasAccount 0 (Script.cell b) :=
  fun H _ _ _ hs _ => ⟨H, [], .refl hs, .shortForce⟩

theorem cell_succ (h : ∀ c, HasAccount n (Script.resume c)) (b : Addr) :
    HasAccount (n + 1) (Script.cell b) := by
  intro H s busy tr hs hbusy
  rw [run_cell]
  cases hb : s.get? b with
  | none =>
    have hforce : perform (n + 1) (.force b) tr s = ⟨.error (.dangling b), s, []⟩ :=
      Run.bind_of_error (by rw [Run.peek, hb]) _
    have horigin : H.origin b = none := by
      cases ho : H.origin b with
      | none => rfl
      | some o =>
        obtain ⟨d, hd⟩ := Store.exists_get? (hs.bounded b o ho)
        exact nomatch hb.symm.trans hd
    rw [hforce]
    exact ⟨H, [], .refl hs, .dangling horigin⟩
  | some d =>
    cases d with
    | done v =>
      have hforce : perform (n + 1) (.force b) tr s = ⟨.value v, s, []⟩ :=
        Run.bind_of_value (peek_apply hb) _
      rw [hforce]
      cases hs.cells b _ hb with
      | done hv => exact ⟨H, [], .refl hs, .force hv (.done v)⟩
    | running c =>
      have hforce : perform (n + 1) (.force b) tr s = ⟨.error (.infiniteRecursion c), s, []⟩ :=
        Run.bind_of_value (peek_apply hb) _
      rw [hforce]
      cases hs.cells b _ hb with
      | running hc hlog => exact ⟨H, [], .refl hs, .recursion hc ((hbusy b).mpr ⟨c, hb⟩)⟩
    | delayed c =>
      cases hs.cells b _ hb with
      | delayed hc hlog =>
        have hlt : b < s.next := Store.lt_next_of_get? hb
        have hidle : b ∉ busy := by
          intro hmem
          obtain ⟨d, hd⟩ := (hbusy b).mp hmem
          exact nomatch hb.symm.trans hd
        obtain ⟨K, own, hgrows, haccount⟩ :=
          h c H (s.set b (.running c)) (b :: busy) tr (hs.set (.running hc hlog))
            (hbusy.occupy hlt c)
        rw [run_resume] at hgrows haccount
        have hends : (perform (n + 1) (.force b)).Ends tr s _ _ := Run.Ends.force hb ⟨rfl, rfl⟩
        rw [hends.1, hends.2]
        obtain ⟨horigin, hnot⟩ := hgrows.unlogged hb
        cases ho : (LazyConfig.resume (perform n) c tr (s.set b (.running c))).outcome with
        | value v =>
          rw [ho] at haccount
          have hknown : (K.enter ⟨b, v, own⟩).Knows b v :=
            .computed ⟨b, v, own⟩ (List.mem_cons_self ..) rfl rfl
          exact ⟨_, _, hgrows.settle_value hb haccount, .force hknown (.done v)⟩
        | error e =>
          rw [ho] at haccount
          exact ⟨_, _, hgrows.settle_stop hb, .inForce horigin hnot hidle haccount⟩
        | exhausted =>
          rw [ho] at haccount
          exact ⟨_, _, hgrows.settle_stop hb, .inForce horigin hnot hidle haccount⟩

end Script.HasAccount

/-- Every run from a recorded store is recorded, with an account. -/
theorem Script.hasAccount (n : Nat) {α : Type} (p : Script α) : p.HasAccount n := by
  have of_levels : ∀ n, (∀ b, (cell b).HasAccount n) →
      (∀ {κ : Kind} (j : Job κ), (job j).HasAccount n) →
      ∀ {α : Type} (p : Script α), p.HasAccount n := by
    intro n hcell hjob α p
    induction p with
    | done a => exact .done a
    | fail e => exact .fail e
    | note x p ih => exact .note x ih
    | grow cs next ih => exact .bind (.grown cs) ih
    | store v next ih => exact .bind (.stored v) ih
    | force b next ih => exact .bind (hcell b) ih
    | work j next ih => exact .bind (hjob j) ih
  induction n generalizing α with
  | zero => exact of_levels 0 .cell_zero .job_zero p
  | succ n ih =>
    exact of_levels (n + 1) (.cell_succ fun c => ih _) (fun j => .job_succ (ih _)) p

end LazyConfig
