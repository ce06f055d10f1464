import LazyConfig.Proofs.Lockstep.Steps
import LazyConfig.Proofs.Patterns.Binding
set_option autoImplicit false

/-!
# Patterns: the composition means taking the argument apart

The run of a function with a pattern and the run of `destructure` go in lockstep, up to
the cells that only the former has.  Those are out of reach for the argument, so they
hold the same when it has been forced as before.
-/

namespace LazyConfig

open Run.Ends

variable {n : Nat} {tr tr' : Bool} {β γ : Link} {u s s' t t' r : Store} {env env' : Env}
  {a₁ a₂ x : Addr} {names : List String} {ellipsis : Bool} {body : Term}
  {defaults : List (String × Term)} {argument : Run Value}

/-- What the cells hold that a function with a pattern makes before its argument is there. -/
def waitingFrame (u : Store) (a₁ a₂ x : Addr) (binder : Binder) (body : Term)
    (defaults : List (String × Term)) (env : Env) : Frame where
  held a d := u.next ≤ a ∧ (busyStore u a₁ a₂ x binder body defaults env).get? a = some d
  whole := False

/-- The store in which the argument is forced, with the cells of the frame in it. -/
theorem linked_waiting {binder : Binder} (hs : Linked β .silent u s') (hne : ∀ c, ¬ β a₁ c)
    (hne' : ∀ c, ¬ β a₂ c) (ha₂ : a₂ < u.next)
    (hkeep : ∀ b d, b ≠ a₂ → (busyStore u a₁ a₂ x binder body defaults env).get? b = some d →
      s.get? b = some d) :
    Linked β (waitingFrame u a₁ a₂ x binder body defaults env) s s' := by
  refine hs.left (fun a c hac => ?_) (fun a d hd => ?_) id
  · obtain ⟨d, -, hd, -⟩ := hs.cells a c hac
    have h₁ : a₁ ≠ a := by
      rintro rfl
      exact hne c hac
    have h₂ : a ≠ a₂ := by
      rintro rfl
      exact hne' c hac
    have hbusy : (busyStore u a₁ a₂ x binder body defaults env).get? a = some d := by
      refine Store.get?_append_of_some ?_ _
      rw [Store.get?_set, if_neg h₁, hd]
    rw [hd, hkeep a d h₂ hbusy]
  · obtain ⟨hle, hget⟩ := hd
    have h₂ : a ≠ a₂ := Nat.ne_of_gt (Nat.lt_of_lt_of_le ha₂ hle)
    refine ⟨hkeep a d h₂ hget, fun c hac => ?_⟩
    exact Nat.not_lt.mpr hle (hs.lt_next hac).1

/-- A cell that was made before the argument was forced and holds what it held. -/
theorem get?_of_waiting {binder : Binder}
    (ht : Linked γ (waitingFrame u a₁ a₂ x binder body defaults env) t t') {i : Nat} {d : Cell}
    (hi : (busyStore u a₁ a₂ x binder body defaults env).get? (u.next + i) = some d) :
    t.get? (u.next + i) = some d ∧ ∀ c, ¬ γ (u.next + i) c :=
  ht.held _ d ⟨Nat.le_add_right u.next i, hi⟩

theorem get?_busyStore (u : Store) (a₁ a₂ x : Addr) (binder : Binder) (body : Term)
    (defaults : List (String × Term)) (env : Env) (i : Nat) :
    (busyStore u a₁ a₂ x binder body defaults env).get? (u.next + i) =
      [Cell.done (.closure binder body env),
        .done (.closure (.name argumentName) (fillTerm defaults) env),
        .running (.composed a₂ x), .running (.composed (u.next + 1) (u.next + 2)),
        .running (.term (.var argumentName) (fillEnv u.next env)),
        .delayed (.term (.dict defaults) (fillEnv u.next env))][i]? := by
  have hget := Store.get?_append_add (u.set a₁ (.done (.builtin .compose [u.next, u.next + 1])))
    [.done (.closure binder body env),
      .done (.closure (.name argumentName) (fillTerm defaults) env),
      .running (.composed a₂ x), .running (.composed (u.next + 1) (u.next + 2)),
      .running (.term (.var argumentName) (fillEnv u.next env)),
      .delayed (.term (.dict defaults) (fillEnv u.next env))] i
  rw [Store.next_set] at hget
  exact hget

/-- The store behind the entries of the argument, given the one behind the argument. -/
def settledStore (u t : Store) (a₂ x : Addr) (env : Env) (o : Outcome Value) : Store :=
  (t.settle (u.next + 2) (.composed a₂ x) o).settle (u.next + 4)
    (.term (.var argumentName) (fillEnv u.next env)) o

@[simp] theorem next_settledStore (u t : Store) (a₂ x : Addr) (env : Env) (o : Outcome Value) :
    (settledStore u t a₂ x env o).next = t.next := by
  rw [settledStore, Store.next_settle, Store.next_settle]

theorem get?_settledStore (u t : Store) (a₂ x : Addr) (env : Env) (o : Outcome Value) {a : Addr}
    (h₂ : u.next + 2 ≠ a) (h₄ : u.next + 4 ≠ a) :
    (settledStore u t a₂ x env o).get? a = t.get? a := by
  rw [settledStore, Store.get?_settle_of_ne _ h₄, Store.get?_settle_of_ne _ h₂]

/-- The argument as it was checked, once it is there. -/
theorem get?_settledStore_value (u t : Store) (a₂ x : Addr) (env : Env) (v : Value)
    (h : u.next + 2 < t.next) :
    (settledStore u t a₂ x env (.value v)).get? (u.next + 2) = some (.done v) := by
  rw [settledStore, Store.get?_settle_of_ne _ (by simp), Store.settle, Store.get?_set, if_pos rfl,
    if_pos h]

theorem linked_settled {binder : Binder}
    (ht : Linked γ (waitingFrame u a₁ a₂ x binder body defaults env) t t') (o : Outcome Value) :
    Linked γ .silent (settledStore u t a₂ x env o) t' := by
  refine ht.left (fun a e hae => get?_settledStore u t a₂ x env o ?_ ?_) (fun a d hd => hd.elim) id
  · rintro rfl
    exact (get?_of_waiting ht (get?_busyStore u a₁ a₂ x binder body defaults env 2)).2 e hae
  · rintro rfl
    exact (get?_of_waiting ht (get?_busyStore u a₁ a₂ x binder body defaults env 4)).2 e hae

/-- The dict of the defaults is still to be made when the argument is there. -/
theorem get?_settled_defaults {binder : Binder}
    (ht : Linked γ (waitingFrame u a₁ a₂ x binder body defaults env) t t') (o : Outcome Value) :
    (settledStore u t a₂ x env o).get? (u.next + 5) =
      some (.delayed (.term (.dict defaults) (fillEnv u.next env))) := by
  have h₅ := get?_of_waiting ht (get?_busyStore u a₁ a₂ x binder body defaults env 5)
  rw [get?_settledStore _ _ _ _ _ _ (by simp) (by simp), h₅.1]

theorem lt_next_settled {binder : Binder}
    (ht : Linked γ (waitingFrame u a₁ a₂ x binder body defaults env) t t') (o : Outcome Value) :
    u.next + 3 < (settledStore u t a₂ x env o).next := by
  have h₃ := get?_of_waiting ht (get?_busyStore u a₁ a₂ x binder body defaults env 3)
  rw [next_settledStore]
  exact Store.lt_next_of_get? h₃.1

/-- The store behind the merged dict, where the cells of the defaults are linked. -/
theorem linked_merged {entries : Table Addr} (hr : Linked γ .silent r t')
    (h₃ : u.next + 3 < r.next) (hfree₃ : ∀ c, ¬ γ (u.next + 3) c)
    (hfree₅ : ∀ c, ¬ γ (u.next + 5) c)
    (hdefaults : ∀ e ∈ defaults,
      EnvAlike (γ.extend r.next t'.next defaults.length) e.2 (fillEnv u.next env) env') :
    Linked (γ.extend r.next t'.next defaults.length) .silent
      (mergedStore u r entries defaults env) (t'.append (defaultCells defaults env')) := by
  have hset : Linked γ .silent
      (r.set (u.next + 5) (.done (.dict (newTable r.next defaults)))) t' := by
    refine hr.left (fun a c hac => ?_) (fun a d hd => hd.elim) id
    have hne : u.next + 5 ≠ a := by
      rintro rfl
      exact hfree₅ c hac
    rw [Store.get?_set, if_neg hne]
  have hcells : List.Forall₂ (CellAlike (γ.extend r.next t'.next defaults.length))
      (defaultCells defaults (fillEnv u.next env)) (defaultCells defaults env') := by
    unfold defaultCells
    rw [List.forall₂_map_left_iff, List.forall₂_map_right_iff, List.forall₂_same]
    exact fun e he => .delayed (.term (hdefaults e he))
  rw [← Store.next_set r (u.next + 5)] at hcells ⊢
  refine (hset.append (by rw [defaultCells, List.length_map]) hcells).left (fun a c hac => ?_)
    (fun a d hd => hd.elim) id
  have hne : u.next + 3 ≠ a := by
    rintro rfl
    rcases hac with hac | ⟨i, -, ha, -⟩
    · exact hfree₃ c hac
    · rw [Store.next_set] at ha
      exact Nat.not_lt.mpr (Nat.le_add_right r.next i) (ha ▸ h₃)
  rw [mergedStore, Store.get?_set, if_neg hne]

/-! ## The argument in both runs -/

/-- The stores when a function with a pattern is applied, with its cells apart from the
linked ones. -/
structure Applied (β : Link) (u s' : Store) (a₁ a₂ : Addr) (names : List String)
    (ellipsis : Bool) (body : Term) (defaults : List (String × Term)) (env : Env) : Prop where
  linked : Linked β .silent u s'
  first : u.get? a₁ = some (.delayed (.term (composeTerm (.lam (.keys names ellipsis) body)
    (.lam (.name argumentName) (fillTerm defaults))) env))
  second : u.get? a₂ = some (.delayed (.term (checkTerm names ellipsis) env))
  distinct : a₂ ≠ a₁
  apart : ∀ c, ¬ β a₁ c
  apart' : ∀ c, ¬ β a₂ c

/-- Forcing the cell of the argument is like another run, whatever cells are new and
whatever has become of the two functions. -/
def ArgumentAlike (n : Nat) (tr tr' : Bool) (β : Link) (u s' : Store) (a₁ a₂ x : Addr)
    (argument : Run Value) : Prop :=
  ∀ (ψ : Frame) (s : Store), Linked β ψ s s' → (∀ b d, ψ.held b d → u.next ≤ b) →
    (∀ b d, b ≠ a₁ → b ≠ a₂ → u.get? b = some d → s.get? b = some d) →
    Alike β ψ ValueAlike (perform n (.force x) tr s) (argument tr' s')

theorem exists_argument (h : Applied β u s' a₁ a₂ names ellipsis body defaults env)
    (hx : ArgumentAlike (n + 2) tr tr' β u s' a₁ a₂ x argument) :
    ∃ (γ : Link) (o o' : Outcome Value) (t t' : Store), β.Le γ ∧
      OutcomeAlike γ (ValueAlike γ) o o' ∧ argument.Ends tr' s' o' t' ∧
      Linked γ (waitingFrame u a₁ a₂ x (.keys names ellipsis) body defaults env) t t' ∧
      (forceDict (perform (n + 6)) .mergeLeft (u.next + 4)).Ends tr
        (mergingStore u a₁ a₂ x (.keys names ellipsis) body defaults env)
        (o >>= takeEntries names ellipsis)
        (settledStore u t a₂ x env (o >>= checked names ellipsis)) := by
  obtain ⟨s, hkeep, hends⟩ :=
    force_argument n tr x (.keys names ellipsis) body defaults h.distinct h.second
  have hlt : a₂ < u.next := Store.lt_next_of_get? h.second
  have hs := linked_waiting h.linked h.apart h.apart' hlt hkeep
  have hold : ∀ b d, b ≠ a₁ → b ≠ a₂ → u.get? b = some d → s.get? b = some d := by
    intro b d h₁ h₂ hb
    refine hkeep b d h₂ (Store.get?_append_of_some ?_ _)
    rw [Store.get?_set, if_neg (Ne.symm h₁), hb]
  obtain ⟨γ, hle, ht, ho⟩ := hx _ s hs (fun b d hd => hd.1) hold
  refine ⟨γ, _, _, _, _, hle, ho, ⟨rfl, rfl⟩, ht, ?_⟩
  have hdict := hends _ _ ⟨rfl, rfl⟩
  rw [Outcome.bind_assoc] at hdict
  simp only [checked_asDict] at hdict
  exact hdict

/-! ## What both runs make of the argument -/

/-- Arguments that are alike have entries that are, or are refused in the same words. -/
theorem takeEntries_alike {v v' : Value} (h : ValueAlike γ v v') :
    OutcomeAlike γ (fun entries entries' : Table Addr => Keyed γ entries.entries entries'.entries)
      (takeEntries names ellipsis v) (takeEntries names ellipsis v') := by
  have hsummary := h.summary_eq
  cases h with
  | @dict entries entries' he =>
    have hkeys : entries.keys = entries'.keys := he.keys_eq
    simp only [takeEntries, hkeys]
    cases entries'.keys.filter fun k => !names.contains k with
    | nil => exact .value he
    | cons k extra =>
      cases ellipsis with
      | true => exact .value he
      | false => exact .error (.same _)
  | text text => exact .error (.same _)
  | list hi =>
    simp only [takeEntries, hsummary]
    exact .error (.same _)
  | closure he =>
    simp only [takeEntries, hsummary]
    exact .error (.same _)
  | builtin hi =>
    simp only [takeEntries, hsummary]
    exact .error (.same _)

/-- New cells for the same defaults. -/
theorem newTable_alike (γ : Link) (base base' : Addr) (defaults : List (String × Term)) :
    Keyed (γ.extend base base' defaults.length) (newTable base defaults).entries
      (newTable base' defaults).entries := by
  unfold newTable
  rw [entries_ofList, entries_ofList]
  exact Keyed.insertAll (Keyed.zip _ (γ.extend_range' base base' _)) .nil

theorem bindOutcome_alike {has has' : String → Bool} {bound bound' : Env}
    (hhas : ∀ x, has x = has' x)
    (hbound : (∀ x ∈ names, has x = true) → EnvAlike γ body bound bound') :
    OutcomeAlike γ (EnvAlike γ body) (bindOutcome names has bound)
      (bindOutcome names has' bound') := by
  obtain rfl : has = has' := funext hhas
  unfold bindOutcome
  cases hmissing : names.filter fun x => !has x with
  | cons x missing => exact .error (.same _)
  | nil =>
    refine .value (hbound fun x hx => ?_)
    simpa using List.filter_eq_nil_iff.mp hmissing x hx

/-! ## Binding the names in both runs -/

/-- Both runs stop if the entries of the argument are not there. -/
theorem bindArgument_alike_of_stops {binder : Binder} {e : Outcome (Table Addr)}
    {p : Outcome Value} {q q' : Outcome Env} (hle : β.Le γ) (hr : Linked γ .silent r t')
    (hfree : ∀ c, ¬ γ (u.next + 3) c)
    (hdict : (forceDict (perform (n + 6)) .mergeLeft (u.next + 4)).Ends tr
      (mergingStore u a₁ a₂ x binder body defaults env) e r)
    (hdirect : (destructure names ellipsis defaults argument env').Ends tr' s' q' t')
    (hp : e.Stops p) (hq : p.Stops q) (halike : OutcomeAlike γ (EnvAlike γ body) q q') :
    Alike β .silent (fun γ => EnvAlike γ body)
      (bindArgument (perform (n + 10)) (.keys names ellipsis) (u.next + 3) env tr
        (openedStore u a₁ a₂ x binder body defaults env))
      (destructure names ellipsis defaults argument env' tr' s') := by
  have hforce := force_opened_stops hdict hp
  have hbind : (bindArgument (perform (n + 10)) (.keys names ellipsis) (u.next + 3) env).Ends tr
      (openedStore u a₁ a₂ x binder body defaults env) q _ := hforce.bind_of_stops hq
  refine Alike.of_ends hbind hdirect hle (hr.left (fun a c hac => ?_) (fun a d hd => hd.elim) id)
    halike
  have hne : u.next + 3 ≠ a := by
    rintro rfl
    exact hfree c hac
  rw [Store.get?_settle_of_ne _ hne]

theorem bindArgument_alike (h : Applied β u s' a₁ a₂ names ellipsis body defaults env)
    (hx : ArgumentAlike (n + 2) tr tr' β u s' a₁ a₂ x argument)
    (hbody : EnvAlike β (.lam (.keys names ellipsis) body) env env')
    (hdefaults : ∀ e ∈ defaults, EnvAlike β e.2 (fillEnv u.next env) env')
    (hkeys : ∀ e ∈ defaults, e.1 ∈ names) :
    Alike β .silent (fun γ => EnvAlike γ body)
      (bindArgument (perform (n + 10)) (.keys names ellipsis) (u.next + 3) env tr
        (openedStore u a₁ a₂ x (.keys names ellipsis) body defaults env))
      (destructure names ellipsis defaults argument env' tr' s') := by
  obtain ⟨γ, o, o', t, t', hle, ho, harg, ht, hdict⟩ := exists_argument h hx
  have hr := linked_settled ht (o >>= checked names ellipsis)
  have h₃ := get?_of_waiting ht (get?_busyStore u a₁ a₂ x _ body defaults env 3)
  have h₅ := get?_of_waiting ht (get?_busyStore u a₁ a₂ x _ body defaults env 5)
  cases ho with
  | exhausted =>
    exact bindArgument_alike_of_stops hle hr h₃.2 hdict
      (destructure_stops harg .exhausted) .exhausted .exhausted .exhausted
  | error he =>
    exact bindArgument_alike_of_stops hle hr h₃.2 hdict
      (destructure_stops harg (.error _)) (.error _) (.error _) (.error he)
  | @value v v' hv =>
    have htaken : OutcomeAlike γ _ (takeEntries names ellipsis v)
        (takeEntries names ellipsis v') := takeEntries_alike hv
    rw [Outcome.value_bind] at hdict
    generalize hleft : takeEntries names ellipsis v = e, hright : takeEntries names ellipsis v' = e'
      at htaken hdict
    cases htaken with
    | exhausted =>
      refine bindArgument_alike_of_stops hle hr h₃.2 hdict (destructure_stops harg ?_) .exhausted
        .exhausted .exhausted
      rw [Outcome.value_bind, hright]
      exact .exhausted
    | error he =>
      refine bindArgument_alike_of_stops hle hr h₃.2 hdict (destructure_stops harg ?_) (.error _)
        (.error _) (.error he)
      rw [Outcome.value_bind, hright]
      exact .error _
    | @value entries entries' he =>
      have hlt := lt_next_settled ht (.value v >>= checked names ellipsis)
      have hforce := force_opened_value hdict (get?_settled_defaults ht _)
      generalize settledStore u t a₂ x env (.value v >>= checked names ellipsis) = r
        at hforce hr hlt
      have hlater : γ.Le (γ.extend r.next t'.next defaults.length) := γ.le_extend _ _ _
      have hmerged : Keyed (γ.extend r.next t'.next defaults.length)
          (entries.merge (newTable r.next defaults)).entries
          (entries'.merge (newTable t'.next defaults)).entries := by
        rw [entries_merge, entries_merge]
        exact Keyed.insertAll (he.imp hlater) (newTable_alike γ _ _ defaults)
      have hextra : ellipsis = false →
          ∀ k ∈ (entries.merge (newTable r.next defaults)).keys, k ∈ names := fun hell =>
        mem_names_of_merged r.next ((eq_dict_of_takeEntries hleft).2 hell) hkeys
      refine Alike.of_ends (bindArgument_dict hforce hextra) (destructure_value harg hright)
        (hle.trans hlater) (linked_merged hr hlt h₃.2 h₅.2 fun d hd => ?_) ?_
      · exact (hdefaults d hd).mono (hle.trans hlater)
      · refine bindOutcome_alike (fun y => ?_) fun hall => ?_
        · rw [contains_eq hmerged, Table.contains_merge]
        · rw [← bindNames_merge]
          exact (hbody.mono (hle.trans hlater)).bindNames hmerged hall

/-- Applying the composed functions means taking the argument apart and evaluating the body. -/
theorem apply_alike (h : Applied β u s' a₁ a₂ names ellipsis body defaults env)
    (hx : ArgumentAlike (n + 2) tr tr' β u s' a₁ a₂ x argument)
    (hbody : EnvAlike β (.lam (.keys names ellipsis) body) env env')
    (hdefaults : ∀ e ∈ defaults, EnvAlike β e.2 (fillEnv u.next env) env')
    (hkeys : ∀ e ∈ defaults, e.1 ∈ names) :
    Alike β .silent ValueAlike
      (perform (n + 13) (.apply (.builtin .compose [a₁, a₂]) x) tr u)
      ((do
        let inner ← destructure names ellipsis defaults argument env'
        perform (n + 10) (.eval body inner) : Run Value) tr' s') := by
  refine Alike.of_ends_left (apply_pattern (n := n + 8) h.first ⟨rfl, rfl⟩) ?_
  refine Alike.bind (bindArgument_alike h hx hbody hdefaults hkeys) ?_
  intro γ t t' inner inner' _ ht hinner
  exact perform_alike .silent tr tr' (n + 10) γ t t' _ _ ht (.eval hinner)

end LazyConfig
