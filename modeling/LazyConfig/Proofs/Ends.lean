import LazyConfig.Proofs.Stores
set_option autoImplicit false

/-!
# How runs end

The outcome of a run and the store behind it, without the notes.  Outcomes can be put in
sequence like runs, which says how a run ends whose later part does not touch the store.
-/

namespace LazyConfig

/-! ## Outcomes in sequence -/

namespace Outcome

variable {α β γ : Type}

/-- One outcome behind the other. -/
protected def bind (p : Outcome α) (k : α → Outcome β) : Outcome β :=
  match p with
  | .value a => k a
  | .error e => .error e
  | .exhausted => .exhausted

instance : Monad Outcome where
  pure := .value
  bind := Outcome.bind

@[simp] theorem pure_eq (a : α) : (pure a : Outcome α) = .value a := rfl

@[simp] theorem value_bind (a : α) (k : α → Outcome β) : (Outcome.value a >>= k) = k a := rfl

@[simp] theorem error_bind (e : EvalError) (k : α → Outcome β) :
    ((Outcome.error e : Outcome α) >>= k) = .error e := rfl

@[simp] theorem exhausted_bind (k : α → Outcome β) :
    ((Outcome.exhausted : Outcome α) >>= k) = .exhausted := rfl

theorem bind_assoc {γ : Type} (p : Outcome α) (k : α → Outcome β) (l : β → Outcome γ) :
    (p >>= k >>= l) = p >>= fun a => k a >>= l := by
  cases p with
  | value a => rfl
  | error e => rfl
  | exhausted => rfl

/-- Outcomes without a value, which are the same whatever type the value would have. -/
inductive Stops : Outcome α → Outcome β → Prop where
  | error (e : EvalError) : Stops (.error e) (.error e)
  | exhausted : Stops .exhausted .exhausted

end Outcome

/-! ## Ends -/

/-- The run from the store ends so, with such a store behind it. -/
def Run.Ends {α : Type} (p : Run α) (tr : Bool) (s : Store) (o : Outcome α) (t : Store) : Prop :=
  (p tr s).outcome = o ∧ (p tr s).store = t

/-- The entries of a dict, which a builtin function needs. -/
def asDict (caller : Builtin) : Value → Outcome (Table Addr)
  | .dict entries => .value entries
  | v => .error (.notADict caller v.summary)

/-- The run that ends so at once. -/
def Run.conclude {α : Type} (o : Outcome α) : Run α := fun _ s => ⟨o, s, []⟩

namespace Run.Ends

variable {α β : Type} {tr : Bool} {s t u : Store} {p : Run α} {o : Outcome α}

theorem conclude (o : Outcome α) (tr : Bool) (s : Store) : (Run.conclude o).Ends tr s o s :=
  ⟨rfl, rfl⟩

theorem pure (a : α) (tr : Bool) (s : Store) : (pure a : Run α).Ends tr s (.value a) s :=
  ⟨rfl, rfl⟩

theorem fail (e : EvalError) (tr : Bool) (s : Store) :
    (Run.fail e : Run α).Ends tr s (.error e) s :=
  ⟨rfl, rfl⟩

theorem delay (c : Suspension) (tr : Bool) (s : Store) :
    (Run.delay c).Ends tr s (.value s.next) (s.append [.delayed c]) := by
  rw [Run.Ends, delay_apply]
  exact ⟨rfl, rfl⟩

theorem delayAll (env : Env) (ts : List Term) (tr : Bool) (s : Store) :
    (LazyConfig.delayAll env ts).Ends tr s (.value (List.range' s.next ts.length))
      (s.append ((ts.map fun t => Suspension.term t env).map .delayed)) := by
  rw [Run.Ends, delayAll_apply]
  exact ⟨rfl, rfl⟩

/-- A run behind another one that gives a value. -/
theorem bind {a : α} {k : α → Run β} {q : Outcome β} (hp : p.Ends tr s (.value a) t)
    (hk : (k a).Ends tr t q u) : (p >>= k).Ends tr s q u := by
  rcases hr : p tr s with ⟨outcome, store, notes⟩
  rw [Run.Ends, hr] at hp
  obtain ⟨rfl, rfl⟩ : outcome = .value a ∧ store = t := hp
  rw [Run.Ends, Run.bind_of_value hr]
  exact hk

/-- A run behind another one ends as its second part does, or the first part stops it. -/
theorem of_bind {k : α → Run β} {q : Outcome β} (h : (p >>= k).Ends tr s q u) :
    (∃ a t, p.Ends tr s (.value a) t ∧ (k a).Ends tr t q u) ∨
      ∃ o : Outcome α, p.Ends tr s o u ∧ o.Stops q := by
  rcases hr : p tr s with ⟨outcome, t, notes⟩
  cases outcome with
  | value a =>
    rw [Run.Ends, Run.bind_of_value hr] at h
    exact Or.inl ⟨a, t, ⟨by rw [hr], by rw [hr]⟩, h⟩
  | error e =>
    rw [Run.Ends, Run.bind_of_error hr] at h
    exact Or.inr ⟨.error e, ⟨by rw [hr], by rw [hr, ← h.2]⟩, h.1 ▸ .error e⟩
  | exhausted =>
    rw [Run.Ends, Run.bind_of_exhausted hr] at h
    exact Or.inr ⟨.exhausted, ⟨by rw [hr], by rw [hr, ← h.2]⟩, h.1 ▸ .exhausted⟩

/-- What a run behind another one gives is given by its second part. -/
theorem value_of_bind {k : α → Run β} {b : β} (h : (p >>= k).Ends tr s (.value b) u) :
    ∃ a t, p.Ends tr s (.value a) t ∧ (k a).Ends tr t (.value b) u := by
  obtain hlater | ⟨o, -, hstop⟩ := h.of_bind
  · exact hlater
  · exact nomatch hstop

/-- A run that stops at its first part. -/
theorem bind_of_stops {k : α → Run β} {q : Outcome β} (hp : p.Ends tr s o t) (h : o.Stops q) :
    (p >>= k).Ends tr s q t := by
  rcases hr : p tr s with ⟨outcome, store, notes⟩
  rw [Run.Ends, hr] at hp
  obtain ⟨rfl, rfl⟩ : outcome = o ∧ store = t := hp
  cases h with
  | error e =>
    rw [Run.Ends, Run.bind_of_error hr]
    exact ⟨rfl, rfl⟩
  | exhausted =>
    rw [Run.Ends, Run.bind_of_exhausted hr]
    exact ⟨rfl, rfl⟩

/-- A run whose later part leaves the store as it is. -/
theorem bind_of_still {k : α → Run β} {K : α → Outcome β} (hp : p.Ends tr s o t)
    (hk : ∀ a, (k a).Ends tr t (K a) t) : (p >>= k).Ends tr s (o >>= K) t := by
  cases o with
  | value a => exact hp.bind (hk a)
  | error e => exact hp.bind_of_stops (.error e)
  | exhausted => exact hp.bind_of_stops .exhausted

/-! ## Tasks -/

section

variable {n : Nat}

theorem occupy {a : Addr} {c : Suspension} {p : Run Value} {q : Outcome Value}
    (hp : p.Ends tr (s.set a (.running c)) q t) :
    (Run.occupy a c p).Ends tr s q (t.settle a c q) := by
  obtain ⟨rfl, rfl⟩ := hp
  rw [Run.Ends, occupy_apply]
  exact ⟨rfl, rfl⟩

/-- A cell that is not computed yet ends as its computation does, and is settled then. -/
theorem force {a : Addr} {c : Suspension} {q : Outcome Value} (hc : s.get? a = some (.delayed c))
    (hp : (resume (perform n) c).Ends tr (s.set a (.running c)) q t) :
    (perform (n + 1) (.force a)).Ends tr s q (t.settle a c q) := by
  have hpeek : (Run.peek a).Ends tr s (.value (.delayed c)) s := by
    rw [Run.Ends, peek_apply hc]
    exact ⟨rfl, rfl⟩
  exact hpeek.bind (occupy hp)

/-- A cell whose term is evaluated without the store. -/
theorem force_still {a : Addr} {x : Term} {env : Env} {v : Value}
    (ha : s.get? a = some (.delayed (.term x env)))
    (hx : ∀ t, (perform n (.eval x env)).Ends tr t (.value v) t) :
    (perform (n + 1) (.force a)).Ends tr s (.value v) (s.set a (.done v)) := by
  have hforce := force (n := n) ha (hx _)
  rw [Store.settle, Store.set_set] at hforce
  exact hforce

/-- A cell whose term is evaluated with some new cells. -/
theorem force_append {a : Addr} {x : Term} {env : Env} {v : Value} {cs : List Cell}
    (ha : s.get? a = some (.delayed (.term x env)))
    (hx : ∀ t : Store, t.next = s.next →
      (perform n (.eval x env)).Ends tr t (.value v) (t.append cs)) :
    (perform (n + 1) (.force a)).Ends tr s (.value v) ((s.set a (.done v)).append cs) := by
  have hforce := force (n := n) ha (hx _ (Store.next_set s a _))
  have hlt : a < (s.set a (.running (.term x env))).next := by
    rw [Store.next_set]
    exact Store.lt_next_of_get? ha
  rw [Store.settle, Store.set_append_of_lt hlt, Store.set_set] at hforce
  exact hforce

theorem force_var {env : Env} {x : String} {a : Addr} {q : Outcome Value}
    (hx : env.get? x = some a) (hp : (perform n (.force a)).Ends tr s q t) :
    (perform (n + 1) (.eval (.var x) env)).Ends tr s q t := by
  have hstep : perform (n + 1) (.eval (.var x) env) = perform n (.force a) := evalTerm_var hx
  rw [hstep]
  exact hp

theorem eval_text (text : String) (env : Env) :
    (perform (n + 1) (.eval (.text text) env)).Ends tr s (.value (.text text)) s :=
  pure _ tr s

theorem eval_lam (binder : Binder) (body : Term) (env : Env) :
    (perform (n + 1) (.eval (.lam binder body) env)).Ends tr s (.value (.closure binder body env))
      s :=
  pure _ tr s

theorem eval_function (b : Builtin) (env : Env) :
    (perform (n + 1) (.eval (.function b) env)).Ends tr s (.value (.builtin b [])) s := by
  have hstep : perform (n + 1) (.eval (.function b) env) = (return .builtin b []) := by
    show evalTerm (perform n) (.builtin b.name) env = _
    simp only [evalTerm, Builtin.ofName?_name]
  rw [hstep]
  exact pure _ tr s

theorem eval_list (items : List Term) (env : Env) :
    (perform (n + 1) (.eval (.list items) env)).Ends tr s
      (.value (.list (List.range' s.next items.length)))
      (s.append ((items.map fun t => Suspension.term t env).map .delayed)) :=
  (delayAll env items tr s).bind (pure _ tr _)

/-- The texts of cells that are not computed yet. -/
theorem forceTexts (n : Nat) (caller : Builtin) (tr : Bool) {env : Env} {texts : List String}
    {base : Addr}
    (h : ∀ i text, texts[i]? = some text →
      s.get? (base + i) = some (.delayed (.term (.text text) env))) :
    ∃ t, (Run.forEach (LazyConfig.forceText (perform (n + 2)) caller)
        (List.range' base texts.length)).Ends tr s (.value texts) t ∧
      ∀ a, (∀ i, i < texts.length → a ≠ base + i) → t.get? a = s.get? a := by
  induction texts generalizing base s with
  | nil => exact ⟨s, pure [] tr s, fun a _ => rfl⟩
  | cons text texts ih =>
    have hforce : (perform (n + 2) (.force base)).Ends tr s (.value (.text text))
        (s.set base (.done (.text text))) :=
      force_still (h 0 text rfl) fun t => eval_text text env
    have hshift : ∀ i, base + 1 + i = base + (i + 1) := by
      intro i
      rw [Nat.add_assoc, Nat.add_comm 1 i]
    have hrest : ∀ i text', texts[i]? = some text' →
        (s.set base (.done (.text text))).get? (base + 1 + i) =
          some (.delayed (.term (.text text') env)) := by
      intro i text' hi
      have hne : base ≠ base + (i + 1) := Nat.ne_of_lt (Nat.lt_add_of_pos_right i.succ_pos)
      rw [hshift, Store.get?_set, if_neg hne]
      exact h (i + 1) text' hi
    obtain ⟨t, ht, hsame⟩ := ih hrest
    refine ⟨t, (hforce.bind (pure text tr _)).bind (ht.bind (pure _ tr t)), fun a ha => ?_⟩
    have hne : base ≠ a := Ne.symm (ha 0 (Nat.succ_pos _))
    have hlater : ∀ i, i < texts.length → a ≠ base + 1 + i := by
      intro i hi
      rw [hshift]
      exact ha (i + 1) (Nat.succ_lt_succ hi)
    rw [hsame a hlater, Store.get?_set, if_neg hne]

/-- The texts of a list in a cell that is not computed yet. -/
theorem forceKeys (n : Nat) (caller : Builtin) (tr : Bool) {env : Env} {texts : List String}
    {a : Addr} (ha : s.get? a = some (.delayed (.term (.list (texts.map .text)) env))) :
    ∃ t, (LazyConfig.forceKeys (perform (n + 2)) caller a).Ends tr s (.value texts) t ∧
      ∀ b d, b ≠ a → s.get? b = some d → t.get? b = some d := by
  have hforce : (perform (n + 2) (.force a)).Ends tr s
      (.value (.list (List.range' s.next texts.length)))
      ((s.set a (.done (.list (List.range' s.next texts.length)))).append
        (((texts.map Term.text).map fun t => Suspension.term t env).map .delayed)) := by
    refine force_append ha fun t ht => ?_
    have hlist : (perform (n + 1) (.eval (.list (texts.map .text)) env)).Ends tr t _ _ :=
      eval_list (texts.map .text) env
    rw [List.length_map, ht] at hlist
    exact hlist
  generalize hv : s.set a (.done (.list (List.range' s.next texts.length))) = v at hforce
  have hnext : v.next = s.next := by rw [← hv, Store.next_set]
  rw [← hnext] at hforce
  have hitems : ∀ i text, texts[i]? = some text →
      (v.append (((texts.map Term.text).map fun t => Suspension.term t env).map .delayed)).get?
        (v.next + i) = some (.delayed (.term (.text text) env)) := by
    intro i text hi
    rw [Store.get?_append_add]
    simp [hi]
  obtain ⟨t, ht, hsame⟩ := forceTexts n caller tr hitems
  refine ⟨t, hforce.bind ht, fun b d hne hb => ?_⟩
  have hold : ∀ i, i < texts.length → b ≠ v.next + i := by
    intro i _
    rw [hnext]
    exact Store.ne_new_of_get? hb i
  have hv' : v.get? b = some d := by rw [← hv, Store.get?_set, if_neg (Ne.symm hne), hb]
  rw [hsame b hold]
  exact Store.get?_append_of_some hv' _

theorem eval_app {f x : Term} {env : Env} {v : Value} {q : Outcome Value}
    (hf : (perform n (.eval f env)).Ends tr s (.value v) t)
    (hv : (perform n (.apply v t.next)).Ends tr (t.append [.delayed (.term x env)]) q u) :
    (perform (n + 1) (.eval (.app f x) env)).Ends tr s q u := by
  have hnote : (Run.note (.application (.app f x))).Ends tr s (.value ()) s := ⟨rfl, rfl⟩
  exact hnote.bind (hf.bind ((delay _ tr t).bind hv))

theorem apply_name {x : String} {body : Term} {env : Env} {a : Addr} {q : Outcome Value}
    (hp : (perform n (.eval body (env.insert x a))).Ends tr s q t) :
    (perform (n + 1) (.apply (.closure (.name x) body env) a)).Ends tr s q t :=
  (pure (env.insert x a) tr s).bind hp

theorem apply_partial {b : Builtin} {arguments : List Addr} {a : Addr}
    (h : b.call? (arguments ++ [a]) = none) :
    (perform (n + 1) (.apply (.builtin b arguments) a)).Ends tr s
      (.value (.builtin b (arguments ++ [a]))) s := by
  have hstep : perform (n + 1) (.apply (.builtin b arguments) a) =
      (return .builtin b (arguments ++ [a])) := applyValue_partial h
  rw [hstep]
  exact pure _ tr s

theorem apply_call {b : Builtin} {arguments : List Addr} {a : Addr} {call : Call}
    {q : Outcome Value} (h : b.call? (arguments ++ [a]) = some call)
    (hp : (runCall (perform n) call).Ends tr s q t) :
    (perform (n + 1) (.apply (.builtin b arguments) a)).Ends tr s q t := by
  have hstep : perform (n + 1) (.apply (.builtin b arguments) a) =
      (do Run.note (.builtin b); runCall (perform n) call) := applyValue_call h
  have hnote : (Run.note (.builtin b)).Ends tr s (.value ()) s := ⟨rfl, rfl⟩
  rw [hstep]
  exact hnote.bind hp

/-- A dict is needed, and the store is the one behind forcing the cell. -/
theorem forceDict {caller : Builtin} {a : Addr} {q : Outcome Value}
    (hp : (perform n (.force a)).Ends tr s q t) :
    (LazyConfig.forceDict (perform n) caller a).Ends tr s (q >>= asDict caller) t := by
  refine hp.bind_of_still fun v => ?_
  cases v with
  | dict entries => exact pure entries tr t
  | text text => exact fail _ tr t
  | list items => exact fail _ tr t
  | closure binder body env => exact fail _ tr t
  | builtin b arguments => exact fail _ tr t

/-- A builtin function that lacks arguments behind this one. -/
theorem eval_partial {f x : Term} {env : Env} {b : Builtin} {arguments : List Addr}
    (hf : (perform (n + 1) (.eval f env)).Ends tr s (.value (.builtin b arguments)) t)
    (h : b.call? (arguments ++ [t.next]) = none) :
    (perform (n + 2) (.eval (.app f x) env)).Ends tr s
      (.value (.builtin b (arguments ++ [t.next]))) (t.append [.delayed (.term x env)]) :=
  eval_app hf (apply_partial h)

end

end Run.Ends

end LazyConfig
