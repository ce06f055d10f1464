import LazyConfig.Proofs.Safety.Reads
import LazyConfig.Proofs.Safety.Runs
set_option autoImplicit false

/-!
# Safety: programs

A program cannot fail in an undeclared way.  Its term is evaluated over an environment of ready
plain data, and whatever is asked of the values that come out, in whatever order, every moment
of every run is sound.
-/

namespace LazyConfig

/-! ## Cells at a later moment -/

/-- What a cell may be at a later moment of a run: a computation may have been started, or
replaced by a value. -/
inductive Cell.Goes : Cell → Cell → Prop where
  | same (c : Cell) : Goes c c
  | started (k : Suspension) : Goes (.delayed k) (.running k)
  | filled (k : Suspension) (v : Value) : Goes (.delayed k) (.done v)

theorem Cell.Goes.trans {c d e : Cell} (h : c.Goes d) (h' : d.Goes e) : c.Goes e := by
  cases h with
  | same => exact h'
  | started k =>
    cases h' with
    | same => exact .started k
  | filled k v =>
    cases h' with
    | same => exact .filled k v

theorem Cell.Becomes.goes {c d : Cell} (h : c.Becomes d) : c.Goes d := by
  cases h with
  | same => exact .same c
  | filled k v => exact .filled k v

/-- The second store may be that of a later moment. -/
def Store.Goes (s t : Store) : Prop :=
  ∀ a c, s.get? a = some c → ∃ d, t.get? a = some d ∧ c.Goes d

theorem Store.Keeps.goes {s t : Store} (h : s.Keeps t) : s.Goes t := by
  intro a c hc
  obtain ⟨d, hd, hcd⟩ := h.cells a c hc
  exact ⟨d, hd, hcd.goes⟩

namespace Moment

variable {tr : Bool} {m m' : Moment}

theorem Next.goes (h : m.Next tr m') : m.store.Goes m'.store := by
  cases h with
  | note => exact (Store.Keeps.refl _).goes
  | grow => exact (Store.Keeps.append _ (by simp)).goes
  | store => exact (Store.Keeps.append _ (by simp)).goes
  | @occupy κ n a next s k hk =>
    intro b c hc
    dsimp only
    rw [Store.get?_set]
    by_cases hab : a = b
    · subst hab
      obtain rfl : Cell.delayed k = c := Option.some.inj (hk.symm.trans hc)
      rw [if_pos rfl, if_pos (Store.lt_next_of_get? hk)]
      exact ⟨_, rfl, .started k⟩
    · rw [if_neg hab]
      exact ⟨c, hc, .same c⟩
  | @forced κ n a next s t v h => exact h.2 ▸ (perform_keeps n (.force a) tr s).goes
  | @unforced κ n a next s t e h => exact h.2 ▸ (perform_keeps n (.force a) tr s).goes
  | start => exact (Store.Keeps.refl _).goes
  | @worked κ μ n j next s t x h => exact h.2 ▸ ((levels_keep n).2 j tr s).goes
  | @failed κ μ n j next s t e h => exact h.2 ▸ ((levels_keep n).2 j tr s).goes

theorem Leads.goes (h : m.Leads tr m') : m.store.Goes m'.store := by
  induction h with
  | refl => exact (Store.Keeps.refl _).goes
  | tail _ hnext ih =>
    intro a c hc
    obtain ⟨d, hd, hcd⟩ := ih a c hc
    obtain ⟨e, he, hde⟩ := hnext.goes a d hd
    exact ⟨e, he, hcd.trans hde⟩

/-! ## Sound moments -/

/-- The values there are at a moment: those in cells, and the one that is at work. -/
inductive Shows : Moment → Value → Prop where
  | cell {m : Moment} {a : Addr} {v : Value} (h : m.store.get? a = some (.done v)) : Shows m v
  | result {n : Nat} {v : Value} {s : Store} : Shows ⟨.value, n, .done v, s⟩ v
  | stored {κ : Kind} {n : Nat} {v : Value} {next : Addr → Script κ.Result} {s : Store} :
      Shows ⟨κ, n, .store v next, s⟩ v
  | applied {κ : Kind} {n : Nat} {f : Value} {a : Addr} {next : Value → Script κ.Result}
      {s : Store} : Shows ⟨κ, n, .work (.apply f a) next, s⟩ f
  | deepened {κ : Kind} {n : Nat} {v : Value} {next : Data FunctionKind → Script κ.Result}
      {s : Store} : Shows ⟨κ, n, .work (.deepen v) next, s⟩ v
  | expressed {κ : Kind} {n : Nat} {v : Value} {next : Expr → Script κ.Result} {s : Store} :
      Shows ⟨κ, n, .work (.express v) next, s⟩ v

/-- What holds of a moment of a run that began over a store. -/
structure Sound (tr : Bool) (begun : Store) (m : Moment) : Prop where
  /-- A builtin function is one of those there are and has fewer arguments than it takes. -/
  builtins : ∀ (f : Builtin) (arguments : List Addr), m.Shows (.builtin f arguments) →
    f ∈ Builtin.all ∧ arguments.length < f.arity
  /-- A builtin function that is applied goes on lacking arguments, or it is called with as many
  as it takes. -/
  calls : ∀ (f : Builtin) (arguments : List Addr) (a : Addr) (next : Value → Script m.kind.Result),
    m.script = .work (.apply (.builtin f arguments) a) next →
    (arguments ++ [a]).length < f.arity ∧ f.call? (arguments ++ [a]) = none ∨
      (arguments ++ [a]).length = f.arity ∧ ∃ c, f.call? (arguments ++ [a]) = some c
  /-- A term that is evaluated has texts for data and names builtin functions that there are. -/
  terms : ∀ (t : Term) (env : Env) (next : Value → Script m.kind.Result),
    m.script = .work (.eval t env) next → t.Core
  /-- An entry of a dict has a cell. -/
  entries : ∀ (entries : Table Addr), m.Shows (.dict entries) →
    ∀ key a, entries.get? key = some a → ∃ c, m.store.get? a = some c
  /-- A cell that is forced is there. -/
  forces : ∀ (a : Addr) (next : Value → Script m.kind.Result), m.script = .force a next →
    ∃ c, m.store.get? a = some c
  /-- A pattern that takes a dict apart reads an entry that is there for each of its names. -/
  patterns : ∀ (names : List String) (ellipsis : Bool) (body : Term) (env : Env) (a : Addr)
    (next : Value → Script m.kind.Result),
    m.script = .work (.apply (.closure (.keys names ellipsis) body env) a) next →
    ∀ (n : Nat) (inner : Env) (t : Store),
      (bindArgument (perform n) (.keys names ellipsis) a env).Ends tr m.store (.value inner) t →
      ∃ entries, t.get? a = some (.done (.dict entries)) ∧
        ∀ x ∈ names, ∃ c d, entries.get? x = some c ∧ inner.get? x = some c ∧ t.get? c = some d
  /-- A lookup that gives a value reads an entry that is there. -/
  lookups : ∀ (subject key : Addr) (next : Value → Script m.kind.Result),
    m.script = .work (.apply (.builtin .lookup [subject]) key) next →
    ∀ (n : Nat) (v : Value) (t : Store),
      (runCall (perform n) (.lookup subject key)).Ends tr m.store (.value v) t →
      ∃ entries k c, t.get? subject = some (.done (.dict entries)) ∧
        t.get? key = some (.done (.text k)) ∧ entries.get? k = some c ∧ t.get? c = some (.done v)
  /-- A cell without a value has a computation, and what this needs is there. -/
  computations : ∀ (a : Addr) (c : Cell), m.store.get? a = some c → c.isDone = false →
    ∃ k, (c = .delayed k ∨ c = .running k) ∧ k.Proper m.store.next
  /-- A cell that was there has its computation still, unless it has its value. -/
  kept : begun.Goes m.store
  /-- A level that fails does so in a declared way. -/
  failures : ∀ e : EvalError, m.script = .fail e → e.isDeclared = true

theorem Safe.shows (hm : m.Safe) {v : Value} (h : m.Shows v) : v.Proper m.store.next := by
  obtain ⟨hs, hp⟩ := hm
  cases h with
  | cell h =>
    cases hs _ _ h with
    | done hv => exact hv
  | result =>
    cases hp with
    | done hv => exact hv
  | stored =>
    cases hp with
    | store hv _ => exact hv
  | applied =>
    cases hp with
    | work hj _ =>
      cases hj with
      | apply hf _ => exact hf
  | deepened =>
    cases hp with
    | work hj _ =>
      cases hj with
      | deepen hv => exact hv
  | expressed =>
    cases hp with
    | work hj _ =>
      cases hj with
      | express hv => exact hv

theorem Safe.job (hm : m.Safe) {μ : Kind} {j : Job μ} {next : μ.Result → Script m.kind.Result}
    (h : m.script = .work j next) : j.Proper m.store.next := by
  have hp := hm.script
  rw [h] at hp
  cases hp with
  | work hj _ => exact hj

theorem Safe.sound (hm : m.Safe) {begun : Store} (hgoes : begun.Goes m.store) :
    m.Sound tr begun where
  builtins f arguments h := by
    cases hm.shows h with
    | builtin hcount _ => exact ⟨f.mem_all, hcount⟩
  calls f arguments a next h := by
    cases hm.job h with
    | apply hf _ =>
      cases hf with
      | builtin hcount _ =>
        cases hcall : f.call? (arguments ++ [a]) with
        | none => exact Or.inl ⟨Builtin.length_lt_of_call?_eq_none hcount hcall, rfl⟩
        | some c =>
          have hsome : (f.call? (arguments ++ [a])).isSome = true := by
            rw [hcall, Option.isSome_some]
          exact Or.inr ⟨(f.isSome_call?_iff _).mp hsome, c, rfl⟩
  terms t env next h := by
    cases hm.job h with
    | eval ht _ => exact ht
  entries entries h key a ha := by
    cases hm.shows h with
    | dict hentries => exact Store.exists_get? (hentries key a ha)
  forces a next h := by
    have hp := hm.script
    rw [h] at hp
    cases hp with
    | force ha _ => exact Store.exists_get? ha
  patterns names ellipsis body env a next h n inner t hends := by
    cases hm.job h with
    | apply hf ha =>
      cases hf with
      | closure _ _ henv =>
        obtain ⟨entries, hentries, hbound⟩ := hends.bound_of_bindArgument
        have hsafe := (Script.Safe.bindArgument (.keys names ellipsis) henv ha).run
          (levelSafe tr n) hm.store rfl
        rw [Script.run_bindArgument] at hsafe
        refine ⟨entries, hentries, fun x hx => ?_⟩
        obtain ⟨c, hc, hinner⟩ := hbound x hx
        obtain ⟨d, hd⟩ := Store.exists_get? (hsafe.value inner hends.1 x c hinner)
        rw [hends.2] at hd
        exact ⟨c, d, hc, hinner, hd⟩
  lookups subject key next h n v t hends := hends.entry_of_lookup
  computations a c hc hdone := by
    cases hm.store a c hc with
    | delayed hk => exact ⟨_, Or.inl rfl, hk⟩
    | running hk => exact ⟨_, Or.inr rfl, hk⟩
    | done hv => exact nomatch hdone
  kept := hgoes
  failures e h := by
    have hp := hm.script
    rw [h] at hp
    cases hp with
    | fail he => exact he

end Moment

/-! ## Programs -/

/-- What is asked for a program: its value, all data of a value that has come out, and the
program that stands for one. -/
inductive Asked (t : Term) (env : Env) (values : List Value) : {κ : Kind} → Job κ → Prop where
  | eval : Asked t env values (.eval t env)
  | deepen {v : Value} (hv : v ∈ values) : Asked t env values (.deepen v)
  | express {v : Value} (hv : v ∈ values) : Asked t env values (.express v)

/-- The values that come out of a run. -/
def Kind.values : (κ : Kind) → Outcome κ.Result → List Value
  | .value, .value v => [v]
  | _, _ => []

/-- The stores behind what is asked for a program, one thing after the other and however each
ends, with the values that have come out. -/
inductive Uses (t : Term) (env : Env) (s : Store) : Store → List Value → Prop where
  | start : Uses t env s s []
  | ask {u : Store} {values : List Value} (h : Uses t env s u values) {κ : Kind} {j : Job κ}
      (hj : Asked t env values j) (n : Nat) (tr : Bool) :
      Uses t env s (j.run n tr u).store (κ.values (j.run n tr u).outcome ++ values)

section

variable {t : Term} {env : Env} {s u : Store} {values : List Value} {κ : Kind} {j : Job κ}

theorem Asked.proper {size : Nat} (hj : Asked t env values j) (ht : t.Core)
    (henv : env.Below size) (hvalues : ∀ v ∈ values, v.Proper size) : j.Proper size := by
  cases hj with
  | eval => exact .eval ht henv
  | deepen hv => exact .deepen (hvalues _ hv)
  | express hv => exact .express (hvalues _ hv)

theorem Result.Safe.proper_values {r : Result κ.Result} (h : r.Safe κ.Proper) :
    ∀ v ∈ κ.values r.outcome, v.Proper r.store.next := by
  intro v hv
  cases κ with
  | value =>
    cases ho : r.outcome with
    | value w =>
      rw [ho] at hv
      obtain rfl := List.mem_singleton.mp hv
      exact h.value v ho
    | error e =>
      rw [ho] at hv
      exact absurd hv List.not_mem_nil
    | exhausted =>
      rw [ho] at hv
      exact absurd hv List.not_mem_nil
  | data => exact absurd hv List.not_mem_nil
  | program => exact absurd hv List.not_mem_nil

/-- Between two runs the store is proper, and what is over it stays so. -/
theorem Uses.proper (hu : Uses t env s u values) (ht : t.Core) (hs : s.Proper)
    (henv : env.Below s.next) :
    u.Proper ∧ env.Below u.next ∧ ∀ v ∈ values, v.Proper u.next := by
  induction hu with
  | start => exact ⟨hs, henv, fun v hv => absurd hv List.not_mem_nil⟩
  | @ask u values _ κ j hj n tr ih =>
    obtain ⟨hu, henv, hvalues⟩ := ih
    have hsafe := (levelSafe tr n).work u κ j hu (hj.proper ht henv hvalues)
    have hle := ((levels_keep n).2 j tr u).next_le
    refine ⟨hsafe.store, henv.mono hle, List.forall_mem_append.mpr ⟨hsafe.proper_values, ?_⟩⟩
    exact fun v hv => (hvalues v hv).mono hle

end

/-- A program cannot fail in an undeclared way.

The term of the program is evaluated in an environment of ready plain data; behind that, all data
of its values are computed and programs for them made, any number of times and whether the runs
before came to an end or not.  Each such run that fails does so with a failure of one of the
classes, and never because of a builtin function or a type of data that there is not.  The value
of a run that gives one is among its moments, and every moment is sound. -/
theorem lowered_runs_sound {e : Expr} {t : Term} (ht : e.lower = .ok t) {s : Store} {env : Env}
    (hs : s.IsPlain) (henv : s.IsReady env) {u : Store} {values : List Value}
    (hu : Uses t env s u values) {κ : Kind} {j : Job κ} (hj : Asked t env values j) (n : Nat)
    (tr : Bool) :
    (∀ err, (j.run n tr u).outcome = .error err →
        (∃ c, err.errorClass? = some c) ∧ err.isDeclared = true) ∧
      (∀ x, (j.run n tr u).outcome = .value x →
        Moment.Leads tr ⟨κ, n, Script.job j, u⟩ ⟨κ, n, .done x, (j.run n tr u).store⟩) ∧
      ∀ m, Moment.Leads tr ⟨κ, n, Script.job j, u⟩ m → m.Sound tr u := by
  have hcore : t.Core := Expr.core_toTerm e ht
  obtain ⟨hproper, hbelow, hvalues⟩ := hu.proper hcore hs.proper henv.below
  have hstart : (⟨κ, n, Script.job j, u⟩ : Moment).Safe :=
    ⟨hproper, .job (hj.proper hcore hbelow hvalues)⟩
  have hsound : ∀ m, Moment.Leads tr ⟨κ, n, Script.job j, u⟩ m → m.Sound tr u :=
    fun m hm => (hstart.leads hm).sound hm.goes
  have hends : ∀ o, (j.run n tr u).outcome = o →
      ((Script.job j).run n).Ends tr u o (j.run n tr u).store := by
    intro o ho
    rw [Script.run_job]
    exact ⟨ho, rfl⟩
  refine ⟨fun err herr => ?_, fun x hx => Moment.leads_of_value (hends _ hx), hsound⟩
  have hdeclared := (hsound _ (Moment.leads_of_error (hends _ herr))).failures err rfl
  exact ⟨err.exists_errorClass hdeclared, hdeclared⟩

/-- An entry is looked up in a dict of the environment, and then all data of it is computed. -/
theorem lowered_runs_sound_lookup :
    let e : Expr := .dot (.var ⟨"z", by decide⟩) (.text "k")
    let t : Term := lookupTerm (.var "z") (.text "k")
    let s : Store := ⟨#[.done (.text "a"), .done (.dict (Table.empty.insert "k" 0))]⟩
    let env : Env := Table.empty.insert "z" 1
    e.lower = .ok t ∧ s.IsPlain ∧ s.IsReady env ∧ ∃ u, Uses t env s u [.text "a"] ∧
      (deepen 1 (.text "a") false u).outcome = .value (.text "a") ∧
      ∀ m, Moment.Leads false ⟨.data, 1, Script.job (.deepen (.text "a")), u⟩ m →
        m.Sound false u := by
  intro e t s env
  have htext : s.Holds 0 (.text "a") := ⟨.text "a", rfl, rfl⟩
  have hdict : s.Holds 1 (.dict [("k", .text "a")]) :=
    ⟨_, rfl, _, rfl, 0, .text "a", [], rfl, rfl, rfl, rfl⟩
  have hs : s.IsPlain
    | 0, _ => ⟨_, htext⟩
    | 1, _ => ⟨_, hdict⟩
  have henv : s.IsReady env := by
    intro x a hx
    rw [Table.get?_insert] at hx
    split at hx
    · obtain rfl := Option.some.inj hx
      exact ⟨_, hdict⟩
    · exact nomatch hx
  have hu : Uses t env s (perform 9 (.eval t env) false s).store [.text "a"] :=
    .ask .start .eval 9 false
  exact ⟨rfl, hs, henv, _, hu, rfl,
    (lowered_runs_sound (e := e) rfl hs henv hu (.deepen List.mem_cons_self) 1
      false).2.2⟩

end LazyConfig
