import LazyConfig.Proofs.Sharing.Forcing
set_option autoImplicit false

/-!
# Sharing: memory does not change what is computed

Both evaluators are compared with the answers of recipes, so they can be compared with
each other: a cell that remembers its value, and refuses to be computed while it is
being computed, changes neither data nor failures.  The refusal itself is raised only
where the evaluator without memory would never come to an end.
-/

namespace LazyConfig

open Filter

/-! ## Data -/

section

variable {m : Mode} {busy : Addr → Recipe → Prop} {δ : World} {tr : Bool} {s : Store}
  {run : Nat → Task → Run Value}

/-- The data of a value matches that of its form, if this is so one level deeper. -/
theorem matches_deepen_succ {k : Nat} (hself : Simulates m busy (run k) answerWithin)
    (hdeep : ∀ (δ : World) (s : Store) (v : Value) (w : Form), Describes δ busy s →
      ValueFits δ v w →
      Matches m busy δ (fun _ => Eq) (deepenBy run k v tr s) fun n => deepForm n w)
    {v : Value} {w : Form} (hs : Describes δ busy s) (hvw : ValueFits δ v w) :
    Matches m busy δ (fun _ => Eq) (deepenBy run (k + 1) v tr s) fun n => deepForm (n + 1) w := by
  cases hvw with
  | text text => exact Matches.pure hs rfl
  | list hi =>
    refine Matches.bind (Matches.forEach (fun w a r => w a = some r) (fun _ => Eq)
      (fun w w' a r hw h => hw a r h) (fun _ _ _ _ _ h => h) hi hs ?_) ?_
    · intro w t a r _ ht ha
      refine Matches.bind (hself w t tr _ _ ht (.force ha)) ?_
      exact fun later t' v w' _ ht' hvw => hdeep later t' v w' ht' hvw
    · intro later t ds ds' _ ht hds
      rw [List.forall₂_eq_eq_eq] at hds
      exact Matches.pure ht (congrArg Data.list hds)
  | dict he =>
    refine Matches.bind (Matches.forEach
      (fun (w : World) (e : String × Addr) (q : String × Recipe) => e.1 = q.1 ∧ w e.2 = some q.2)
      (fun _ => Eq) (fun w w' e q hw h => ⟨h.1, hw _ _ h.2⟩) (fun _ _ _ _ _ h => h) he hs ?_) ?_
    · intro w t e q _ ht heq
      refine Matches.bind (hself w t tr _ _ ht (.force heq.2)) ?_
      intro later t' v w' _ ht' hvw
      refine Matches.bind (hdeep later t' v w' ht' hvw) ?_
      rintro last t'' d _ _ ht'' rfl
      exact Matches.pure ht'' (by rw [heq.1])
    · intro later t ds ds' _ ht hds
      rw [List.forall₂_eq_eq_eq] at hds
      exact Matches.pure ht (congrArg Data.dict hds)
  | closure he => exact Matches.pure hs rfl
  | builtin hi => exact Matches.pure hs rfl

theorem deepenBy_onward {lenient : Prop}
    (hself : ∀ k, Simulates (.onward lenient) busy (run k) answerWithin) (k : Nat) :
    ∀ (δ : World) (s : Store) (v : Value) (w : Form), Describes δ busy s → ValueFits δ v w →
      Matches (.onward lenient) busy δ (fun _ => Eq) (deepenBy run k v tr s)
        fun n => deepForm n w := by
  induction k with
  | zero => exact fun δ s v w hs hvw => .excused (.short trivial rfl)
  | succ k ih =>
    exact fun δ s v w hs hvw => Matches.onward_succ (matches_deepen_succ (hself k) ih hs hvw)

theorem deepenBy_back (hself : ∀ n k, Simulates (.back k n) busy (run k) answerWithin) (n : Nat) :
    ∀ (k : Nat) (δ : World) (s : Store) (v : Value) (w : Form), Describes δ busy s →
      ValueFits δ v w →
      Matches (.back k n) busy δ (fun _ => Eq) (deepenBy run k v tr s) fun i => deepForm i w := by
  induction n with
  | zero => exact fun k δ s v w hs hvw => .excused (.loose trivial (eventually_pure.mpr rfl))
  | succ n ih =>
    intro k δ s v w hs hvw
    cases k with
    | zero => exact .excused (.short (Nat.succ_pos n) rfl)
    | succ k => exact Matches.back_succ (matches_deepen_succ (hself n k) (ih k) hs hvw)

/-- The data of a term under frames. -/
def computeRecipe (n : Nat) (t : Term) (frames : Frames) : Outcome (Data FunctionKind) := do
  deepForm n (← answerWithin n (.eval t frames))

variable {t : Term} {env : Env} {frames : Frames}

theorem computeShared_onward (k : Nat) (hs : Describes δ (fun _ _ => True) s)
    (he : EnvFits δ env frames) :
    Matches (.onward True) (fun _ _ => True) δ (fun _ => Eq) (computeShared k t env tr s)
      fun n => computeRecipe n t frames := by
  refine Matches.bind (perform_onward k δ s tr _ _ hs (.eval he)) ?_
  intro later t v w hle ht hvw
  rw [← deepenBy_perform]
  exact deepenBy_onward perform_onward k later t v w ht hvw

theorem computeByName_onward (k : Nat) (hs : Describes δ (fun _ _ => False) s)
    (he : EnvFits δ env frames) :
    Matches (.onward False) (fun _ _ => False) δ (fun _ => Eq) (computeByName k t env tr s)
      fun n => computeRecipe n t frames := by
  refine Matches.bind (performByName_onward k δ s tr _ _ hs (.eval he)) ?_
  intro later t v w hle ht hvw
  exact deepenBy_onward performByName_onward k later t v w ht hvw

theorem computeShared_back (k n : Nat) (hs : Describes δ (fun _ _ => False) s)
    (he : EnvFits δ env frames) :
    Matches (.back k n) (fun _ _ => False) δ (fun _ => Eq) (computeShared k t env tr s)
      fun i => computeRecipe i t frames := by
  have hself : ∀ n k, Simulates (.back k n) (fun _ _ => False) (perform k) answerWithin :=
    fun n k => perform_back n k _ fun a r h => h.elim
  refine Matches.bind (hself n k δ s tr _ _ hs (.eval he)) ?_
  intro later t v w hle ht hvw
  rw [← deepenBy_perform]
  exact deepenBy_back hself n k later t v w ht hvw

theorem computeByName_back (k n : Nat) (hs : Describes δ (fun _ _ => False) s)
    (he : EnvFits δ env frames) :
    Matches (.back k n) (fun _ _ => False) δ (fun _ => Eq) (computeByName k t env tr s)
      fun i => computeRecipe i t frames := by
  refine Matches.bind (performByName_back n k δ s tr _ _ hs (.eval he)) ?_
  intro later t v w hle ht hvw
  exact deepenBy_back performByName_back n k later t v w ht hvw

end

/-! ## Ready environments -/

section

variable {s : Store}

mutual

/-- A value is plain data in one way only. -/
theorem Store.ValueIs.unique : ∀ (d e : Plain) (v : Value), s.ValueIs d v → s.ValueIs e v → d = e
  | .text a, .text b, _, rfl, hb => by rw [Value.text.inj hb]
  | .list ds, .list es, _, ⟨items, rfl, hds⟩, ⟨items', heq, hes⟩ => by
    obtain rfl := Value.list.inj heq
    rw [Store.ItemsAre.unique ds es items hds hes]
  | .dict ds, .dict es, _, ⟨entries, rfl, hds⟩, ⟨entries', heq, hes⟩ => by
    obtain rfl := Value.dict.inj heq
    rw [Store.EntriesAre.unique ds es entries.entries hds hes]
  | .text _, .list _, _, rfl, ⟨_, heq, _⟩ => nomatch heq
  | .text _, .dict _, _, rfl, ⟨_, heq, _⟩ => nomatch heq
  | .list _, .text _, _, ⟨_, rfl, _⟩, heq => nomatch heq
  | .list _, .dict _, _, ⟨_, rfl, _⟩, ⟨_, heq, _⟩ => nomatch heq
  | .dict _, .text _, _, ⟨_, rfl, _⟩, heq => nomatch heq
  | .dict _, .list _, _, ⟨_, rfl, _⟩, ⟨_, heq, _⟩ => nomatch heq

theorem Store.ItemsAre.unique : ∀ (ds es : List Plain) (items : List Addr),
    s.ItemsAre ds items → s.ItemsAre es items → ds = es
  | [], [], _, _, _ => rfl
  | [], _ :: _, _, rfl, ⟨_, _, _, heq, _⟩ => nomatch heq
  | _ :: _, [], _, ⟨_, _, _, rfl, _⟩, heq => nomatch heq
  | d :: ds, e :: es, _, ⟨a, v, rest, rfl, hget, hv, hds⟩,
      ⟨a', v', rest', heq, hget', hv', hes⟩ => by
    obtain ⟨rfl, rfl⟩ := List.cons.inj heq
    obtain rfl := Cell.done.inj (Option.some.inj (hget.symm.trans hget'))
    rw [Store.ValueIs.unique d e v hv hv', Store.ItemsAre.unique ds es rest hds hes]

theorem Store.EntriesAre.unique :
    ∀ (ds es : List (String × Plain)) (entries : List (String × Addr)),
    s.EntriesAre ds entries → s.EntriesAre es entries → ds = es
  | [], [], _, _, _ => rfl
  | [], _ :: _, _, rfl, ⟨_, _, _, heq, _⟩ => nomatch heq
  | _ :: _, [], _, ⟨_, _, _, rfl, _⟩, heq => nomatch heq
  | (key, d) :: ds, (key', e) :: es, _, ⟨a, v, rest, rfl, hget, hv, hds⟩,
      ⟨a', v', rest', heq, hget', hv', hes⟩ => by
    obtain ⟨hhead, rfl⟩ := List.cons.inj heq
    obtain ⟨rfl, rfl⟩ := Prod.mk.inj hhead
    obtain rfl := Cell.done.inj (Option.some.inj (hget.symm.trans hget'))
    rw [Store.ValueIs.unique d e v hv hv', Store.EntriesAre.unique ds es rest hds hes]

end

theorem Store.Holds.unique {a : Addr} {d e : Plain} (hd : s.Holds a d) (he : s.Holds a e) :
    d = e := by
  obtain ⟨v, hget, hv⟩ := hd
  obtain ⟨v', hget', hv'⟩ := he
  obtain rfl := Cell.done.inj (Option.some.inj (hget.symm.trans hget'))
  exact Store.ValueIs.unique d e v hv hv'

open Classical in
/-- What the cells of ready plain data are for. -/
noncomputable def World.ready (s : Store) : World := fun a =>
  if h : ∃ d, s.Holds a d then some (.ready h.choose) else none

theorem World.ready_of_holds {a : Addr} {d : Plain} (h : s.Holds a d) :
    World.ready s a = some (.ready d) := by
  have hex : ∃ d, s.Holds a d := ⟨d, h⟩
  rw [World.ready, dif_pos hex, hex.choose_spec.unique h]

theorem itemsFit_ready (ds : List Plain) {items : List Addr} (h : s.ItemsAre ds items) :
    ItemsFit (World.ready s) items (ds.map .ready) := by
  induction ds generalizing items with
  | nil =>
    simp only [Store.ItemsAre] at h
    subst h
    exact .nil
  | cons d ds ih =>
    simp only [Store.ItemsAre] at h
    obtain ⟨a, v, rest, rfl, hget, hv, hrest⟩ := h
    exact .cons (World.ready_of_holds ⟨v, hget, hv⟩) (ih hrest)

theorem entriesFit_ready (ds : List (String × Plain)) {entries : List (String × Addr)}
    (h : s.EntriesAre ds entries) :
    EntriesFit (World.ready s) entries (ds.map fun e => (e.1, .ready e.2)) := by
  induction ds generalizing entries with
  | nil =>
    simp only [Store.EntriesAre] at h
    subst h
    exact .nil
  | cons e ds ih =>
    obtain ⟨key, d⟩ := e
    simp only [Store.EntriesAre] at h
    obtain ⟨a, v, rest, rfl, hget, hv, hrest⟩ := h
    exact .cons ⟨rfl, World.ready_of_holds ⟨v, hget, hv⟩⟩ (ih hrest)

theorem valueFits_ready (d : Plain) {v : Value} (h : s.ValueIs d v) :
    ValueFits (World.ready s) v (Form.ofPlain d) := by
  cases d with
  | text text =>
    simp only [Store.ValueIs] at h
    subst h
    exact .text text
  | list ds =>
    simp only [Store.ValueIs] at h
    obtain ⟨items, rfl, hitems⟩ := h
    exact .list (itemsFit_ready ds hitems)
  | dict ds =>
    simp only [Store.ValueIs] at h
    obtain ⟨entries, rfl, hentries⟩ := h
    exact .dict (entriesFit_ready ds hentries)
  | function f => exact f.elim

theorem describes_ready (s : Store) (busy : Addr → Recipe → Prop) :
    Describes (World.ready s) busy s := by
  intro a r ha
  by_cases hex : ∃ d, s.Holds a d
  · obtain ⟨d, hd⟩ := hex
    rw [World.ready_of_holds hd, Option.some.injEq] at ha
    subst ha
    obtain ⟨v, hget, hv⟩ := hd
    exact ⟨.done v, hget, .done ⟨1, rfl⟩ (valueFits_ready d hv)⟩
  · rw [World.ready, dif_neg hex] at ha
    exact absurd ha.symm (Option.some_ne_none r)

/-- Frames with a name for each entry, which stands for what the cell of the entry is for. -/
def Frames.ofEntries (δ : World) : List (String × Addr) → Frames
  | [] => .empty
  | (x, a) :: rest => .bind x ((δ a).getD (.ready (.text ""))) (ofEntries δ rest)

theorem Frames.find?_ofEntries (δ : World) (entries : List (String × Addr)) (x : String) :
    (Frames.ofEntries δ entries).find? x =
      (Table.findEntry x entries).map fun a => (δ a).getD (.ready (.text "")) := by
  induction entries with
  | nil => rfl
  | cons e entries ih =>
    obtain ⟨y, a⟩ := e
    by_cases hy : y = x
    · simp [Frames.ofEntries, Frames.find?, Table.findEntry, hy]
    · simp [Frames.ofEntries, Frames.find?, Table.findEntry, hy, ih]

/-- An environment whose cells are ready has frames. -/
theorem exists_envFits {env : Env} (h : s.IsReady env) :
    ∃ frames, EnvFits (World.ready s) env frames := by
  refine ⟨Frames.ofEntries (World.ready s) env.entries, fun x a hx => ?_, fun x hx => ?_⟩
  · obtain ⟨d, hd⟩ := h x a hx
    have hready := World.ready_of_holds hd
    have hfind : Table.findEntry x env.entries = some a := hx
    exact ⟨.ready d, by rw [Frames.find?_ofEntries, hfind]; simp [hready], hready⟩
  · have hfind : Table.findEntry x env.entries = none := hx
    rw [Frames.find?_ofEntries, hfind]
    rfl

end

/-! ## Sharing is call by name -/

section

variable {α : Type} {busy : Addr → Recipe → Prop} {δ : World} {result : Result α}
  {P : Nat → Outcome α}

/-- The outcome of a run that comes to an end is what all large allowances answer. -/
theorem Matches.onward_outcome {lenient : Prop}
    (h : Matches (.onward lenient) busy δ (fun _ => Eq) result P)
    (hend : result.outcome ≠ .exhausted)
    (hplain : lenient → ∀ c, result.outcome ≠ .error (.infiniteRecursion c)) :
    ∃ n, P n = result.outcome := by
  cases h with
  | excused he =>
    cases he with
    | short _ ho => exact absurd ho hend
    | lenient hl c ho => exact absurd ho (hplain hl c)
    | loose hf _ => exact hf.elim
  | value ho hP _ _ hfits =>
    obtain ⟨n, hn⟩ := eventually_atTop.mp hP
    exact ⟨n, by rw [hn n (Nat.le_refl n), ho, hfits]⟩
  | error _ ho hP =>
    obtain ⟨n, hn⟩ := eventually_atTop.mp hP
    exact ⟨n, by rw [hn n (Nat.le_refl n), ho]⟩

/-- What an allowance answers is the outcome of a run, unless the run has fewer levels and
uses them up.  It is never the failure of a computation that needs its own value. -/
theorem Matches.back_outcome {k n : Nat} (h : Matches (.back k n) busy δ (fun _ => Eq) result P)
    (hend : P n ≠ .exhausted) :
    (k < n ∧ result.outcome = .exhausted) ∨
      (result.outcome = P n ∧ ∀ c, result.outcome ≠ .error (.infiniteRecursion c)) := by
  cases h with
  | excused he =>
    cases he with
    | short hk ho => exact Or.inl ⟨hk, ho⟩
    | lenient hf _ _ => exact hf.elim
    | loose _ hP => exact absurd (eventually_pure.mp hP) hend
  | value ho hP _ _ hfits =>
    refine Or.inr ⟨by rw [ho, eventually_pure.mp hP, hfits], fun c hc => ?_⟩
    exact nomatch ho.symm.trans hc
  | @error e he ho hP =>
    refine Or.inr ⟨by rw [ho, eventually_pure.mp hP], fun c hc => ?_⟩
    obtain rfl := Outcome.error.inj (ho.symm.trans hc)
    exact Bool.noConfusion he

end

/-- Cells that remember their values implement call by name, from every store and every
environment of ready plain data.  Where the evaluator without memory comes to an end, the
evaluator with memory comes to the same end under every allowance that is large enough;
and back, unless it finds a computation that needs its own value.  This it finds only
where the evaluator without memory comes to no end under any allowance. -/
theorem computeShared_iff_computeByName (t : Term) (env : Env) (s : Store) (tracing : Bool)
    (h : s.IsReady env) :
    (∀ n, (computeByName n t env tracing s).outcome ≠ .exhausted → ∃ k, ∀ j, k ≤ j →
        (computeShared j t env tracing s).outcome = (computeByName n t env tracing s).outcome) ∧
      (∀ k, (computeShared k t env tracing s).outcome ≠ .exhausted →
        (∀ c, (computeShared k t env tracing s).outcome ≠ .error (.infiniteRecursion c)) →
        ∃ n, ∀ j, n ≤ j →
          (computeByName j t env tracing s).outcome =
            (computeShared k t env tracing s).outcome) ∧
      (∀ k c, (computeShared k t env tracing s).outcome = .error (.infiniteRecursion c) →
        ∀ n, (computeByName n t env tracing s).outcome = .exhausted) := by
  obtain ⟨frames, henv⟩ := exists_envFits h
  -- Whoever comes to an end, a recipe has it as its answer under some allowance.
  have hname : ∀ n, (computeByName n t env tracing s).outcome ≠ .exhausted →
      ∃ i, computeRecipe i t frames = (computeByName n t env tracing s).outcome := fun n hn =>
    (computeByName_onward n (describes_ready s _) henv).onward_outcome hn (fun hf => hf.elim)
  refine ⟨fun n hn => ?_, fun k hk hplain => ?_, fun k c hk n => ?_⟩
  · obtain ⟨i, hi⟩ := hname n hn
    refine ⟨i, fun j hij => ?_⟩
    obtain ⟨hlt, -⟩ | ⟨ho, -⟩ := (computeShared_back j i (describes_ready s _) henv).back_outcome
      (by rwa [hi])
    · exact absurd hij (Nat.not_le.mpr hlt)
    · exact ho.trans hi
  · obtain ⟨i, hi⟩ := (computeShared_onward k (describes_ready s _) henv).onward_outcome hk
      (fun _ => hplain)
    refine ⟨i, fun j hij => ?_⟩
    obtain ⟨hlt, -⟩ | ⟨ho, -⟩ := (computeByName_back j i (describes_ready s _) henv).back_outcome
      (by rwa [hi])
    · exact absurd hij (Nat.not_le.mpr hlt)
    · exact ho.trans hi
  · by_contra hn
    obtain ⟨i, hi⟩ := hname n hn
    obtain ⟨-, ho⟩ | ⟨-, hplain⟩ := (computeShared_back k i (describes_ready s _) henv).back_outcome
      (by rwa [hi])
    · exact nomatch hk.symm.trans ho
    · exact hplain c hk

/-- An argument that is used twice is computed once with memory and twice without, and the
data is the same. -/
theorem computeShared_twice :
    let s : Store := ⟨#[.done (.text "a")]⟩
    let env : Env := Table.empty.insert "x" 0
    let t : Term := .app (.lam (.name "y") (.list [.var "y", .var "y"])) (.var "x")
    s.IsReady env ∧
      (computeByName 8 t env false s).outcome = .value (.list [.text "a", .text "a"]) ∧
      ∃ k, ∀ j, k ≤ j →
        (computeShared j t env false s).outcome = .value (.list [.text "a", .text "a"]) := by
  intro s env t
  have hready : s.IsReady env := by
    intro x a hx
    rw [Table.get?_insert] at hx
    by_cases hname : "x" = x
    · rw [if_pos hname, Option.some.injEq] at hx
      subst hx
      exact ⟨.text "a", .text "a", rfl, rfl⟩
    · rw [if_neg hname] at hx
      exact absurd hx.symm (Option.some_ne_none a)
  have hname : (computeByName 8 t env false s).outcome = .value (.list [.text "a", .text "a"]) :=
    rfl
  obtain ⟨k, hk⟩ := (computeShared_iff_computeByName t env s false hready).1 8
    (by rw [hname]; nofun)
  exact ⟨hready, hname, k, fun j hj => (hk j hj).trans hname⟩

end LazyConfig
