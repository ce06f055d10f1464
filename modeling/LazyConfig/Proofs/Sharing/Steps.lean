import LazyConfig.Proofs.Sharing.Matches
set_option autoImplicit false

/-!
# Sharing: the steps that do not force

Evaluating a term, applying a value and calling a builtin function are written once for
both evaluators, so they are compared once: if all that they ask of the level below
matches what recipes answer there, then they match the answer of the recipe.  Only
forcing a cell is left, in which the evaluators differ.
-/

namespace LazyConfig

/-- Tasks are done as demands are answered. -/
def Simulates (m : Mode) (busy : Addr → Recipe → Prop) (self : Task → Run Value)
    (F : Nat → Demand → Outcome Form) : Prop :=
  ∀ (δ : World) (s : Store) (tr : Bool) (task : Task) (demand : Demand), Describes δ busy s →
    TaskFits δ task demand →
    Matches m busy δ ValueFits (self task tr s) fun n => F n demand

/-! ## Environments that fit -/

section

variable {δ : World}

theorem EnvFits.insert {env : Env} {frames : Frames} (h : EnvFits δ env frames) (x : String)
    {a : Addr} {r : Recipe} (ha : δ a = some r) :
    EnvFits δ (env.insert x a) (.bind x r frames) where
  bound := by
    intro y b hy
    rw [Table.get?_insert] at hy
    by_cases hx : x = y
    · rw [if_pos hx, Option.some.injEq] at hy
      exact ⟨r, by rw [Frames.find?, if_pos hx], hy ▸ ha⟩
    · rw [if_neg hx] at hy
      obtain ⟨u, hu, hb⟩ := h.bound y b hy
      exact ⟨u, by rw [Frames.find?, if_neg hx]; exact hu, hb⟩
  unbound := by
    intro y hy
    rw [Table.get?_insert] at hy
    by_cases hx : x = y
    · rw [if_pos hx] at hy
      exact absurd hy (Option.some_ne_none a)
    · rw [if_neg hx] at hy
      rw [Frames.find?, if_neg hx]
      exact h.unbound y hy

theorem EnvFits.bindNames {env : Env} {frames : Frames} {entries : Table Addr}
    {rs : List (String × Recipe)} (h : EnvFits δ env frames) (he : EntriesFit δ entries.entries rs)
    (names : List String) :
    EnvFits δ (LazyConfig.bindNames entries names env) (bindRecipes rs names frames) := by
  induction names generalizing env frames with
  | nil => exact h
  | cons x names ih =>
    obtain ⟨a, r, ha, hr, har⟩ | ⟨ha, hr⟩ := Keyed.findEntry he x
    · have hframes :
          bindRecipes rs (x :: names) frames = bindRecipes rs names (.bind x r frames) := by
        unfold bindRecipes
        rw [List.foldl_cons, hr]
      rw [bindNames_cons_of_some ha, hframes]
      exact ih (h.insert x har)
    · have hframes : bindRecipes rs (x :: names) frames = bindRecipes rs names frames := by
        unfold bindRecipes
        rw [List.foldl_cons, hr]
      rw [bindNames_cons_of_none ha, hframes]
      exact ih h

/-- What a name is bound to behind new bindings: the cell of its last one, if it has one. -/
theorem get?_bindFrom (bindings : List (String × Term)) (base : Addr) (env : Env) (x : String) :
    (lastTerm x bindings = none ∧
        (bindFrom base (bindings.map Prod.fst) env).get? x = env.get? x) ∨
      ∃ (i : Nat) (t : Term), lastTerm x bindings = some t ∧
        (bindings.map Prod.snd)[i]? = some t ∧
        (bindFrom base (bindings.map Prod.fst) env).get? x = some (base + i) := by
  induction bindings generalizing base env with
  | nil => exact Or.inl ⟨rfl, rfl⟩
  | cons e bindings ih =>
    obtain ⟨y, t⟩ := e
    obtain ⟨hlast, hget⟩ | ⟨i, u, hlast, hi, hget⟩ := ih (base + 1) (env.insert y base)
    · rw [Table.get?_insert] at hget
      by_cases hy : y = x
      · rw [if_pos hy] at hget
        exact Or.inr ⟨0, t, by simp [lastTerm, hlast, hy], rfl, hget⟩
      · rw [if_neg hy] at hget
        exact Or.inl ⟨by simp [lastTerm, hlast, hy], hget⟩
    · refine Or.inr ⟨i + 1, u, by simp [lastTerm, hlast], by simpa using hi, ?_⟩
      rw [← Nat.add_assoc, Nat.add_right_comm]
      exact hget

/-- The recipes of recursive bindings. -/
def recursiveRecipes (bindings : List (String × Term)) (frames : Frames) : List Recipe :=
  (bindings.map Prod.snd).map fun t => .term t (.recursive bindings frames)

theorem EnvFits.bindFrom {env : Env} {frames : Frames} {base : Addr}
    {bindings : List (String × Term)} (h : EnvFits δ env frames)
    (hnew : ∀ i, δ (base + i) = (recursiveRecipes bindings frames)[i]?) :
    EnvFits δ (LazyConfig.bindFrom base (bindings.map Prod.fst) env)
      (.recursive bindings frames) where
  bound := by
    intro x a hx
    obtain ⟨hlast, hget⟩ | ⟨i, t, hlast, hi, hget⟩ := get?_bindFrom bindings base env x
    · rw [hget] at hx
      obtain ⟨r, hr, ha⟩ := h.bound x a hx
      exact ⟨r, by simp [Frames.find?, hlast, hr], ha⟩
    · rw [hget, Option.some.injEq] at hx
      refine ⟨.term t (.recursive bindings frames), by simp [Frames.find?, hlast], ?_⟩
      rw [← hx, hnew, recursiveRecipes, List.getElem?_map, hi]
      rfl
  unbound := by
    intro x hx
    obtain ⟨hlast, hget⟩ | ⟨i, t, -, -, hget⟩ := get?_bindFrom bindings base env x
    · rw [hget] at hx
      simp [Frames.find?, hlast, h.unbound x hx]
    · rw [hget] at hx
      exact absurd hx (Option.some_ne_none _)

end

/-! ## New cells -/

section

variable {α β : Type} {m : Mode} {busy : Addr → Recipe → Prop} {δ : World} {tr : Bool} {s : Store}
  {Fits : World → α → β → Prop} {P : Nat → Outcome β}

/-- A new cell is known from then on. -/
theorem Matches.delay_bind {k : Addr → Run α} {c : Suspension} {r : Recipe}
    (hs : Describes δ busy s) (hc : SuspensionFits δ c r)
    (hk : ∀ (later : World) (t : Store), δ.Le later → Describes later busy t →
      later s.next = some r → Matches m busy later Fits (k s.next tr t) P) :
    Matches m busy δ Fits ((Run.delay c >>= k) tr s) P := by
  have hle := hs.le_extend [r]
  have hfit : List.Forall₂ (SuspensionFits (δ.extend s.next [r])) [c] [r] :=
    .cons (hc.mono hle) .nil
  have hnew := hk (δ.extend s.next [r]) (s.append [.delayed c]) hle (hs.append hfit)
    (by simp [World.extend])
  exact Matches.of_le hle (Matches.after (delay_apply c tr s) hnew)

/-- New cells for terms are known from then on. -/
theorem Matches.delayAll_bind {k : List Addr → Run α} {env : Env} {frames : Frames}
    {ts : List Term} (hs : Describes δ busy s)
    (henv : EnvFits (δ.extend s.next (ts.map fun t => .term t frames)) env frames)
    (hk : ∀ (later : World) (t : Store),
      later = δ.extend s.next (ts.map fun t => .term t frames) → Describes later busy t →
      ItemsFit later (List.range' s.next ts.length) (ts.map fun t => .term t frames) →
      Matches m busy later Fits (k (List.range' s.next ts.length) tr t) P) :
    Matches m busy δ Fits ((delayAll env ts >>= k) tr s) P := by
  have hle := hs.le_extend (ts.map fun t => .term t frames)
  have hfit : List.Forall₂ (SuspensionFits (δ.extend s.next (ts.map fun t => .term t frames)))
      (ts.map fun t => Suspension.term t env) (ts.map fun t => .term t frames) := by
    rw [List.forall₂_map_left_iff, List.forall₂_map_right_iff, List.forall₂_same]
    exact fun t _ => .term henv
  have hitems : ItemsFit (δ.extend s.next (ts.map fun t => .term t frames))
      (List.range' s.next ts.length) (ts.map fun t => .term t frames) := by
    refine List.forall₂_iff_get.mpr ⟨by simp, fun i hi hi' => ?_⟩
    simp [World.extend_add]
  exact Matches.of_le hle (Matches.after (delayAll_apply env ts tr s)
    (hk _ _ rfl (hs.append hfit) hitems))

end

/-! ## Forcing to a form -/

section

variable {m : Mode} {busy : Addr → Recipe → Prop} {δ : World} {tr : Bool} {s : Store}
  {self : Task → Run Value} {F : Nat → Demand → Outcome Form}

/-- Failures that say the same. -/
theorem Matches.fail_of_eq {α β : Type} {Fits : World → α → β → Prop} {e e' : EvalError}
    (tr : Bool) (s : Store) (he : e.isPlain = true) (h : e = e') :
    Matches m busy δ Fits ((Run.fail e : Run α) tr s) fun _ => .error e' := by
  subst h
  exact Matches.fail tr s he

variable (hself : Simulates m busy self F)

include hself

theorem matches_forceText (caller : Builtin) {a : Addr} {r : Recipe} (hs : Describes δ busy s)
    (ha : δ a = some r) :
    Matches m busy δ (fun _ => Eq) (forceText self caller a tr s)
      fun n => askText (F n) caller r := by
  refine Matches.bind (hself δ s tr _ _ hs (.force ha)) ?_
  intro later t v w hle ht hvw
  cases hvw with
  | text text => exact Matches.pure ht rfl
  | list hi => exact Matches.fail_of_eq _ _ rfl (by rw [(ValueFits.list hi).summary_eq])
  | dict he => exact Matches.fail_of_eq _ _ rfl (by rw [(ValueFits.dict he).summary_eq])
  | closure he => exact Matches.fail_of_eq _ _ rfl (by rw [(ValueFits.closure he).summary_eq])
  | builtin hi => exact Matches.fail_of_eq _ _ rfl (by rw [(ValueFits.builtin hi).summary_eq])

theorem matches_forceDict (caller : Builtin) {a : Addr} {r : Recipe} (hs : Describes δ busy s)
    (ha : δ a = some r) :
    Matches m busy δ (fun w entries rs => EntriesFit w entries.entries rs)
      (forceDict self caller a tr s) fun n => askDict (F n) caller r := by
  refine Matches.bind (hself δ s tr _ _ hs (.force ha)) ?_
  intro later t v w hle ht hvw
  cases hvw with
  | text text => exact Matches.fail _ _ rfl
  | list hi => exact Matches.fail_of_eq _ _ rfl (by rw [(ValueFits.list hi).summary_eq])
  | dict he => exact Matches.pure ht he
  | closure he => exact Matches.fail_of_eq _ _ rfl (by rw [(ValueFits.closure he).summary_eq])
  | builtin hi => exact Matches.fail_of_eq _ _ rfl (by rw [(ValueFits.builtin hi).summary_eq])

theorem matches_forceKeys (caller : Builtin) {a : Addr} {r : Recipe} (hs : Describes δ busy s)
    (ha : δ a = some r) :
    Matches m busy δ (fun _ => Eq) (forceKeys self caller a tr s)
      fun n => askKeys (F n) caller r := by
  refine Matches.bind (hself δ s tr _ _ hs (.force ha)) ?_
  intro later t v w hle ht hvw
  cases hvw with
  | text text => exact Matches.fail _ _ rfl
  | list hi =>
    refine (Matches.forEach (fun w a r => w a = some r) (fun _ => Eq)
      (fun w w' a r hw h => hw a r h) (fun _ _ _ _ _ h => h) hi ht
      fun w u a r hw hu har => matches_forceText hself caller hu har).imp ?_
    exact fun w xs ys h => List.forall₂_eq_eq_eq ▸ h
  | dict he => exact Matches.fail_of_eq _ _ rfl (by rw [(ValueFits.dict he).summary_eq])
  | closure he => exact Matches.fail_of_eq _ _ rfl (by rw [(ValueFits.closure he).summary_eq])
  | builtin hi => exact Matches.fail_of_eq _ _ rfl (by rw [(ValueFits.builtin hi).summary_eq])

/-! ## Builtin functions -/

theorem matches_identity {x : Addr} {u : Recipe} (hs : Describes δ busy s) (hx : δ x = some u) :
    Matches m busy δ ValueFits (runCall self (.identity x) tr s)
      fun n => answerBuiltin (F n) .identity [u] :=
  hself δ s tr _ _ hs (.force hx)

theorem matches_compose {f g x : Addr} {d e u : Recipe} (hs : Describes δ busy s)
    (hf : δ f = some d) (hg : δ g = some e) (hx : δ x = some u) :
    Matches m busy δ ValueFits (runCall self (.compose f g x) tr s)
      fun n => answerBuiltin (F n) .compose [d, e, u] := by
  refine Matches.bind (hself δ s tr _ _ hs (.force hf)) ?_
  intro later t v w hle ht hvw
  refine Matches.delay_bind ht (.composed (hle g e hg) (hle x u hx)) ?_
  intro last t' hle' ht' hy
  exact hself last t' tr _ _ ht' (.apply (hvw.mono hle') hy)

theorem matches_append {a b : Addr} {d e : Recipe} (hs : Describes δ busy s)
    (ha : δ a = some d) (hb : δ b = some e) :
    Matches m busy δ ValueFits (runCall self (.append a b) tr s)
      fun n => answerBuiltin (F n) .append [d, e] := by
  refine Matches.bind (matches_forceText hself .append hs ha) ?_
  rintro later t x _ hle ht rfl
  refine Matches.bind (matches_forceText hself .append ht (hle b e hb)) ?_
  rintro last t' y _ hle' ht' rfl
  exact Matches.pure ht' (.text (x ++ y))

theorem matches_lookup {a b : Addr} {d e : Recipe} (hs : Describes δ busy s)
    (ha : δ a = some d) (hb : δ b = some e) :
    Matches m busy δ ValueFits (runCall self (.lookup a b) tr s)
      fun n => answerBuiltin (F n) .lookup [d, e] := by
  refine Matches.bind (matches_forceDict hself .lookup hs ha) ?_
  intro later t entries rs hle ht hentries
  refine Matches.bind (matches_forceText hself .lookup ht (hle b e hb)) ?_
  rintro last t' key _ hle' ht' rfl
  obtain ⟨c, r, hc, hr, hcr⟩ | ⟨hc, hr⟩ := Keyed.findEntry (hentries.mono hle') key
  · have hget : entries.get? key = some c := hc
    rw [hget, hr]
    exact hself last t' tr _ _ ht' (.force hcr)
  · have hget : entries.get? key = none := hc
    rw [hget, hr]
    exact Matches.fail _ _ rfl

theorem matches_mergeLeft {a b : Addr} {d e : Recipe} (hs : Describes δ busy s)
    (ha : δ a = some d) (hb : δ b = some e) :
    Matches m busy δ ValueFits (runCall self (.mergeLeft a b) tr s)
      fun n => answerBuiltin (F n) .mergeLeft [d, e] := by
  refine Matches.bind (matches_forceDict hself .mergeLeft hs ha) ?_
  intro later t left rleft hle ht hleft
  refine Matches.bind (matches_forceDict hself .mergeLeft ht (hle b e hb)) ?_
  intro last t' right rright hle' ht' hright
  refine Matches.pure ht' (.dict ?_)
  rw [entries_merge]
  exact Keyed.insertAll (hleft.mono hle') hright

theorem matches_disallowExtra {a b : Addr} {d e : Recipe} (hs : Describes δ busy s)
    (ha : δ a = some d) (hb : δ b = some e) :
    Matches m busy δ ValueFits (runCall self (.disallowExtra a b) tr s)
      fun n => answerBuiltin (F n) .disallowExtra [d, e] := by
  refine Matches.bind (matches_forceKeys hself .disallowExtra hs ha) ?_
  rintro later t allowed _ hle ht rfl
  refine Matches.bind (matches_forceDict hself .disallowExtra ht (hle b e hb)) ?_
  intro last t' entries rs hle' ht' hentries
  have hkeys : entries.keys = rs.map Prod.fst := Keyed.keys_eq hentries
  rw [hkeys]
  cases (rs.map Prod.fst).filter fun k => !allowed.contains k with
  | nil => exact Matches.pure ht' (.dict hentries)
  | cons k extra => exact Matches.fail _ _ rfl

/-- A builtin function with arguments, called if there are enough of them. -/
theorem matches_builtin (b : Builtin) {arguments : List Addr} {rs : List Recipe}
    (hs : Describes δ busy s) (hi : ItemsFit δ arguments rs) :
    Matches m busy δ ValueFits
      ((match b.call? arguments with
        | none => return .builtin b arguments
        | some call => do
            Run.note (.builtin b)
            runCall self call : Run Value) tr s)
      fun n => answerBuiltin (F n) b rs := by
  have hpartial : Matches m busy δ ValueFits ((return .builtin b arguments : Run Value) tr s)
      fun _ => .value (.builtin b rs) := Matches.pure hs (.builtin hi)
  rcases hi with _ | ⟨hx, _ | ⟨hy, _ | ⟨hz, _ | ⟨hw, hrest⟩⟩⟩⟩ <;> cases b
  all_goals try exact hpartial
  · exact Matches.after rfl (matches_identity hself hs hx)
  · exact Matches.after rfl (matches_append hself hs hx hy)
  · exact Matches.after rfl (matches_lookup hself hs hx hy)
  · exact Matches.after rfl (matches_mergeLeft hself hs hx hy)
  · exact Matches.after rfl (matches_disallowExtra hself hs hx hy)
  · exact Matches.after rfl (matches_compose hself hs hx hy hz)

/-! ## Application and terms -/

theorem matches_bindArgument (binder : Binder) {a : Addr} {r : Recipe} {env : Env}
    {frames : Frames} (hs : Describes δ busy s) (ha : δ a = some r) (he : EnvFits δ env frames) :
    Matches m busy δ EnvFits (bindArgument self binder a env tr s)
      fun n => askBinder (F n) binder r frames := by
  cases binder with
  | name x => exact Matches.pure hs (he.insert x ha)
  | keys names ellipsis =>
    refine Matches.bind (hself δ s tr _ _ hs (.force ha)) ?_
    intro later t v w hle ht hvw
    cases hvw with
    | text text => exact Matches.fail _ _ rfl
    | list hi => exact Matches.fail_of_eq _ _ rfl (by rw [(ValueFits.list hi).summary_eq])
    | @dict entries rs hentries =>
      have hkeys : entries.keys = rs.map Prod.fst := Keyed.keys_eq hentries
      have hmissing : (names.filter fun x => !entries.contains x) =
          names.filter fun x => !(Table.findEntry x rs).isSome := by
        refine List.filter_congr fun x _ => ?_
        rw [← Keyed.isSome_findEntry hentries x]
        rfl
      simp only [hkeys, hmissing]
      cases names.filter fun x => !(Table.findEntry x rs).isSome with
      | cons x missing => exact Matches.fail _ _ rfl
      | nil =>
        have hbound := (he.mono hle).bindNames hentries names
        cases (rs.map Prod.fst).filter fun k => !names.contains k with
        | nil => exact Matches.pure ht hbound
        | cons k extra =>
          cases ellipsis with
          | false => exact Matches.fail _ _ rfl
          | true => exact Matches.pure ht hbound
    | closure he => exact Matches.fail_of_eq _ _ rfl (by rw [(ValueFits.closure he).summary_eq])
    | builtin hi => exact Matches.fail_of_eq _ _ rfl (by rw [(ValueFits.builtin hi).summary_eq])

theorem matches_apply {v : Value} {w : Form} {a : Addr} {r : Recipe} (hs : Describes δ busy s)
    (hvw : ValueFits δ v w) (ha : δ a = some r) :
    Matches m busy δ ValueFits (applyValue self v a tr s) fun n => answerApply (F n) w r := by
  cases hvw with
  | text text => exact Matches.fail tr s rfl
  | list hi =>
    exact Matches.fail_of_eq tr s rfl (by rw [(ValueFits.list hi).summary_eq])
  | dict he =>
    exact Matches.fail_of_eq tr s rfl (by rw [(ValueFits.dict he).summary_eq])
  | @closure binder body env frames he =>
    refine Matches.bind (matches_bindArgument hself binder hs ha he) ?_
    intro later t inner rinner hle ht hinner
    exact hself later t tr _ _ ht (.eval hinner)
  | @builtin b arguments rs hi =>
    exact matches_builtin hself b hs (List.rel_append hi (.cons ha .nil))

theorem matches_term (t : Term) {env : Env} {frames : Frames} (hs : Describes δ busy s)
    (he : EnvFits δ env frames) :
    Matches m busy δ ValueFits (evalTerm self t env tr s) fun n => answerTerm (F n) t frames := by
  cases t with
  | var x =>
    cases hx : env.get? x with
    | none =>
      simp only [evalTerm_unbound hx, answerTerm, he.unbound x hx]
      exact Matches.fail tr s rfl
    | some a =>
      obtain ⟨r, hr, ha⟩ := he.bound x a hx
      simp only [evalTerm_var hx, answerTerm, hr]
      exact hself δ s tr _ _ hs (.force ha)
  | text text => exact Matches.pure hs (.text text)
  | data type literal => exact Matches.fail tr s rfl
  | list items =>
    refine Matches.delayAll_bind hs (he.mono (hs.le_extend _)) ?_
    intro later t _ ht hitems
    exact Matches.pure ht (.list hitems)
  | dict entries =>
    refine Matches.delayAll_bind hs (he.mono (hs.le_extend _)) ?_
    intro later t _ ht hitems
    refine Matches.pure ht (.dict ?_)
    rw [entries_ofList]
    exact Keyed.insertAll (Keyed.of_zip entries hitems) .nil
  | lam binder body => exact Matches.pure hs (.closure he)
  | builtin name =>
    cases hb : Builtin.ofName? name with
    | none =>
      simp only [evalTerm, answerTerm, hb]
      exact Matches.fail tr s rfl
    | some b =>
      simp only [evalTerm, answerTerm, hb]
      exact Matches.pure hs (.builtin .nil)
  | letrec bindings body =>
    refine Matches.after rfl (Matches.after rfl ?_)
    have hinner := EnvFits.bindFrom (he.mono (hs.le_extend (recursiveRecipes bindings frames)))
      fun i => World.extend_add δ s.next (recursiveRecipes bindings frames) i
    refine Matches.delayAll_bind hs hinner ?_
    rintro later t rfl ht -
    exact hself _ t tr _ _ ht (.eval hinner)
  | app f a =>
    refine Matches.after rfl ?_
    refine Matches.bind (hself δ s tr _ _ hs (.eval he)) ?_
    intro later t v w hle ht hvw
    refine Matches.delay_bind ht (.term (he.mono hle)) ?_
    intro last t' hle' ht' hx
    exact hself last t' tr _ _ ht' (.apply (hvw.mono hle') hx)

/-- A suspended computation gives what its recipe gives. -/
theorem matches_resume {c : Suspension} {r : Recipe} (hs : Describes δ busy s)
    (hc : SuspensionFits δ c r) :
    Matches m busy δ ValueFits (resume self c tr s) fun n => answerRecipe (F n) r := by
  cases hc with
  | term he => exact hself δ s tr _ _ hs (.eval he)
  | @composed f x g y hf hx =>
    refine Matches.bind (hself δ s tr _ _ hs (.force hf)) ?_
    intro later t v w hle ht hvw
    exact hself later t tr _ _ ht (.apply hvw (hle x y hx))

end

end LazyConfig
