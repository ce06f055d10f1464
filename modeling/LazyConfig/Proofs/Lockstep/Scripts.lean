import LazyConfig.Proofs.Lockstep.Links
import LazyConfig.Proofs.Scripts.Steps
set_option autoImplicit false

/-!
# Lockstep: scripts that are alike

Scripts are alike if they make the same cells, have linked cells forced and alike jobs
done, and stay alike whatever alike results they get.  The scripts of alike jobs are alike:
no step of the evaluator looks at an address.
-/

namespace LazyConfig

/-! ## Environments -/

section

variable {β : Link}

theorem contains_eq {entries entries' : Table Addr} (h : Keyed β entries.entries entries'.entries)
    (key : String) : entries.contains key = entries'.contains key :=
  h.isSome_findEntry key

theorem EnvAlike.insert {body : Term} {x : String} {env env' : Env} {a c : Addr}
    (h : EnvAlike β (.lam (.name x) body) env env') (hac : β a c) :
    EnvAlike β body (env.insert x a) (env'.insert x c) := by
  intro y hy
  rw [Table.get?_insert, Table.get?_insert]
  by_cases hxy : x = y
  · rw [if_pos hxy, if_pos hxy]
    exact .some hac
  · rw [if_neg hxy, if_neg hxy]
    exact h y (by simp [Term.hasFree, Binder.binds, hxy, hy])

/-- The environments of a function's body that binds the names of a dict. -/
theorem EnvAlike.bindNames {body : Term} {names : List String} {ellipsis : Bool} {env env' : Env}
    {entries entries' : Table Addr} (h : EnvAlike β (.lam (.keys names ellipsis) body) env env')
    (he : Keyed β entries.entries entries'.entries)
    (hall : ∀ x ∈ names, entries.contains x = true) :
    EnvAlike β body (LazyConfig.bindNames entries names env)
      (LazyConfig.bindNames entries' names env') := by
  intro x hx
  rw [get?_bindNames, get?_bindNames]
  by_cases hmem : x ∈ names
  · rw [if_pos hmem, if_pos hmem]
    have hsome : (entries.get? x).isSome = true := hall x hmem
    obtain ⟨a, c, ha, hc, hac⟩ | ⟨ha, -⟩ := he.findEntry x
    · have hget : entries.get? x = some a := ha
      have hget' : entries'.get? x = some c := hc
      rw [hget, hget']
      exact .some hac
    · have hget : entries.get? x = none := ha
      rw [hget] at hsome
      exact absurd hsome Bool.false_ne_true
  · rw [if_neg hmem, if_neg hmem]
    exact h x (by simp [Term.hasFree, Binder.binds, hmem, hx])

/-- New cells for the same names, in environments that agree on the other names. -/
theorem relate_bindFrom {x : String} {names : List String} {base base' : Addr} {env env' : Env}
    (hnew : ∀ i, i < names.length → β (base + i) (base' + i))
    (hx : x ∈ names ∨ Paired β (env.get? x) (env'.get? x)) :
    Paired β ((bindFrom base names env).get? x) ((bindFrom base' names env').get? x) := by
  induction names generalizing base base' env env' with
  | nil =>
    rcases hx with hx | hx
    · exact absurd hx List.not_mem_nil
    · exact hx
  | cons y names ih =>
    have hfirst : β base base' := hnew 0 (Nat.succ_pos _)
    refine ih (fun i hi => ?_) ?_
    · have hnext := hnew (i + 1) (Nat.succ_lt_succ hi)
      rwa [← Nat.add_assoc, ← Nat.add_assoc, Nat.add_right_comm, Nat.add_right_comm base'] at hnext
    · rw [Table.get?_insert, Table.get?_insert]
      by_cases hyx : y = x
      · rw [if_pos hyx, if_pos hyx]
        exact Or.inr (.some hfirst)
      · rw [if_neg hyx, if_neg hyx]
        rcases hx with hx | hx
        · exact Or.inl ((List.mem_cons.mp hx).resolve_left (Ne.symm hyx))
        · exact Or.inr hx

/-- The environments of recursive bindings, for their terms and for the body. -/
theorem EnvAlike.bindFrom {bindings : List (String × Term)} {body u : Term} {env env' : Env}
    {base base' : Addr} (h : EnvAlike β (.letrec bindings body) env env')
    (hnew : ∀ i, i < bindings.length → β (base + i) (base' + i))
    (hu : u ∈ bindings.map Prod.snd ∨ u = body) :
    EnvAlike β u (LazyConfig.bindFrom base (bindings.map Prod.fst) env)
      (LazyConfig.bindFrom base' (bindings.map Prod.fst) env') := by
  intro x hx
  refine relate_bindFrom (by simpa using hnew) ?_
  by_cases hmem : x ∈ bindings.map Prod.fst
  · exact Or.inl hmem
  · refine Or.inr (h x ?_)
    have hown : bindings.any (fun e => e.1 == x) = false := by
      refine List.any_eq_false.mpr fun e he hex => hmem ?_
      exact List.mem_map.mpr ⟨e, he, beq_iff_eq.mp hex⟩
    have hpart : anyEntryHasFree x bindings = true ∨ body.hasFree x = true := by
      rcases hu with hu | rfl
      · obtain ⟨e, he, rfl⟩ := List.mem_map.mp hu
        exact Or.inl (anyEntryHasFree_of_mem he hx)
      · exact Or.inr hx
    simp [Term.hasFree, hown, hpart]

end

/-! ## Jobs and scripts -/

/-- Results that fit each other: values with linked cells inside, or the same data. -/
def Kind.Fits : (κ : Kind) → Link → κ.Result → κ.Result → Prop
  | .value, β => ValueAlike β
  | .data, _ => Eq
  | .program, _ => Eq

/-- Jobs over linked cells. -/
inductive JobAlike (β : Link) : {κ : Kind} → Job κ → Job κ → Prop where
  | eval {t : Term} {env env' : Env} (h : EnvAlike β t env env') :
      JobAlike β (.eval t env) (.eval t env')
  | apply {v w : Value} {a c : Addr} (hv : ValueAlike β v w) (ha : β a c) :
      JobAlike β (.apply v a) (.apply w c)
  | deepen {v w : Value} (hv : ValueAlike β v w) : JobAlike β (.deepen v) (.deepen w)
  | express {v w : Value} (hv : ValueAlike β v w) : JobAlike β (.express v) (.express w)

/-- Scripts that do the same with linked cells.  New cells are linked to each other. -/
inductive ScriptAlike {α α' : Type} (Fits : Link → α → α' → Prop) :
    Link → Script α → Script α' → Prop where
  | done {β : Link} {a : α} {b : α'} (h : Fits β a b) : ScriptAlike Fits β (.done a) (.done b)
  | fail {β : Link} (e : EvalError) : ScriptAlike Fits β (.fail e) (.fail e)
  | note {β : Link} (x : EvalNote) {p : Script α} {p' : Script α'} (h : ScriptAlike Fits β p p') :
      ScriptAlike Fits β (.note x p) (.note x p')
  | grow {β : Link} {cs cs' : Addr → List Suspension} {next : Addr → Script α}
      {next' : Addr → Script α'} (count : Nat)
      (hcs : ∀ base base', List.Forall₂ (SuspensionAlike (β.extend base base' count)) (cs base)
        (cs' base') ∧ (cs base).length = count)
      (h : ∀ base base', ScriptAlike Fits (β.extend base base' count) (next base) (next' base')) :
      ScriptAlike Fits β (.grow cs next) (.grow cs' next')
  | store {β : Link} {v w : Value} {next : Addr → Script α} {next' : Addr → Script α'}
      (hv : ValueAlike β v w)
      (h : ∀ base base', ScriptAlike Fits (β.extend base base' 1) (next base) (next' base')) :
      ScriptAlike Fits β (.store v next) (.store w next')
  | force {β : Link} {a c : Addr} {next : Value → Script α} {next' : Value → Script α'}
      (ha : β a c)
      (h : ∀ (γ : Link) (v w : Value), β.Le γ → ValueAlike γ v w →
        ScriptAlike Fits γ (next v) (next' w)) :
      ScriptAlike Fits β (.force a next) (.force c next')
  | work {β : Link} {κ : Kind} {j j' : Job κ} {next : κ.Result → Script α}
      {next' : κ.Result → Script α'} (hj : JobAlike β j j')
      (h : ∀ (γ : Link) (x y : κ.Result), β.Le γ → κ.Fits γ x y →
        ScriptAlike Fits γ (next x) (next' y)) :
      ScriptAlike Fits β (.work j next) (.work j' next')

namespace ScriptAlike

variable {α α' δ δ' : Type} {Fits : Link → α → α' → Prop} {Fits' : Link → δ → δ' → Prop}
  {β : Link}

theorem pure {a : α} {b : α'} (h : Fits β a b) : ScriptAlike Fits β (pure a) (pure b) := .done h

theorem fail_of_eq {e e' : EvalError} (h : e = e') :
    ScriptAlike Fits β (.fail e) (.fail e') := by
  subst h
  exact .fail e

theorem imp {Fits₂ : Link → α → α' → Prop} {p : Script α} {p' : Script α'}
    (hp : ScriptAlike Fits β p p') (h : ∀ γ a b, Fits γ a b → Fits₂ γ a b) :
    ScriptAlike Fits₂ β p p' := by
  induction hp with
  | done hab => exact .done (h _ _ _ hab)
  | fail e => exact .fail e
  | note x _ ih => exact .note x ih
  | grow count hcs _ ih => exact .grow count hcs ih
  | store hv _ ih => exact .store hv ih
  | force ha _ ih => exact .force ha ih
  | work hj _ ih => exact .work hj ih

/-- Scripts in sequence are alike. -/
theorem bind {p : Script α} {p' : Script α'} {f : α → Script δ} {f' : α' → Script δ'}
    (hp : ScriptAlike Fits β p p')
    (hf : ∀ (γ : Link) (a : α) (b : α'), β.Le γ → Fits γ a b → ScriptAlike Fits' γ (f a) (f' b)) :
    ScriptAlike Fits' β (p >>= f) (p' >>= f') := by
  induction hp with
  | done hab => exact hf _ _ _ (Link.Le.refl _) hab
  | fail e => exact .fail e
  | note x _ ih => exact .note x (ih hf)
  | grow count hcs _ ih =>
    exact .grow count hcs fun base base' =>
      ih base base' fun γ a b hγ => hf γ a b ((Link.le_extend _ _ _ _).trans hγ)
  | store hv _ ih =>
    exact .store hv fun base base' =>
      ih base base' fun γ a b hγ => hf γ a b ((Link.le_extend _ _ _ _).trans hγ)
  | force ha _ ih =>
    exact .force ha fun γ v w hle hvw =>
      ih γ v w hle hvw fun ζ a b hζ => hf ζ a b (hle.trans hζ)
  | work hj _ ih =>
    exact .work hj fun γ x y hle hxy =>
      ih γ x y hle hxy fun ζ a b hζ => hf ζ a b (hle.trans hζ)

/-- Scripts one after the other are alike, if each is. -/
theorem forEach (In : Link → α → α' → Prop) (Out : Link → δ → δ' → Prop)
    (hin : ∀ (γ ζ : Link) (a : α) (b : α'), γ.Le ζ → In γ a b → In ζ a b)
    (hout : ∀ (γ ζ : Link) (a : δ) (b : δ'), γ.Le ζ → Out γ a b → Out ζ a b)
    {f : α → Script δ} {g : α' → Script δ'} {as : List α} {bs : List α'}
    (hab : List.Forall₂ (In β) as bs)
    (h : ∀ (γ : Link) (a : α) (b : α'), β.Le γ → In γ a b → ScriptAlike Out γ (f a) (g b)) :
    ScriptAlike (fun γ => List.Forall₂ (Out γ)) β (Script.forEach f as) (Script.forEach g bs) := by
  induction as generalizing bs β with
  | nil =>
    cases hab
    exact .pure .nil
  | cons a as ih =>
    obtain ⟨b, bs, hrel, hrest, rfl⟩ := List.forall₂_cons_left_iff.mp hab
    refine bind (h β a b (Link.Le.refl β) hrel) fun γ y z hle hyz => ?_
    have hrest' : List.Forall₂ (In γ) as bs := hrest.imp fun a b hab => hin _ _ a b hle hab
    refine bind (ih hrest' fun ζ a b hζ => h ζ a b (hle.trans hζ)) fun ζ ys zs hle' hys => ?_
    exact .pure (.cons (hout _ _ y z hle' hyz) hys)

theorem cell {a c : Addr} (h : β a c) : ScriptAlike ValueAlike β (Script.cell a) (Script.cell c) :=
  .force h fun _ _ _ _ hvw => .done hvw

theorem job {κ : Kind} {j j' : Job κ} (h : JobAlike β j j') :
    ScriptAlike κ.Fits β (Script.job j) (Script.job j') :=
  .work h fun _ _ _ _ hxy => .done hxy

theorem delay {c d : Suspension} (h : SuspensionAlike β c d) :
    ScriptAlike (fun γ => γ) β (Script.delay c) (Script.delay d) :=
  .grow 1 (fun _ _ => ⟨.cons (h.mono (β.le_extend _ _ _)) .nil, rfl⟩)
    fun base base' => .done (β.extend_add base base' Nat.one_pos)

/-- New cells for the same terms. -/
theorem delayAll {env env' : Env} {ts : List Term} (h : ∀ t ∈ ts, EnvAlike β t env env') :
    ScriptAlike (fun γ => List.Forall₂ γ) β (Script.delayAll env ts)
      (Script.delayAll env' ts) := by
  refine .grow ts.length (fun base base' => ⟨?_, by simp⟩) fun base base' =>
    .done (β.extend_range' base base' ts.length)
  rw [List.forall₂_map_left_iff, List.forall₂_map_right_iff, List.forall₂_same]
  exact fun t ht => .term ((h t ht).mono (β.le_extend _ _ _))

/-! ## Forcing to a form -/

theorem forceText (caller : Builtin) {a c : Addr} (h : β a c) :
    ScriptAlike (fun _ => Eq) β (Script.forceText caller a) (Script.forceText caller c) := by
  refine bind (.cell h) fun γ v w _ hvw => ?_
  cases hvw with
  | text text => exact .pure rfl
  | list hi => exact .fail_of_eq (by rw [(ValueAlike.list hi).summary_eq])
  | dict he => exact .fail_of_eq (by rw [(ValueAlike.dict he).summary_eq])
  | closure he => exact .fail_of_eq (by rw [(ValueAlike.closure he).summary_eq])
  | builtin hi => exact .fail_of_eq (by rw [(ValueAlike.builtin hi).summary_eq])

theorem forceDict (caller : Builtin) {a c : Addr} (h : β a c) :
    ScriptAlike (fun γ entries entries' => Keyed γ entries.entries entries'.entries) β
      (Script.forceDict caller a) (Script.forceDict caller c) := by
  refine bind (.cell h) fun γ v w _ hvw => ?_
  cases hvw with
  | text text => exact .fail_of_eq rfl
  | list hi => exact .fail_of_eq (by rw [(ValueAlike.list hi).summary_eq])
  | dict he => exact .pure he
  | closure he => exact .fail_of_eq (by rw [(ValueAlike.closure he).summary_eq])
  | builtin hi => exact .fail_of_eq (by rw [(ValueAlike.builtin hi).summary_eq])

theorem forceKeys (caller : Builtin) {a c : Addr} (h : β a c) :
    ScriptAlike (fun _ => Eq) β (Script.forceKeys caller a) (Script.forceKeys caller c) := by
  refine bind (.cell h) fun γ v w _ hvw => ?_
  cases hvw with
  | text text => exact .fail_of_eq rfl
  | list hi =>
    refine (forEach (fun ζ => ζ) (fun _ => Eq) (fun _ _ a c h hac => h a c hac)
      (fun _ _ _ _ _ h => h) hi fun ζ a c _ hac => .forceText caller hac).imp ?_
    exact fun ζ xs ys h => List.forall₂_eq_eq_eq ▸ h
  | dict he => exact .fail_of_eq (by rw [(ValueAlike.dict he).summary_eq])
  | closure he => exact .fail_of_eq (by rw [(ValueAlike.closure he).summary_eq])
  | builtin hi => exact .fail_of_eq (by rw [(ValueAlike.builtin hi).summary_eq])

/-! ## Builtin functions, applications and terms -/

theorem call {c d : Call} (h : CallAlike β c d) :
    ScriptAlike ValueAlike β (Script.call c) (Script.call d) := by
  cases h with
  | identity hx => exact .cell hx
  | compose hf hg hx =>
    refine bind (.cell hf) fun γ v w hle hvw => ?_
    refine bind (.delay (.composed (hle _ _ hg) (hle _ _ hx))) fun ζ y z hle' hyz => ?_
    exact .job (.apply (hvw.mono hle') hyz)
  | append ha hb =>
    refine bind (.forceText .append ha) fun γ x x' hle hx => ?_
    subst hx
    refine bind (.forceText .append (hle _ _ hb)) fun ζ y y' hle' hy => ?_
    subst hy
    exact .pure (.text (x ++ y))
  | lookup hd hk =>
    refine bind (.forceDict .lookup hd) fun γ entries entries' hle he => ?_
    refine bind (.forceText .lookup (hle _ _ hk)) fun ζ key key' hle' hkey => ?_
    subst hkey
    obtain ⟨a, c, ha, hc, hac⟩ | ⟨ha, hc⟩ := he.findEntry key
    · have hget : entries.get? key = some a := ha
      have hget' : entries'.get? key = some c := hc
      rw [hget, hget']
      exact .cell (hle' a c hac)
    · have hget : entries.get? key = none := ha
      have hget' : entries'.get? key = none := hc
      rw [hget, hget']
      exact .fail _
  | mergeLeft ha hb =>
    refine bind (.forceDict .mergeLeft ha) fun γ left left' hle hleft => ?_
    refine bind (.forceDict .mergeLeft (hle _ _ hb)) fun ζ right right' hle' hright => ?_
    refine .pure (.dict ?_)
    rw [entries_merge, entries_merge]
    exact Keyed.insertAll (hleft.imp hle') hright
  | disallowExtra hks hd =>
    refine bind (.forceKeys .disallowExtra hks) fun γ allowed allowed' hle hallowed => ?_
    subst hallowed
    refine bind (.forceDict .disallowExtra (hle _ _ hd)) fun ζ entries entries' hle' he => ?_
    have hkeys : entries.keys = entries'.keys := he.keys_eq
    rw [hkeys]
    cases entries'.keys.filter fun k => !allowed.contains k with
    | nil => exact .pure (.dict he)
    | cons k extra => exact .fail _

theorem bindArgument (binder : Binder) {body : Term} {env env' : Env} {a c : Addr}
    (he : EnvAlike β (.lam binder body) env env') (hac : β a c) :
    ScriptAlike (fun γ => EnvAlike γ body) β (Script.bindArgument binder a env)
      (Script.bindArgument binder c env') := by
  cases binder with
  | name x => exact .pure (he.insert hac)
  | keys names ellipsis =>
    refine bind (.cell hac) fun γ v w hle hvw => ?_
    cases hvw with
    | text text => exact .fail _
    | list hi => exact .fail_of_eq (by rw [(ValueAlike.list hi).summary_eq])
    | @dict entries entries' hentries =>
      have hkeys : entries.keys = entries'.keys := hentries.keys_eq
      simp only [← hkeys, ← contains_eq hentries]
      cases hmissing : names.filter fun x => !entries.contains x with
      | cons x missing => exact .fail _
      | nil =>
        have hall : ∀ x ∈ names, entries.contains x = true := by
          intro x hx
          simpa using List.filter_eq_nil_iff.mp hmissing x hx
        have hbound := (he.mono hle).bindNames hentries hall
        cases entries.keys.filter fun k => !names.contains k with
        | nil => exact .pure hbound
        | cons k extra =>
          cases ellipsis with
          | false => exact .fail _
          | true => exact .pure hbound
    | closure hc => exact .fail_of_eq (by rw [(ValueAlike.closure hc).summary_eq])
    | builtin hi => exact .fail_of_eq (by rw [(ValueAlike.builtin hi).summary_eq])

theorem apply {v w : Value} {a c : Addr} (hvw : ValueAlike β v w) (hac : β a c) :
    ScriptAlike ValueAlike β (Script.apply v a) (Script.apply w c) := by
  cases hvw with
  | text text => exact .fail _
  | list hi => exact .fail_of_eq (by rw [(ValueAlike.list hi).summary_eq])
  | dict he => exact .fail_of_eq (by rw [(ValueAlike.dict he).summary_eq])
  | @closure binder body env env' he =>
    exact bind (.bindArgument binder he hac) fun γ inner inner' _ hinner => .job (.eval hinner)
  | @builtin b arguments arguments' hi =>
    have hall : List.Forall₂ β (arguments ++ [a]) (arguments' ++ [c]) :=
      List.rel_append hi (.cons hac .nil)
    unfold Script.apply
    obtain ⟨d, d', hd, hd', halike⟩ | ⟨hd, hd'⟩ := call?_alike b hall
    · simp only [hd, hd']
      exact .note _ (.call halike)
    · simp only [hd, hd']
      exact .pure (.builtin hall)

theorem eval (t : Term) {env env' : Env} (he : EnvAlike β t env env') :
    ScriptAlike ValueAlike β (Script.eval t env) (Script.eval t env') := by
  cases t with
  | var x =>
    unfold Script.eval
    obtain ⟨a, c, ha, hc, hac⟩ | ⟨ha, hc⟩ := he x (by simp [Term.hasFree])
    · simp only [ha, hc]
      exact .cell hac
    · simp only [ha, hc]
      exact .fail _
  | text text => exact .pure (.text text)
  | data type literal => exact .fail _
  | list items =>
    have hitem : ∀ t ∈ items, EnvAlike β t env env' := fun t ht =>
      he.of_hasFree fun x hx => anyHasFree_of_mem ht hx
    exact bind (.delayAll hitem) fun γ as cs _ hcells => .pure (.list hcells)
  | dict entries =>
    have hentry : ∀ t ∈ entries.map Prod.snd, EnvAlike β t env env' := by
      intro t ht
      obtain ⟨e, hmem, rfl⟩ := List.mem_map.mp ht
      exact he.of_hasFree fun x hx => anyEntryHasFree_of_mem hmem hx
    refine bind (.delayAll hentry) fun γ as cs _ hcells => .pure (.dict ?_)
    rw [entries_ofList, entries_ofList]
    exact Keyed.insertAll (Keyed.zip (entries.map Prod.fst) hcells) .nil
  | lam binder body => exact .pure (.closure he)
  | builtin name =>
    simp only [Script.eval]
    cases Builtin.ofName? name with
    | none => exact .fail _
    | some b => exact .pure (.builtin .nil)
  | letrec bindings body =>
    have hnew : ∀ base base' i, i < bindings.length →
        β.extend base base' bindings.length (base + i) (base' + i) :=
      fun base base' i hi => β.extend_add base base' hi
    have hlater := fun base base' => he.mono (β.le_extend base base' bindings.length)
    refine .note _ (.grow bindings.length (fun base base' => ⟨?_, by simp⟩)
      fun base base' => .job (.eval ((hlater base base').bindFrom (hnew base base') (Or.inr rfl))))
    rw [List.forall₂_map_left_iff, List.forall₂_map_right_iff, List.forall₂_same]
    exact fun t ht => .term ((hlater base base').bindFrom (hnew base base') (Or.inl ht))
  | app f a =>
    have hf : EnvAlike β f env env' := he.of_hasFree fun x hx => by simp [Term.hasFree, hx]
    have ha : EnvAlike β a env env' := he.of_hasFree fun x hx => by simp [Term.hasFree, hx]
    refine .note _ (bind (.job (.eval hf)) fun γ v w hle hvw => ?_)
    refine bind (.delay (.term (ha.mono hle))) fun ζ x y hle' hxy => ?_
    exact .job (.apply (hvw.mono hle') hxy)

theorem resume {c d : Suspension} (h : SuspensionAlike β c d) :
    ScriptAlike ValueAlike β (Script.resume c) (Script.resume d) := by
  cases h with
  | term he => exact .job (.eval he)
  | composed hf hx =>
    exact bind (.cell hf) fun γ v w hle hvw => .job (.apply hvw (hle _ _ hx))

/-! ## Everything inside a value -/

/-- What is done with each item of a list. -/
theorem forItems {κ : Kind} {job : Value → Job κ}
    (hjob : ∀ (γ : Link) (v w : Value), ValueAlike γ v w → JobAlike γ (job v) (job w))
    (hkind : ∀ γ : Link, κ.Fits γ = Eq) {items items' : List Addr}
    (h : List.Forall₂ β items items') :
    ScriptAlike (fun _ => Eq) β
      (Script.forEach (fun a => do Script.job (job (← Script.cell a))) items)
      (Script.forEach (fun a => do Script.job (job (← Script.cell a))) items') := by
  refine (forEach (fun γ => γ) (fun _ => Eq) (fun _ _ a c h hac => h a c hac)
    (fun _ _ _ _ _ h => h) h fun γ a c _ hac => ?_).imp fun γ xs ys h => List.forall₂_eq_eq_eq ▸ h
  refine bind (.cell hac) fun ζ v w _ hvw => ?_
  exact (ScriptAlike.job (hjob ζ v w hvw)).imp fun ξ x y hxy => hkind ξ ▸ hxy

/-- What is done with each entry of a dict. -/
theorem forEntries {κ : Kind} {job : Value → Job κ} (out : String → κ.Result → δ)
    (hjob : ∀ (γ : Link) (v w : Value), ValueAlike γ v w → JobAlike γ (job v) (job w))
    (hkind : ∀ γ : Link, κ.Fits γ = Eq) {entries entries' : List (String × Addr)}
    (h : Keyed β entries entries') :
    ScriptAlike (fun _ => Eq) β
      (Script.forEach (fun e : String × Addr => do
        let x ← Script.job (job (← Script.cell e.2))
        return out e.1 x) entries)
      (Script.forEach (fun e : String × Addr => do
        let x ← Script.job (job (← Script.cell e.2))
        return out e.1 x) entries') := by
  refine (forEach (fun γ (e e' : String × Addr) => e.1 = e'.1 ∧ γ e.2 e'.2) (fun _ => Eq)
    (fun _ _ _ _ h hee => ⟨hee.1, h _ _ hee.2⟩) (fun _ _ _ _ _ h => h) h
    fun γ e e' _ hee => ?_).imp fun γ xs ys h => List.forall₂_eq_eq_eq ▸ h
  refine bind (.cell hee.2) fun ζ v w _ hvw => ?_
  refine bind (.job (hjob ζ v w hvw)) fun ξ x y _ hxy => ?_
  rw [hkind ξ] at hxy
  rw [hee.1, hxy]
  exact .pure rfl

theorem deepen {v w : Value} (h : ValueAlike β v w) :
    ScriptAlike (fun _ => Eq) β (Script.deepen v) (Script.deepen w) := by
  cases h with
  | text text => exact .pure rfl
  | list hi =>
    refine bind (forItems (fun _ _ _ h => .deepen h) (fun _ => rfl) hi) fun γ ds ds' _ hds => ?_
    exact .pure (congrArg Data.list hds)
  | dict he =>
    refine bind (forEntries Prod.mk (fun _ _ _ h => .deepen h) (fun _ => rfl) he)
      fun γ ds ds' _ hds => ?_
    exact .pure (congrArg Data.dict hds)
  | closure he => exact .pure rfl
  | builtin hi => exact .pure rfl

theorem express {v w : Value} (h : ValueAlike β v w) :
    ScriptAlike (fun _ => Eq) β (Script.express v) (Script.express w) := by
  cases h with
  | text text => exact .pure rfl
  | list hi =>
    refine bind (forItems (fun _ _ _ h => .express h) (fun _ => rfl) hi) fun γ es es' _ hes => ?_
    exact .pure (congrArg Expr.list hes)
  | dict he =>
    refine bind (forEntries (fun key x => Binding.equation (Expr.text key) x)
      (fun _ _ _ h => .express h) (fun _ => rfl) he) fun γ bs bs' _ hbs => ?_
    exact .pure (congrArg (Expr.dict false) hbs)
  | closure he => exact .fail_of_eq (by rw [(ValueAlike.closure he).summary_eq])
  | builtin hi => exact .fail_of_eq (by rw [(ValueAlike.builtin hi).summary_eq])

/-! ## Plain data -/

theorem keep {v w : Value} (h : ValueAlike β v w) :
    ScriptAlike (fun γ => γ) β (Script.keep v) (Script.keep w) :=
  .store h fun base base' => .done (β.extend_add base base' Nat.one_pos)

mutual

theorem place : ∀ (d : Plain) {β : Link},
    ScriptAlike ValueAlike β (Script.place d) (Script.place d)
  | .text text, _ => .pure (.text text)
  | .list items, _ => bind (placeItems items) fun _ _ _ _ has => .pure (.list has)
  | .dict entries, _ => by
    refine bind (placeEntries entries) fun γ es es' _ hes => .pure (.dict ?_)
    rw [entries_ofList, entries_ofList]
    exact hes.insertAll .nil

theorem placeItems : ∀ (ds : List Plain) {β : Link},
    ScriptAlike (fun γ => List.Forall₂ γ) β (Script.placeItems ds) (Script.placeItems ds)
  | [], _ => .pure .nil
  | d :: rest, _ =>
    bind (place d) fun _ _ _ _ hvw => bind (.keep hvw) fun _ _ _ _ hnew =>
      bind (placeItems rest) fun _ _ _ hle has => .pure (.cons (hle _ _ hnew) has)

theorem placeEntries : ∀ (ds : List (String × Plain)) {β : Link},
    ScriptAlike (fun γ => Keyed γ) β (Script.placeEntries ds) (Script.placeEntries ds)
  | [], _ => .pure .nil
  | (_, d) :: rest, _ =>
    bind (place d) fun _ _ _ _ hvw => bind (.keep hvw) fun _ _ _ _ hnew =>
      bind (placeEntries rest) fun _ _ _ hle hes => .pure (.cons ⟨rfl, hle _ _ hnew⟩ hes)

end

end ScriptAlike

/-- The scripts of alike jobs are alike. -/
theorem JobAlike.script {β : Link} {κ : Kind} {j j' : Job κ} (h : JobAlike β j j') :
    ScriptAlike κ.Fits β j.script j'.script := by
  cases h with
  | eval he => exact .eval _ he
  | apply hv ha => exact .apply hv ha
  | deepen hv => exact .deepen hv
  | express hv => exact .express hv

end LazyConfig
