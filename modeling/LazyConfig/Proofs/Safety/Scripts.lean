import LazyConfig.Proofs.Safety.Stores
import LazyConfig.Proofs.Scripts.Steps
set_option autoImplicit false

/-!
# Safety: safe scripts

A script is safe over a number of cells if it needs no cell but these, puts nothing into new
cells that could not be worked with, and fails in declared ways only; and if so it goes on,
whatever proper results it gets, over more cells perhaps.  The scripts of proper jobs are safe.
-/

namespace LazyConfig

/-- Whether a failure is one that programs may have: it has a class, and does not come of a
builtin function or a type of data that there is not. -/
def EvalError.isDeclared : EvalError → Bool
  | .unknownBuiltin _ | .unknownType _ => false
  | e => e.errorClass?.isSome

theorem EvalError.exists_errorClass (e : EvalError) (h : e.isDeclared = true) :
    ∃ c, e.errorClass? = some c := by
  unfold isDeclared at h
  split at h
  · exact nomatch h
  · exact nomatch h
  · exact Option.isSome_iff_exists.mp h

/-! ## Jobs and scripts -/

/-- Results over so many cells; data and programs have none inside. -/
def Kind.Proper : (κ : Kind) → Nat → κ.Result → Prop
  | .value => Value.Proper
  | .data => fun _ _ => True
  | .program => fun _ _ => True

/-- Jobs over so many cells. -/
inductive Job.Proper (size : Nat) : {κ : Kind} → Job κ → Prop where
  | eval {t : Term} {env : Env} (ht : t.Core) (henv : env.Below size) : Proper size (.eval t env)
  | apply {f : Value} {a : Addr} (hf : f.Proper size) (ha : a < size) : Proper size (.apply f a)
  | deepen {v : Value} (hv : v.Proper size) : Proper size (.deepen v)
  | express {v : Value} (hv : v.Proper size) : Proper size (.express v)

namespace Script

/-- Scripts that are safe over so many cells.  What they give is over the cells then there. -/
inductive Safe {α : Type} (Fits : Nat → α → Prop) : Nat → Script α → Prop where
  | done {size : Nat} {a : α} (h : Fits size a) : Safe Fits size (.done a)
  | fail {size : Nat} {e : EvalError} (h : e.isDeclared = true) : Safe Fits size (.fail e)
  | note {size : Nat} (x : EvalNote) {p : Script α} (h : Safe Fits size p) :
      Safe Fits size (.note x p)
  | grow {size : Nat} {cs : Addr → List Suspension} {next : Addr → Script α}
      (hcs : ∀ k ∈ cs size, k.Proper (size + (cs size).length))
      (h : Safe Fits (size + (cs size).length) (next size)) : Safe Fits size (.grow cs next)
  | store {size : Nat} {v : Value} {next : Addr → Script α} (hv : v.Proper size)
      (h : Safe Fits (size + 1) (next size)) : Safe Fits size (.store v next)
  | force {size : Nat} {a : Addr} {next : Value → Script α} (ha : a < size)
      (h : ∀ (size' : Nat) (v : Value), size ≤ size' → v.Proper size' →
        Safe Fits size' (next v)) : Safe Fits size (.force a next)
  | work {size : Nat} {κ : Kind} {j : Job κ} {next : κ.Result → Script α} (hj : j.Proper size)
      (h : ∀ (size' : Nat) (x : κ.Result), size ≤ size' → κ.Proper size' x →
        Safe Fits size' (next x)) : Safe Fits size (.work j next)

namespace Safe

variable {α δ : Type} {Fits : Nat → α → Prop} {Fits' : Nat → δ → Prop} {size : Nat}

theorem pure {a : α} (h : Fits size a) : Safe Fits size (pure a) := .done h

/-- Scripts in sequence are safe. -/
theorem bind {p : Script α} {f : α → Script δ} (hp : Safe Fits size p)
    (hf : ∀ (size' : Nat) (a : α), size ≤ size' → Fits size' a → Safe Fits' size' (f a)) :
    Safe Fits' size (p >>= f) := by
  induction hp with
  | done h => exact hf _ _ (Nat.le_refl _) h
  | fail h => exact .fail h
  | note x _ ih => exact .note x (ih hf)
  | grow hcs _ ih =>
    exact .grow hcs (ih fun size' a hle => hf size' a (Nat.le_trans (Nat.le_add_right _ _) hle))
  | store hv _ ih =>
    exact .store hv (ih fun size' a hle => hf size' a (Nat.le_trans (Nat.le_succ _) hle))
  | force ha _ ih =>
    exact .force ha fun size' v hle hv =>
      ih size' v hle hv fun _ a hle' => hf _ a (Nat.le_trans hle hle')
  | work hj _ ih =>
    exact .work hj fun size' x hle hx =>
      ih size' x hle hx fun _ a hle' => hf _ a (Nat.le_trans hle hle')

/-- Scripts one after the other are safe, if each is over however many cells. -/
theorem forEach {f : α → Script δ} {as : List α}
    (h : ∀ a ∈ as, ∀ size', size ≤ size' → Safe (fun _ _ => True) size' (f a)) :
    Safe (fun _ _ => True) size (Script.forEach f as) := by
  induction as generalizing size with
  | nil => exact .pure trivial
  | cons a as ih =>
    obtain ⟨hfirst, hrest⟩ := List.forall_mem_cons.mp h
    refine bind (hfirst size (Nat.le_refl size)) fun size' y hle _ => ?_
    have hlater := ih fun b hb size'' hle' => hrest b hb size'' (Nat.le_trans hle hle')
    exact bind hlater fun _ ys _ _ => .pure trivial

theorem cell {a : Addr} (ha : a < size) : Safe Value.Proper size (Script.cell a) :=
  .force ha fun _ _ _ hv => .done hv

theorem job {κ : Kind} {j : Job κ} (hj : j.Proper size) : Safe κ.Proper size (Script.job j) :=
  .work hj fun _ _ _ hx => .done hx

theorem delay {k : Suspension} (hk : k.Proper size) :
    Safe (fun size a => a < size) size (Script.delay k) := by
  refine .grow (fun c hc => ?_) (.done (Nat.lt_succ_self size))
  obtain rfl := List.mem_singleton.mp hc
  exact hk.mono (Nat.le_succ size)

/-- New cells for terms in an environment. -/
theorem delayAll {env : Env} {ts : List Term} (hts : ∀ t ∈ ts, t.Core) (henv : env.Below size) :
    Safe (fun size cells => ∀ a ∈ cells, a < size) size (Script.delayAll env ts) := by
  refine .grow (fun k hk => ?_) (.done fun a ha => ?_)
  · obtain ⟨t, ht, rfl⟩ := List.mem_map.mp hk
    exact .term (hts t ht) (henv.mono (Nat.le_add_right _ _))
  · rw [List.length_map]
    exact (List.mem_range'_1.mp ha).2

/-! ## Forcing to a form -/

theorem forceText (caller : Builtin) {a : Addr} (ha : a < size) :
    Safe (fun _ _ => True) size (Script.forceText caller a) := by
  refine bind (.cell ha) fun size' v _ hv => ?_
  cases hv with
  | text s => exact .pure trivial
  | list h => exact .fail rfl
  | dict h => exact .fail rfl
  | closure binder hbody henv => exact .fail rfl
  | builtin hcount h => exact .fail rfl

theorem forceDict (caller : Builtin) {a : Addr} (ha : a < size) :
    Safe Table.Below size (Script.forceDict caller a) := by
  refine bind (.cell ha) fun size' v _ hv => ?_
  cases hv with
  | text s => exact .fail rfl
  | list h => exact .fail rfl
  | dict h => exact .pure h
  | closure binder hbody henv => exact .fail rfl
  | builtin hcount h => exact .fail rfl

theorem forceKeys (caller : Builtin) {a : Addr} (ha : a < size) :
    Safe (fun _ _ => True) size (Script.forceKeys caller a) := by
  refine bind (.cell ha) fun size' v _ hv => ?_
  cases hv with
  | text s => exact .fail rfl
  | list h =>
    exact forEach fun b hb _ hle => .forceText caller (Nat.lt_of_lt_of_le (h b hb) hle)
  | dict h => exact .fail rfl
  | closure binder hbody henv => exact .fail rfl
  | builtin hcount h => exact .fail rfl

/-! ## Builtin functions, applications and terms -/

theorem call {c : Call} (hc : c.Below size) : Safe Value.Proper size (Script.call c) := by
  cases c with
  | identity x => exact .cell hc
  | compose f g x =>
    obtain ⟨hf, hg, hx⟩ := hc
    refine bind (.cell hf) fun size' v hle hv => ?_
    have hcomposed : (Suspension.composed g x).Proper size' :=
      .composed (Nat.lt_of_lt_of_le hg hle) (Nat.lt_of_lt_of_le hx hle)
    exact bind (.delay hcomposed) fun _ y hle' hy => .job (.apply (hv.mono hle') hy)
  | append a b =>
    obtain ⟨ha, hb⟩ := hc
    refine bind (.forceText .append ha) fun size' x hle _ => ?_
    refine bind (.forceText .append (Nat.lt_of_lt_of_le hb hle)) fun _ y _ _ => ?_
    exact .pure (.text (x ++ y))
  | lookup subject key =>
    obtain ⟨hsubject, hkey⟩ := hc
    refine bind (.forceDict .lookup hsubject) fun size' entries hle hentries => ?_
    refine bind (.forceText .lookup (Nat.lt_of_lt_of_le hkey hle)) fun _ k hle' _ => ?_
    cases hk : entries.get? k with
    | none => exact .fail rfl
    | some a => exact .cell (Nat.lt_of_lt_of_le (hentries k a hk) hle')
  | mergeLeft a b =>
    obtain ⟨ha, hb⟩ := hc
    refine bind (.forceDict .mergeLeft ha) fun size' left hle hleft => ?_
    refine bind (.forceDict .mergeLeft (Nat.lt_of_lt_of_le hb hle)) fun _ right hle' hright => ?_
    exact .pure (.dict ((hleft.mono hle').merge hright))
  | disallowExtra keys subject =>
    obtain ⟨hkeys, hsubject⟩ := hc
    refine bind (.forceKeys .disallowExtra hkeys) fun size' allowed hle _ => ?_
    refine bind (.forceDict .disallowExtra (Nat.lt_of_lt_of_le hsubject hle))
      fun _ entries _ hentries => ?_
    cases entries.keys.filter fun k => !allowed.contains k with
    | nil => exact .pure (.dict hentries)
    | cons k extra => exact .fail rfl

/-- The environment of a function's body. -/
theorem bindArgument (binder : Binder) {env : Env} {a : Addr} (henv : env.Below size)
    (ha : a < size) : Safe Table.Below size (Script.bindArgument binder a env) := by
  cases binder with
  | name x => exact .pure (henv.insert x ha)
  | keys names ellipsis =>
    refine bind (.cell ha) fun size' v hle hv => ?_
    cases hv with
    | text s => exact .fail rfl
    | list h => exact .fail rfl
    | @dict entries hentries =>
      have hbound := (henv.mono hle).bindNames hentries names
      dsimp only
      cases names.filter fun x => !entries.contains x with
      | cons x missing => exact .fail rfl
      | nil =>
        cases entries.keys.filter fun k => !names.contains k with
        | nil => exact .pure hbound
        | cons k extra =>
          cases ellipsis with
          | false => exact .fail rfl
          | true => exact .pure hbound
    | closure binder hbody henv => exact .fail rfl
    | builtin hcount h => exact .fail rfl

end Safe

end Script

/-- The arguments of a call are those that the builtin function is given. -/
theorem Builtin.below_of_call? {size : Nat} {f : Builtin} {arguments : List Addr} {c : Call}
    (hc : f.call? arguments = some c) (h : ∀ a ∈ arguments, a < size) : c.Below size := by
  unfold Builtin.call? at hc
  split at hc
  case h_7 => exact nomatch hc
  all_goals
    obtain rfl := Option.some.inj hc
    simpa [Call.Below] using h

/-- A builtin function that is not called yet goes on lacking an argument. -/
theorem Builtin.length_lt_of_call?_eq_none {f : Builtin} {arguments : List Addr} {a : Addr}
    (hcount : arguments.length < f.arity) (hnone : f.call? (arguments ++ [a]) = none) :
    (arguments ++ [a]).length < f.arity := by
  have hne : (arguments ++ [a]).length ≠ f.arity := by
    intro heq
    have hsome := (f.isSome_call?_iff _).mpr heq
    rw [hnone] at hsome
    exact Bool.false_ne_true hsome
  rw [List.length_append, List.length_singleton] at hne ⊢
  exact Nat.lt_of_le_of_ne hcount hne

namespace Script.Safe

variable {size : Nat}

theorem apply {f : Value} {a : Addr} (hf : f.Proper size) (ha : a < size) :
    Safe Value.Proper size (Script.apply f a) := by
  cases hf with
  | text s => exact .fail rfl
  | list h => exact .fail rfl
  | dict h => exact .fail rfl
  | closure binder hbody henv =>
    exact bind (.bindArgument binder henv ha) fun _ inner _ hinner => .job (.eval hbody hinner)
  | @builtin f arguments hcount h =>
    have hall : ∀ x ∈ arguments ++ [a], x < size :=
      List.forall_mem_append.mpr ⟨h, List.forall_mem_singleton.mpr ha⟩
    unfold Script.apply
    cases hcall : f.call? (arguments ++ [a]) with
    | none =>
      simp only [hcall]
      exact .pure (.builtin (Builtin.length_lt_of_call?_eq_none hcount hcall) hall)
    | some c =>
      simp only [hcall]
      exact .note _ (.call (Builtin.below_of_call? hcall hall))

theorem eval {t : Term} {env : Env} (ht : t.Core) (henv : env.Below size) :
    Safe Value.Proper size (Script.eval t env) := by
  cases ht with
  | var x =>
    unfold Script.eval
    cases hx : env.get? x with
    | none =>
      simp only [hx]
      exact .fail rfl
    | some a =>
      simp only [hx]
      exact .cell (henv x a hx)
  | lam binder hbody => exact .pure (.closure binder hbody henv)
  | app hf ha =>
    refine .note _ (bind (.job (.eval hf henv)) fun size' v hle hv => ?_)
    refine bind (.delay (.term ha (henv.mono hle))) fun _ x hle' hx => ?_
    exact .job (.apply (Value.Proper.mono hle' hv) hx)
  | text s => exact .pure (.text s)
  | list h => exact bind (.delayAll h henv) fun _ cells _ hcells => .pure (.list hcells)
  | @dict entries h =>
    have hts : ∀ t ∈ entries.map Prod.snd, t.Core := List.forall_mem_map.mpr h
    exact bind (.delayAll hts henv) fun _ cells _ hcells =>
      .pure (.dict (Table.below_zip (entries.map Prod.fst) hcells))
  | @letrec bindings body hbindings hbody =>
    have hinner : ∀ size', size' = size + bindings.length →
        (bindFrom size (bindings.map Prod.fst) env).Below size' := by
      rintro _ rfl
      refine (henv.mono (Nat.le_add_right _ _)).bindFrom (Nat.le_of_eq ?_)
      rw [List.length_map]
    refine .note _ (.grow (fun k hk => ?_) (.job (.eval hbody (hinner _ (by simp)))))
    obtain ⟨u, hu, rfl⟩ := List.mem_map.mp hk
    obtain ⟨e, he, rfl⟩ := List.mem_map.mp hu
    exact .term (hbindings e he) (hinner _ (by simp))
  | builtin f =>
    simp only [Script.eval, Builtin.ofName?_name]
    exact .pure (.builtin f.arity_pos fun a ha => absurd ha List.not_mem_nil)

theorem resume {k : Suspension} (hk : k.Proper size) :
    Safe Value.Proper size (Script.resume k) := by
  cases hk with
  | term ht henv => exact .job (.eval ht henv)
  | composed hf hx =>
    exact bind (.cell hf) fun _ v hle hv => .job (.apply hv (Nat.lt_of_lt_of_le hx hle))

/-! ## Everything inside a value -/

theorem deepen {v : Value} (hv : v.Proper size) :
    Safe (fun _ _ => True) size (Script.deepen v) := by
  cases hv with
  | text s => exact .pure trivial
  | list h =>
    refine bind (forEach fun a ha _ hle => ?_) fun _ ds _ _ => .pure trivial
    exact bind (.cell (Nat.lt_of_lt_of_le (h a ha) hle)) fun _ v _ hv => .job (.deepen hv)
  | dict h =>
    refine bind (forEach fun e he _ hle => ?_) fun _ ds _ _ => .pure trivial
    refine bind (.cell (Nat.lt_of_lt_of_le (h.of_mem he) hle)) fun _ v _ hv => ?_
    exact bind (.job (.deepen hv)) fun _ x _ _ => .pure trivial
  | closure binder hbody henv => exact .pure trivial
  | builtin hcount h => exact .pure trivial

theorem express {v : Value} (hv : v.Proper size) :
    Safe (fun _ _ => True) size (Script.express v) := by
  cases hv with
  | text s => exact .pure trivial
  | list h =>
    refine bind (forEach fun a ha _ hle => ?_) fun _ es _ _ => .pure trivial
    exact bind (.cell (Nat.lt_of_lt_of_le (h a ha) hle)) fun _ v _ hv => .job (.express hv)
  | dict h =>
    refine bind (forEach fun e he _ hle => ?_) fun _ bs _ _ => .pure trivial
    refine bind (.cell (Nat.lt_of_lt_of_le (h.of_mem he) hle)) fun _ v _ hv => ?_
    exact bind (.job (.express hv)) fun _ x _ _ => .pure trivial
  | closure binder hbody henv => exact .fail rfl
  | builtin hcount h => exact .fail rfl

end Script.Safe

/-- The scripts of proper jobs are safe. -/
theorem Job.Proper.script {size : Nat} {κ : Kind} {j : Job κ} (h : j.Proper size) :
    j.script.Safe κ.Proper size := by
  cases h with
  | eval ht henv => exact .eval ht henv
  | apply hf ha => exact .apply hf ha
  | deepen hv => exact .deepen hv
  | express hv => exact .express hv

end LazyConfig
