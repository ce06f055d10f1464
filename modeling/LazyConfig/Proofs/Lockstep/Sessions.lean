import LazyConfig.Proofs.Lockstep.Closed
import LazyConfig.Proofs.Keeping
set_option autoImplicit false

/-!
# Lockstep: sound sessions

A session is sound if its store is closed and there is a cell for every address that its
environments and its values may need.  The script for a command of a sound session is like
itself, so the session behind the command is sound again.
-/

namespace LazyConfig

/-! ## The scripts of commands -/

/-- Environments that bind the same names to linked cells. -/
def EnvPaired (β : Link) (env env' : Env) : Prop := ∀ x, Paired β (env.get? x) (env'.get? x)

section

variable {β γ : Link} {env env' : Env}

theorem EnvPaired.mono (hle : β.Le γ) (h : EnvPaired β env env') : EnvPaired γ env env' :=
  fun x => (h x).imp hle

theorem EnvPaired.alike (h : EnvPaired β env env') (t : Term) : EnvAlike β t env env' :=
  fun x _ => h x

theorem EnvPaired.insert (h : EnvPaired β env env') (x : String) {a c : Addr} (hac : β a c) :
    EnvPaired β (env.insert x a) (env'.insert x c) := by
  intro y
  rw [Table.get?_insert, Table.get?_insert]
  by_cases hxy : x = y
  · rw [if_pos hxy, if_pos hxy]
    exact .some hac
  · rw [if_neg hxy, if_neg hxy]
    exact h y

namespace ScriptAlike

theorem argument (h : EnvPaired β env env') (a : Argument) :
    ScriptAlike (fun γ => γ) β (Script.argument env a) (Script.argument env' a) := by
  cases a with
  | delayed t => exact .delay (.term (h.alike t))
  | ready d => exact bind (.place d) fun _ _ _ _ hvw => .keep hvw

theorem bindArguments {scope scope' : Env} (hscope : EnvPaired β scope scope')
    (bindings : List (String × Argument)) (h : EnvPaired β env env') :
    ScriptAlike EnvPaired β (Script.bindArguments scope bindings env)
      (Script.bindArguments scope' bindings env') := by
  induction bindings generalizing β env env' with
  | nil => exact .pure h
  | cons binding rest ih =>
    refine bind (.argument hscope binding.2) fun γ a c hle hac => ?_
    exact ih (hscope.mono hle) ((h.mono hle).insert binding.1 hac)

theorem callByName (name : String) {arguments arguments' : List Addr}
    (h : List.Forall₂ β arguments arguments') :
    ScriptAlike ValueAlike β (Script.callByName name arguments)
      (Script.callByName name arguments') := by
  unfold Script.callByName
  cases Builtin.ofName? name with
  | none => exact .fail _
  | some b =>
    obtain ⟨d, d', hd, hd', halike⟩ | ⟨hd, hd'⟩ := call?_alike b h
    · simp only [hd, hd']
      exact .call halike
    · simp only [hd, hd']
      exact .pure (.builtin h)

end ScriptAlike

end

/-- Plans of one kind, with scripts that are alike. -/
inductive PlanAlike (β : Link) : Plan → Plan → Prop where
  | reply (answer : Answer) : PlanAlike β (.reply answer) (.reply answer)
  | value {p p' : Script Value} (h : ScriptAlike ValueAlike β p p') :
      PlanAlike β (.value p) (.value p')
  | env {p p' : Script Env} (h : ScriptAlike EnvPaired β p p') : PlanAlike β (.env p) (.env p')
  | data {p p' : Script (Data FunctionKind)} (h : ScriptAlike (fun _ => Eq) β p p') :
      PlanAlike β (.data p) (.data p')
  | program {p p' : Script Expr} (h : ScriptAlike (fun _ => Eq) β p p') :
      PlanAlike β (.program p) (.program p')

/-! ## Sound sessions -/

theorem Store.Binds.paired {s : Store} {env : Env} (h : s.Binds env) :
    EnvPaired s.self env env := by
  intro x
  cases hx : env.get? x with
  | none => exact Or.inr ⟨rfl, rfl⟩
  | some a => exact .some ⟨rfl, h x a hx⟩

theorem Store.self_mono {s t : Store} (h : s.next ≤ t.next) : s.self.Le t.self :=
  fun _ _ hac => ⟨hac.1, Nat.lt_of_lt_of_le hac.2 h⟩

namespace Session

/-- There is a cell for every address that is needed. -/
structure Sound (s : Session) : Prop where
  /-- The cells need no others. -/
  closed : s.store.Closed
  /-- The environments need no others. -/
  envs : ∀ (i : Nat) (env : Env), s.envs[i]? = some env → s.store.Binds env
  /-- The values need no others. -/
  values : ∀ (i : Nat) (v : Value), s.values[i]? = some v → ValueAlike s.store.self v v

variable {s : Session}

theorem Sound.planEnv_alike (h : s.Sound) (i : Nat) {plan : Env → Plan}
    (hplan : ∀ env, s.store.Binds env → PlanAlike s.store.self (plan env) (plan env)) :
    PlanAlike s.store.self (s.planEnv i plan) (s.planEnv i plan) := by
  unfold planEnv
  cases hi : s.envs[i]? with
  | none => exact .reply .nowhere
  | some env => exact hplan env (h.envs i env hi)

theorem Sound.planValue_alike (h : s.Sound) (i : Nat) {plan : Value → Plan}
    (hplan : ∀ v, ValueAlike s.store.self v v → PlanAlike s.store.self (plan v) (plan v)) :
    PlanAlike s.store.self (s.planValue i plan) (s.planValue i plan) := by
  unfold planValue
  cases hi : s.values[i]? with
  | none => exact .reply .nowhere
  | some v => exact hplan v (h.values i v hi)

theorem paired_getElem? {R : Addr → Addr → Prop} {as bs : List Addr} (h : List.Forall₂ R as bs)
    (i : Nat) : Paired R as[i]? bs[i]? := by
  induction h generalizing i with
  | nil => exact Or.inr ⟨rfl, rfl⟩
  | cons hab _ ih =>
    cases i with
    | zero => exact .some hab
    | succ i => exact ih i

theorem eq_or_getElem?_of_push {α : Type} {xs : Array α} {i : Nat} {x y : α}
    (h : (xs.push y)[i]? = some x) : x = y ∨ xs[i]? = some x := by
  rw [Array.getElem?_push] at h
  split at h
  · exact Or.inl (Option.some.inj h).symm
  · exact Or.inr h

theorem planCell_alike {β : Link} (missing : Answer) {o o' : Option Addr} (h : Paired β o o') :
    PlanAlike β (planCell missing o) (planCell missing o') := by
  obtain ⟨a, c, rfl, rfl, hac⟩ | ⟨rfl, rfl⟩ := h
  · exact .value (.cell hac)
  · exact .reply missing

/-- What a sound session plans to do is like itself. -/
theorem Sound.plan_alike (h : s.Sound) (c : Command) :
    PlanAlike s.store.self (s.plan c) (s.plan c) := by
  cases c with
  | bind env bindings =>
    exact h.planEnv_alike env fun scope hscope =>
      .env (.bindArguments hscope.paired bindings hscope.paired)
  | contains env name => exact h.planEnv_alike env fun scope _ => .reply _
  | marks env => exact h.planEnv_alike env fun scope _ => .reply _
  | lookup env name =>
    exact h.planEnv_alike env fun scope hscope => planCell_alike .absent (hscope.paired name)
  | evaluate env t =>
    exact h.planEnv_alike env fun scope hscope => .value (.job (.eval (hscope.alike t)))
  | call env name arguments =>
    refine h.planEnv_alike env fun scope hscope => .value ?_
    exact .bind (.delayAll fun t _ => hscope.alike t) fun γ as cs _ hacs => .callByName name hacs
  | apply value env argument =>
    refine h.planValue_alike value fun f hf => h.planEnv_alike env fun scope hscope => .value ?_
    exact .bind (.argument hscope.paired argument) fun γ a c hle hac =>
      .job (.apply (hf.mono hle) hac)
  | item value position =>
    refine h.planValue_alike value fun v hv => ?_
    cases hv with
    | list hi => exact planCell_alike .nowhere (paired_getElem? hi position)
    | text text => exact .reply _
    | dict he => exact .reply _
    | closure he => exact .reply _
    | builtin hi => exact .reply _
  | entry value key =>
    refine h.planValue_alike value fun v hv => ?_
    cases hv with
    | dict he => exact planCell_alike .nowhere (he.findEntry key)
    | text text => exact .reply _
    | list hi => exact .reply _
    | closure he => exact .reply _
    | builtin hi => exact .reply _
  | view value => exact h.planValue_alike value fun v _ => .reply _
  | deepen value => exact h.planValue_alike value fun v hv => .data (.job (.deepen hv))
  | render value => exact h.planValue_alike value fun v hv => .program (.job (.express hv))

theorem Sound.later (h : s.Sound) {t : Store} (ht : t.Closed) (hle : s.store.next ≤ t.next) :
    Sound ⟨t, s.envs, s.values⟩ where
  closed := ht
  envs := fun i env hi x a hx => Nat.lt_of_lt_of_le (h.envs i env hi x a hx) hle
  values := fun i v hi => (h.values i v hi).mono (Store.self_mono hle)

theorem Sound.keep (h : s.Sound) {v : Value} (hv : ValueAlike s.store.self v v) :
    (s.keep v).1.Sound where
  closed := h.closed
  envs := h.envs
  values := by
    intro i w hi
    rcases eq_or_getElem?_of_push hi with rfl | hold
    · exact hv
    · exact h.values i w hold

theorem Sound.keepEnv (h : s.Sound) {env : Env} (henv : s.store.Binds env) :
    (s.keepEnv env).1.Sound where
  closed := h.closed
  envs := by
    intro i env' hi
    rcases eq_or_getElem?_of_push hi with rfl | hold
    · exact henv
    · exact h.envs i env' hold
  values := h.values

/-- A sound session is sound behind a script that is like itself. -/
theorem Sound.running (h : s.Sound) (n : Nat) (tr : Bool) {α : Type} {Fits : Link → α → α → Prop}
    {p : Script α} (hp : ScriptAlike Fits s.store.self p p)
    {finish : Session → α → Session × Answer}
    (hfinish : ∀ (t : Session) (γ : Link) (a b : α), t.Sound → (∀ x y, γ x y → t.store.self x x) →
      Fits γ a b → (finish t a).1.Sound) :
    (s.running tr (p.run n) finish).session.Sound := by
  obtain ⟨hclosed, hvalue⟩ := hp.closed h.closed n tr
  have hlater := h.later hclosed (p.run_keeps n tr s.store).next_le
  unfold Session.running
  rcases hr : p.run n tr s.store with ⟨outcome, t, notes⟩
  rw [hr] at hlater hvalue
  cases outcome with
  | value a =>
    obtain ⟨γ, b, hself, hfits⟩ := hvalue a rfl
    exact hfinish ⟨t, s.envs, s.values⟩ γ a b hlater hself hfits
  | error e => exact hlater
  | exhausted => exact hlater

theorem Sound.follow (h : s.Sound) (n : Nat) (tr : Bool) {plan : Plan}
    (hplan : PlanAlike s.store.self plan plan) : (s.follow n tr plan).session.Sound := by
  cases hplan with
  | reply answer => exact h
  | value hp => exact h.running n tr hp fun t γ a b ht hself hab => ht.keep (hab.self hself)
  | env hp =>
    refine h.running n tr hp fun t γ env env' ht hself henv => ht.keepEnv fun x a hx => ?_
    obtain ⟨b, c, hb, -, hbc⟩ | ⟨hnone, -⟩ := henv x
    · obtain rfl : a = b := Option.some.inj (hx.symm.trans hb)
      exact (hself a c hbc).2
    · exact nomatch hx.symm.trans hnone
  | data hp => exact h.running n tr hp fun t _ _ _ ht _ _ => ht
  | program hp => exact h.running n tr hp fun t _ _ _ ht _ _ => ht

theorem sound_start : start.Sound where
  closed := closed_empty
  envs := by
    intro i env hi x a hx
    have hpush : ((#[] : Array Env).push Table.empty)[i]? = some env := hi
    rcases eq_or_getElem?_of_push hpush with rfl | hold
    · exact nomatch hx
    · exact nomatch hold
  values := fun i v hi => nomatch hi

end Session

end LazyConfig
