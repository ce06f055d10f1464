import LazyConfig.Eval.Data
import LazyConfig.Proofs.Lockstep.Steps
set_option autoImplicit false

/-!
# Lockstep: closed stores

A store is closed if there is a cell for every address that one of its cells may need.
The evaluator only makes closed stores out of closed stores: a run goes in lockstep with
itself, and every cell behind it stands for itself.
-/

namespace LazyConfig

/-- Each cell of the store stands for itself. -/
def Store.self (s : Store) : Link := fun a c => a = c ∧ a < s.next

/-- What the cells of the store may need is in the store. -/
def Store.Closed (s : Store) : Prop := ∀ a d, s.get? a = some d → CellAlike s.self d d

/-- What the environment binds is in the store. -/
def Store.Binds (s : Store) (env : Env) : Prop := ∀ x a, env.get? x = some a → a < s.next

/-- The frame of a store whose cells are all linked. -/
def Frame.all : Frame := ⟨fun _ _ => False, True⟩

variable {β γ ζ : Link} {s t t' : Store}

theorem closed_empty : Store.empty.Closed := by
  intro a d hd
  exact nomatch Store.lt_next_of_get? hd

theorem Store.Closed.linked (h : s.Closed) : Linked s.self .all s s where
  cells := by
    rintro a _ ⟨rfl, ha⟩
    have hget : s.get? a = some s.cells[a] := Array.getElem?_eq_getElem ha
    exact ⟨_, _, hget, hget, h a _ hget⟩
  forth := by
    rintro a c c' ⟨rfl, -⟩ ⟨rfl, -⟩
    rfl
  back := by
    rintro a a' c ⟨rfl, -⟩ ⟨rfl, -⟩
    rfl
  held := fun a d hd => hd.elim
  whole := fun _ a ha => ⟨a, rfl, ha⟩

theorem Store.Binds.insert {env : Env} (h : s.Binds env) (x : String) {a : Addr}
    (ha : a < s.next) : s.Binds (env.insert x a) :=
  Table.Below.insert h x ha

/-- An environment over a store is like itself, whatever a term needs of it. -/
theorem Store.Binds.alike {env : Env} (h : s.Binds env) (t : Term) : EnvAlike s.self t env env := by
  intro x _
  cases hx : env.get? x with
  | none => exact Or.inr ⟨rfl, rfl⟩
  | some a => exact .some ⟨rfl, h x a hx⟩

/-! ## What stands for itself -/

theorem forall₂_self {α : Type} {R S : α → α → Prop} (h : ∀ a b, R a b → S a a) {as bs : List α}
    (hab : List.Forall₂ R as bs) : List.Forall₂ S as as := by
  induction hab with
  | nil => exact .nil
  | cons hab _ ih => exact .cons (h _ _ hab) ih

section

variable (h : ∀ a c, γ a c → ζ a a)

include h

theorem EnvAlike.self {t : Term} {env env' : Env} (he : EnvAlike γ t env env') :
    EnvAlike ζ t env env := by
  intro x hx
  obtain ⟨a, c, ha, -, hac⟩ | ⟨ha, -⟩ := he x hx
  · exact Or.inl ⟨a, a, ha, ha, h a c hac⟩
  · exact Or.inr ⟨ha, ha⟩

theorem ValueAlike.self {v w : Value} (hv : ValueAlike γ v w) : ValueAlike ζ v v := by
  cases hv with
  | text text => exact .text text
  | list hi => exact .list (forall₂_self h hi)
  | dict he => exact .dict (forall₂_self (fun e e' hee => ⟨rfl, h e.2 e'.2 hee.2⟩) he)
  | closure he => exact .closure (he.self h)
  | builtin hi => exact .builtin (forall₂_self h hi)

theorem SuspensionAlike.self {c d : Suspension} (hc : SuspensionAlike γ c d) :
    SuspensionAlike ζ c c := by
  cases hc with
  | term he => exact .term (he.self h)
  | composed hf hx => exact .composed (h _ _ hf) (h _ _ hx)

theorem CellAlike.self {c d : Cell} (hc : CellAlike γ c d) : CellAlike ζ c c := by
  cases hc with
  | delayed hs => exact .delayed (hs.self h)
  | running hs => exact .running (hs.self h)
  | done hv => exact .done (hv.self h)

end

/-! ## Runs from closed stores -/

/-- A linked cell of the first store stands for itself. -/
theorem Linked.self {φ : Frame} (h : Linked γ φ t t') : ∀ a c, γ a c → t.self a a := by
  intro a c hac
  exact ⟨rfl, (h.lt_next hac).1⟩

theorem Linked.closed (h : Linked γ .all t t') : t.Closed := by
  intro a d hd
  obtain ⟨c, hac⟩ := h.whole trivial a (Store.lt_next_of_get? hd)
  obtain ⟨e, e', he, -, halike⟩ := h.cells a c hac
  obtain rfl : d = e := Option.some.inj (hd.symm.trans he)
  exact halike.self h.self

/-- A run that is like itself leaves a closed store, and its value needs nothing else. -/
theorem Alike.closed {α : Type} {Fits : Link → α → α → Prop} {r : Result α}
    (h : Alike s.self .all Fits r r) :
    r.store.Closed ∧ ∀ v, r.outcome = .value v → ∃ γ w, (∀ a c, γ a c → r.store.self a a) ∧
      Fits γ v w := by
  obtain ⟨γ, -, hs, ho⟩ := h
  refine ⟨hs.closed, fun v hv => ?_⟩
  rw [hv] at ho
  cases ho with
  | value hfits => exact ⟨γ, v, hs.self, hfits⟩

/-- A script that is like itself leaves a closed store behind a closed one, however it ends,
and its value needs nothing else. -/
theorem ScriptAlike.closed {α : Type} {Fits : Link → α → α → Prop} {p : Script α}
    (hp : ScriptAlike Fits s.self p p) (hs : s.Closed) (n : Nat) (tr : Bool) :
    (p.run n tr s).store.Closed ∧ ∀ v, (p.run n tr s).outcome = .value v →
      ∃ γ w, (∀ a c, γ a c → (p.run n tr s).store.self a a) ∧ Fits γ v w :=
  Alike.closed (hp.run (levelAlike .all tr tr n) hs.linked)

/-! ## Plain data -/

/-- Environments of plain data can be placed in linked stores alike. -/
theorem placeEnv_alike {φ : Frame} {s' : Store} {tr tr' : Bool}
    (bindings : List (String × Plain)) (hs : Linked β φ s s') :
    Alike β φ (fun γ env env' => Keyed γ env.entries env'.entries) (placeEnv bindings tr s)
      (placeEnv bindings tr' s') := by
  have hentries := (ScriptAlike.placeEntries bindings (β := β)).run (levelAlike φ tr tr' 0) hs
  rw [Script.run_placeEntries] at hentries
  refine Alike.bind hentries ?_
  intro γ t t' es es' _ ht hes
  refine Alike.pure ht ?_
  rw [entries_ofList, entries_ofList]
  exact hes.insertAll .nil

/-- An environment of plain data binds cells of a closed store. -/
theorem placeEnv_closed (bindings : List (String × Plain)) (hs : s.Closed) (tr : Bool) :
    (placeEnv bindings tr s).store.Closed ∧
      ∀ env, (placeEnv bindings tr s).outcome = .value env →
        (placeEnv bindings tr s).store.Binds env := by
  have hsame : Alike s.self .all (fun γ env env' => Keyed γ env.entries env'.entries)
      (placeEnv bindings tr s) (placeEnv bindings tr s) := placeEnv_alike bindings hs.linked
  obtain ⟨hclosed, hvalue⟩ := hsame.closed
  refine ⟨hclosed, fun env henv x a hx => ?_⟩
  obtain ⟨γ, env', hself, hkeyed⟩ := hvalue env henv
  obtain ⟨b, c, hb, -, hbc⟩ | ⟨hnone, -⟩ := hkeyed.findEntry x
  · obtain rfl : a = b := Option.some.inj (hx.symm.trans hb)
    exact (hself a c hbc).2
  · exact nomatch hx.symm.trans hnone

end LazyConfig
