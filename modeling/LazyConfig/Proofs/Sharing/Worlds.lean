import LazyConfig.Proofs.Sharing.Recipes
import LazyConfig.Proofs.Stores
set_option autoImplicit false

/-!
# Sharing: stores and recipes

A world says of each cell what it is for.  It is never wrong about a cell, and it only
grows; so everything that fits it goes on fitting.  A store is described by a world if
each cell holds a computation that fits its recipe, or a value that answers it.
-/

namespace LazyConfig

/-! ## What fits a world -/

/-- What each cell is for, as far as it is known. -/
abbrev World := Addr → Option Recipe

namespace World

/-- The later world knows all that the earlier one does. -/
def Le (δ ε : World) : Prop := ∀ a r, δ a = some r → ε a = some r

theorem Le.refl (δ : World) : δ.Le δ := fun _ _ h => h

theorem Le.trans {δ ε ζ : World} (h : δ.Le ε) (h' : ε.Le ζ) : δ.Le ζ :=
  fun a r hr => h' a r (h a r hr)

end World

/-- Cells for the recipes of a list. -/
def ItemsFit (δ : World) (items : List Addr) (rs : List Recipe) : Prop :=
  List.Forall₂ (fun a r => δ a = some r) items rs

/-- Cells under keys for the recipes under the same keys. -/
def EntriesFit (δ : World) (entries : List (String × Addr)) (rs : List (String × Recipe)) : Prop :=
  Keyed (fun a r => δ a = some r) entries rs

/-- Each name is bound to a cell for what it stands for. -/
structure EnvFits (δ : World) (env : Env) (frames : Frames) : Prop where
  /-- A name that is bound stands for what its cell is for. -/
  bound : ∀ x a, env.get? x = some a → ∃ r, frames.find? x = some r ∧ δ a = some r
  /-- A name that is not bound stands for nothing. -/
  unbound : ∀ x, env.get? x = none → frames.find? x = none

/-- A value and its form. -/
inductive ValueFits (δ : World) : Value → Form → Prop where
  | text (s : String) : ValueFits δ (.text s) (.text s)
  | list {items : List Addr} {rs : List Recipe} (h : ItemsFit δ items rs) :
      ValueFits δ (.list items) (.list rs)
  | dict {entries : Table Addr} {rs : List (String × Recipe)}
      (h : EntriesFit δ entries.entries rs) : ValueFits δ (.dict entries) (.dict rs)
  | closure {binder : Binder} {body : Term} {env : Env} {frames : Frames}
      (h : EnvFits δ env frames) :
      ValueFits δ (.closure binder body env) (.closure binder body frames)
  | builtin {b : Builtin} {arguments : List Addr} {rs : List Recipe}
      (h : ItemsFit δ arguments rs) : ValueFits δ (.builtin b arguments) (.builtin b rs)

/-- A suspended computation and its recipe. -/
inductive SuspensionFits (δ : World) : Suspension → Recipe → Prop where
  | term {t : Term} {env : Env} {frames : Frames} (h : EnvFits δ env frames) :
      SuspensionFits δ (.term t env) (.term t frames)
  | composed {f x : Addr} {g y : Recipe} (hf : δ f = some g) (hx : δ x = some y) :
      SuspensionFits δ (.composed f x) (.composed g y)

/-- What is done and what is asked for. -/
inductive TaskFits (δ : World) : Task → Demand → Prop where
  | eval {t : Term} {env : Env} {frames : Frames} (h : EnvFits δ env frames) :
      TaskFits δ (.eval t env) (.eval t frames)
  | apply {v : Value} {w : Form} {a : Addr} {r : Recipe} (hv : ValueFits δ v w)
      (ha : δ a = some r) : TaskFits δ (.apply v a) (.apply w r)
  | force {a : Addr} {r : Recipe} (ha : δ a = some r) : TaskFits δ (.force a) (.force r)

/-- The answer to a demand, whatever the allowance is if it is large enough. -/
def Answers (demand : Demand) (w : Form) : Prop := ∃ n, answerWithin n demand = .value w

/-- A cell and its recipe.  `busy` limits which cells may have a computation going on. -/
inductive CellFits (δ : World) (busy : Addr → Recipe → Prop) (a : Addr) : Cell → Recipe → Prop where
  | delayed {c : Suspension} {r : Recipe} (h : SuspensionFits δ c r) :
      CellFits δ busy a (.delayed c) r
  | running {c : Suspension} {r : Recipe} (h : SuspensionFits δ c r) (hb : busy a r) :
      CellFits δ busy a (.running c) r
  | done {v : Value} {w : Form} {r : Recipe} (h : Answers (.force r) w) (hv : ValueFits δ v w) :
      CellFits δ busy a (.done v) r

/-- Every cell that the world knows fits its recipe. -/
def Describes (δ : World) (busy : Addr → Recipe → Prop) (s : Store) : Prop :=
  ∀ a r, δ a = some r → ∃ c, s.get? a = some c ∧ CellFits δ busy a c r

/-! ## What fits goes on fitting -/

section

variable {δ ε : World} (h : δ.Le ε)

include h

theorem ItemsFit.mono {items : List Addr} {rs : List Recipe} (hi : ItemsFit δ items rs) :
    ItemsFit ε items rs :=
  List.Forall₂.imp (fun a r hr => h a r hr) hi

theorem EntriesFit.mono {entries : List (String × Addr)} {rs : List (String × Recipe)}
    (he : EntriesFit δ entries rs) : EntriesFit ε entries rs :=
  Keyed.imp he fun a r hr => h a r hr

theorem EnvFits.mono {env : Env} {frames : Frames} (he : EnvFits δ env frames) :
    EnvFits ε env frames where
  bound := fun x a hx =>
    let ⟨r, hr, ha⟩ := he.bound x a hx
    ⟨r, hr, h a r ha⟩
  unbound := he.unbound

theorem ValueFits.mono {v : Value} {w : Form} (hv : ValueFits δ v w) : ValueFits ε v w := by
  cases hv with
  | text s => exact .text s
  | list hi => exact .list (hi.mono h)
  | dict he => exact .dict (he.mono h)
  | closure he => exact .closure (he.mono h)
  | builtin hi => exact .builtin (hi.mono h)

theorem SuspensionFits.mono {c : Suspension} {r : Recipe} (hc : SuspensionFits δ c r) :
    SuspensionFits ε c r := by
  cases hc with
  | term he => exact .term (he.mono h)
  | composed hf hx => exact .composed (h _ _ hf) (h _ _ hx)

theorem CellFits.mono {busy : Addr → Recipe → Prop} {a : Addr} {c : Cell} {r : Recipe}
    (hc : CellFits δ busy a c r) : CellFits ε busy a c r := by
  cases hc with
  | delayed hs => exact .delayed (hs.mono h)
  | running hs hb => exact .running (hs.mono h) hb
  | done ha hv => exact .done ha (hv.mono h)

end

theorem ValueFits.summary_eq {δ : World} {v : Value} {w : Form} (h : ValueFits δ v w) :
    v.summary = w.summary := by
  cases h with
  | text s => rfl
  | list hi => exact congrArg Summary.list hi.length_eq
  | dict he =>
    exact congrArg Summary.dict (Keyed.keys_eq he)
  | closure he => rfl
  | builtin hi => rfl

/-! ## New cells -/

/-- The world that also knows new cells from an address on. -/
def World.extend (δ : World) (base : Addr) (rs : List Recipe) : World := fun a =>
  if a < base then δ a else rs[a - base]?

theorem Describes.lt_next {δ : World} {busy : Addr → Recipe → Prop} {s : Store}
    (h : Describes δ busy s) {a : Addr} {r : Recipe} (ha : δ a = some r) : a < s.next := by
  obtain ⟨c, hc, -⟩ := h a r ha
  exact Store.lt_next_of_get? hc

theorem Describes.le_extend {δ : World} {busy : Addr → Recipe → Prop} {s : Store}
    (h : Describes δ busy s) (rs : List Recipe) : δ.Le (δ.extend s.next rs) := by
  intro a r ha
  rw [World.extend, if_pos (h.lt_next ha)]
  exact ha

theorem World.extend_add (δ : World) (base : Addr) (rs : List Recipe) (i : Nat) :
    δ.extend base rs (base + i) = rs[i]? := by
  rw [World.extend, if_neg (Nat.not_lt.mpr (Nat.le_add_right base i)), Nat.add_sub_cancel_left]

/-- New cells may refer to each other, so they are described all at once. -/
theorem Describes.append {δ : World} {busy : Addr → Recipe → Prop} {s : Store}
    (h : Describes δ busy s) {cs : List Suspension} {rs : List Recipe}
    (hfit : List.Forall₂ (SuspensionFits (δ.extend s.next rs)) cs rs) :
    Describes (δ.extend s.next rs) busy (s.append (cs.map .delayed)) := by
  intro a r ha
  rw [Store.get?_append]
  by_cases hlt : a < s.next
  · rw [World.extend, if_pos hlt] at ha
    rw [if_pos hlt]
    obtain ⟨c, hc, hcell⟩ := h a r ha
    exact ⟨c, hc, hcell.mono (h.le_extend rs)⟩
  · rw [World.extend, if_neg hlt] at ha
    rw [if_neg hlt]
    obtain ⟨hi, hr⟩ := List.getElem?_eq_some_iff.mp ha
    have hi' : a - s.next < cs.length := hfit.length_eq ▸ hi
    refine ⟨.delayed cs[a - s.next], by simp [hi'], .delayed ?_⟩
    have hget := hfit.get (i := a - s.next) hi' hi
    simpa [hr] using hget

end LazyConfig
