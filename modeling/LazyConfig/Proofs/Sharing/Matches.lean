import LazyConfig.Proofs.Sharing.Worlds
import Mathlib.Order.Filter.AtTopBot.Basic
set_option autoImplicit false

/-!
# Sharing: runs that match outcomes

A run over a store is compared with a family of outcomes without a store, one for each
allowance.  One relation serves four comparisons: with memory or without, and from the
run to the outcomes or back.  They differ in what is excused, and in which members of
the family count, which a filter says: from the run to the outcomes it is enough that
all large allowances give the outcome, and back a single allowance is looked at.
-/

namespace LazyConfig

open Filter

/-- A failure other than that of a computation that needs its own value. -/
def EvalError.isPlain : EvalError → Bool
  | .infiniteRecursion _ => false
  | _ => true

/-- What a comparison asks for. -/
structure Mode where
  /-- The allowances whose outcomes count. -/
  allowances : Filter Nat
  /-- The run may run out of its allowance. -/
  short : Prop
  /-- The run may find a computation that needs its own value. -/
  lenient : Prop
  /-- The outcomes may run out of their allowance. -/
  loose : Prop

variable {α β γ ε : Type} {m : Mode} {busy : Addr → Recipe → Prop} {δ : World}

/-- The comparison is off. -/
inductive Mode.Excuses (m : Mode) (outcome : Outcome α) (P : Nat → Outcome β) : Prop where
  | short (h : m.short) (ho : outcome = .exhausted)
  | lenient (h : m.lenient) (c : Suspension) (ho : outcome = .error (.infiniteRecursion c))
  | loose (h : m.loose) (ho : ∀ᶠ n in m.allowances, P n = .exhausted)

/-- The run ends as the outcomes say, up to what fits a later world, or is excused. -/
inductive Matches (m : Mode) (busy : Addr → Recipe → Prop) (δ : World)
    (Fits : World → α → β → Prop) (result : Result α) (P : Nat → Outcome β) : Prop where
  | excused (h : m.Excuses result.outcome P)
  | value {later : World} {a : α} {b : β} (ho : result.outcome = .value a)
      (hP : ∀ᶠ n in m.allowances, P n = .value b) (hle : δ.Le later)
      (hs : Describes later busy result.store) (hfits : Fits later a b)
  | error {e : EvalError} (he : e.isPlain = true) (ho : result.outcome = .error e)
      (hP : ∀ᶠ n in m.allowances, P n = .error e)

namespace Matches

variable {Fits : World → α → β → Prop} {Fits' : World → γ → ε → Prop}

theorem pure {tr : Bool} {s : Store} {a : α} {b : β} (hs : Describes δ busy s) (h : Fits δ a b) :
    Matches m busy δ Fits ((pure a : Run α) tr s) fun _ => .value b :=
  .value rfl (Eventually.of_forall fun _ => rfl) (World.Le.refl δ) hs h

theorem fail (tr : Bool) (s : Store) {e : EvalError} (he : e.isPlain = true) :
    Matches m busy δ Fits ((Run.fail e : Run α) tr s) fun _ => .error e :=
  .error he rfl (Eventually.of_forall fun _ => rfl)

/-- A match in a later world is one in an earlier world. -/
theorem of_le {later : World} (h : δ.Le later) {result : Result α} {P : Nat → Outcome β}
    (hm : Matches m busy later Fits result P) : Matches m busy δ Fits result P := by
  cases hm with
  | excused he => exact .excused he
  | value ho hP hle hs hfits => exact .value ho hP (h.trans hle) hs hfits
  | error he ho hP => exact .error he ho hP

theorem imp {Fits₂ : World → α → β → Prop} {result : Result α} {P : Nat → Outcome β}
    (hm : Matches m busy δ Fits result P) (h : ∀ w a b, Fits w a b → Fits₂ w a b) :
    Matches m busy δ Fits₂ result P := by
  cases hm with
  | excused he => exact .excused he
  | value ho hP hle hs hfits => exact .value ho hP hle hs (h _ _ _ hfits)
  | error he ho hP => exact .error he ho hP

/-- Runs in sequence match outcomes in sequence. -/
theorem bind {tr : Bool} {s : Store} {p : Run α} {k : α → Run γ} {P : Nat → Outcome β}
    {K : Nat → β → Outcome ε} (hp : Matches m busy δ Fits (p tr s) P)
    (hk : ∀ (later : World) (t : Store) (a : α) (b : β), δ.Le later → Describes later busy t →
      Fits later a b → Matches m busy later Fits' (k a tr t) fun n => K n b) :
    Matches m busy δ Fits' ((p >>= k) tr s) fun n => P n >>= K n := by
  rcases hr : p tr s with ⟨outcome, t, notes⟩
  rw [hr] at hp
  cases hp with
  | excused he =>
    cases he with
    | short h ho =>
      obtain rfl : outcome = .exhausted := ho
      exact .excused (.short h (by rw [Run.bind_of_exhausted hr]))
    | lenient h c ho =>
      obtain rfl : outcome = .error (.infiniteRecursion c) := ho
      exact .excused (.lenient h c (by rw [Run.bind_of_error hr]))
    | loose h ho =>
      refine .excused (.loose h (ho.mono fun n hn => ?_))
      rw [hn]
      rfl
  | @value later a b ho hP hle hs hfits =>
    obtain rfl : outcome = .value a := ho
    have hnext := hk later t a b hle hs hfits
    have hsame : ∀ {o : Outcome ε}, (∀ᶠ n in m.allowances, K n b = o) →
        ∀ᶠ n in m.allowances, (P n >>= K n) = o := by
      intro o h
      refine (hP.and h).mono fun n hn => ?_
      rw [hn.1]
      exact hn.2
    cases hnext with
    | excused he =>
      cases he with
      | short h ho => exact .excused (.short h (by rw [Run.bind_of_value hr]; exact ho))
      | lenient h c ho => exact .excused (.lenient h c (by rw [Run.bind_of_value hr]; exact ho))
      | loose h ho => exact .excused (.loose h (hsame ho))
    | value ho hK hle' hs' hfits' =>
      refine .value ?_ (hsame hK) (hle.trans hle') ?_ hfits'
      · rw [Run.bind_of_value hr]
        exact ho
      · rw [Run.bind_of_value hr]
        exact hs'
    | error he ho hK =>
      refine .error he ?_ (hsame hK)
      rw [Run.bind_of_value hr]
      exact ho
  | @error e he ho hP =>
    obtain rfl : outcome = .error e := ho
    refine .error he (by rw [Run.bind_of_error hr]) (hP.mono fun n hn => ?_)
    rw [hn]
    rfl

/-- What a run does first without an outcome beside it. -/
theorem after {tr : Bool} {s t : Store} {p : Run γ} {k : γ → Run α} {P : Nat → Outcome β} {c : γ}
    {notes : List EvalNote} (hr : p tr s = ⟨.value c, t, notes⟩)
    (h : Matches m busy δ Fits (k c tr t) P) : Matches m busy δ Fits ((p >>= k) tr s) P := by
  have ho : ((p >>= k) tr s).outcome = (k c tr t).outcome := by rw [Run.bind_of_value hr]
  have ht : ((p >>= k) tr s).store = (k c tr t).store := by rw [Run.bind_of_value hr]
  cases h with
  | excused he =>
    rw [← ho] at he
    exact .excused he
  | value hv hP hle hs hfits => exact .value (ho.trans hv) hP hle (ht ▸ hs) hfits
  | error he hv hP => exact .error he (ho.trans hv) hP

/-- Runs one after the other match outcomes one after the other, if each matches. -/
theorem forEach (In : World → α → β → Prop) (Out : World → γ → ε → Prop)
    (hin : ∀ (w w' : World) (a : α) (b : β), w.Le w' → In w a b → In w' a b)
    (hout : ∀ (w w' : World) (a : γ) (b : ε), w.Le w' → Out w a b → Out w' a b)
    {tr : Bool} {s : Store} {f : α → Run γ} {g : Nat → β → Outcome ε} {as : List α} {bs : List β}
    (hab : List.Forall₂ (In δ) as bs) (hs : Describes δ busy s)
    (h : ∀ (later : World) (t : Store) (a : α) (b : β), δ.Le later → Describes later busy t →
      In later a b → Matches m busy later Out (f a tr t) fun n => g n b) :
    Matches m busy δ (fun w => List.Forall₂ (Out w)) (Run.forEach f as tr s)
      fun n => Outcome.forEach (g n) bs := by
  induction as generalizing bs δ s with
  | nil =>
    cases hab
    exact Matches.pure hs .nil
  | cons a as ih =>
    obtain ⟨b, bs, hrel, hrest, rfl⟩ := List.forall₂_cons_left_iff.mp hab
    refine Matches.bind (h δ s a b (World.Le.refl δ) hs hrel) ?_
    intro later t y z hle ht hyz
    have hrest' : List.Forall₂ (In later) as bs := hrest.imp fun a b hab => hin _ _ a b hle hab
    refine Matches.bind (ih hrest' ht fun w u a b hw hu hab => h w u a b (hle.trans hw) hu hab) ?_
    intro last u ys zs hle' hu hys
    exact Matches.pure hu (.cons (hout _ _ y z hle' hyz) hys)

end Matches

end LazyConfig
