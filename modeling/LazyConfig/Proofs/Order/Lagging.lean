import LazyConfig.Proofs.Order.Stopping
import LazyConfig.Proofs.Lockstep.Sessions
set_option autoImplicit false

/-!
# Order: stores that lag behind

One store lags behind another if it retraces a history of the other one.  A closed store in
which nothing is going on lags behind itself, and behind every later state.  Alike scripts
over both end alike: where the script ends without a value over the store that is ahead, so
it does over the store that lags behind; where it gives a value there, it comes to an alike
value here, and the store here lags behind still.
-/

namespace LazyConfig

/-- The first store lags behind the second one, whose history is given. -/
structure Lags (H : History) (β : Link) (s t : Store) : Prop where
  /-- The history is that of the second store. -/
  recorded : Recorded H t
  /-- No computation is going on. -/
  idle : t.Busy []
  /-- The first store retraces it. -/
  retraces : Retraces H β [] s
  /-- Its cells stand for cells of the second store. -/
  reached : ∀ a x, β a x → x < t.next

/-- What the cells of a store without a past were made for. -/
def Store.history (s : Store) : History where
  origin := fun a =>
    match s.get? a with
    | some (.delayed c) => some (.suspended c)
    | some (.running c) => some (.suspended c)
    | some (.done v) => some (.ready v)
    | none => none
  log := []

section

variable {s t u : Store} {H K : History} {β : Link} {own : List Addr}

theorem Store.origin_history {a : Addr} {c : Cell} (hc : s.get? a = some c) :
    s.history.Tells a c ∧ ∃ o, s.history.origin a = some o := by
  have hlog : ∀ e ∈ s.history.log, e.cell ≠ a := fun e he => absurd he List.not_mem_nil
  cases c with
  | delayed c =>
    have ho : s.history.origin a = some (.suspended c) := by simp only [Store.history, hc]
    exact ⟨.delayed ho hlog, _, ho⟩
  | running c =>
    have ho : s.history.origin a = some (.suspended c) := by simp only [Store.history, hc]
    exact ⟨.running ho hlog, _, ho⟩
  | done v =>
    have ho : s.history.origin a = some (.ready v) := by simp only [Store.history, hc]
    exact ⟨.done (.ready ho), _, ho⟩

theorem Store.recorded_history (s : Store) : Recorded s.history s where
  cells := fun a c hc => (origin_history hc).1
  bounded := by
    intro a o ho
    cases hc : s.get? a with
    | none =>
      simp only [history, hc] at ho
      exact nomatch ho
    | some c => exact lt_next_of_get? hc
  made := fun e he => absurd he List.not_mem_nil
  valid := .nil

/-- A cell of a closed store in which nothing is going on stands for itself. -/
theorem Store.Closed.retracesCell (hs : s.Closed) (hidle : s.Busy []) {a : Addr} {c : Cell}
    (hc : s.get? a = some c) : RetracesCell s.history s.self [] a c := by
  have halike := hs a c hc
  cases (s.recorded_history).cells a c hc with
  | delayed ho _ =>
    cases halike with
    | delayed hd => exact .delayed ho hd List.not_mem_nil
  | running _ _ => exact absurd ((hidle a).mpr ⟨_, hc⟩) List.not_mem_nil
  | done hv =>
    cases halike with
    | done hd => exact .done hv hd List.not_mem_nil

/-- A store lags behind itself. -/
theorem Store.Closed.lags (hs : s.Closed) (hidle : s.Busy []) : Lags s.history s.self s s where
  recorded := s.recorded_history
  idle := hidle
  retraces := by
    refine ⟨?_, hs.linked.forth, hs.linked.back, fun b hb => absurd hb List.not_mem_nil,
      fun e he => absurd he List.not_mem_nil⟩
    rintro a _ ⟨rfl, ha⟩
    obtain ⟨c, hc⟩ := Store.exists_get? ha
    exact ⟨c, hc, hs.retracesCell hidle hc⟩
  reached := by
    rintro a _ ⟨rfl, ha⟩
    exact ha

theorem RetracesCell.onward (hle : H.Le K) {busy : List Addr} {b : Addr} {c : Cell}
    (h : RetracesCell H β busy b c) : RetracesCell K β busy b c := by
  cases h with
  | delayed hd hc hb => exact .delayed (hle.origin b _ hd) hc hb
  | running hd hc hb => exact .running (hle.origin b _ hd) hc hb
  | done hw hv hb => exact .done (hw.mono hle) hv hb

namespace Lags

/-- What lags behind a store lags behind its later states. -/
theorem onward (h : Lags H β s t) (hg : Grows H t own K u) : Lags K β s u where
  recorded := hg.recorded
  idle := h.idle.keeps hg.keeps
  retraces := by
    refine ⟨fun a b hab => ?_, h.retraces.forth, h.retraces.back, h.retraces.busy,
      fun e he x hx a hax => ?_⟩
    · obtain ⟨c, hc, hcell⟩ := h.retraces.cells a b hab
      exact ⟨c, hc, hcell.onward hg.le⟩
    · -- A later entry has cells that are newer than all that are linked.
      rcases hg.recent e he with hold | hnew
      · exact h.retraces.begun e hold x hx a hax
      · exact absurd (h.reached a x hax) (Nat.not_lt.mpr (hnew x hx))
  reached := fun a x hax => Nat.lt_of_lt_of_le (h.reached a x hax) hg.keeps.next_le

/-- The cells that are new ahead are not yet made behind. -/
theorem ahead (h : Lags H β s t) (hg : Grows H t own K u) : Ahead K β [] own where
  nodup := hg.nodup
  unlinked := fun x hx a hax =>
    Nat.lt_irrefl x (Nat.lt_of_lt_of_le (h.reached a x hax) (hg.new x hx).1)
  owner := fun x hx e he hmem => absurd hmem (hg.apart x hx e he)

/-- How a script ends behind, if it ends so ahead. -/
inductive Ends {α α' : Type} (β : Link) (n : Nat) (Fits : Link → α → α' → Prop) (p : Script α)
    (tr : Bool) (s u : Store) : Outcome α' → Prop where
  | value {K : History} {γ : Link} {v : α} {w : α'} {s' : Store} (hle : β.Le γ)
      (hp : p.Comes tr s (.value v) s') (hfits : Fits γ v w) (hlags : Lags K γ s' u) :
      Ends β n Fits p tr s u (.value w)
  | error {e' : EvalError} (h : (Halt.failed e').Meets n p tr s) :
      Ends β n Fits p tr s u (.error e')
  | exhausted (h : Halt.short.Meets n p tr s) : Ends β n Fits p tr s u .exhausted

/-- Alike scripts over two stores, one of which lags behind the other. -/
theorem run (h : Lags H β s t) {α α' : Type} {Fits : Link → α → α' → Prop} {p : Script α}
    {p' : Script α'} (hp : ScriptAlike Fits β p p') (n : Nat) (tr : Bool) :
    Ends β n Fits p tr s (p'.run n tr t).store (p'.run n tr t).outcome := by
  obtain ⟨K, own, hg, haccount⟩ := Script.hasAccount n p' H t [] tr h.recorded h.idle
  have hvalid : ValidLog K.origin K.log := hg.recorded.valid
  have hlater := h.onward hg
  have hbusy : ∀ b ∈ ([] : List Addr), ∀ e ∈ K.log, e.cell ≠ b := fun b hb =>
    absurd hb List.not_mem_nil
  cases ho : (p'.run n tr t).outcome with
  | value w =>
    rw [ho] at haccount
    obtain ⟨γ, v, s', hcomes, hfits, hr⟩ := hvalid.retraceable tr (List.suffix_refl _) haccount hp
      hlater.retraces hbusy (h.ahead hg)
    refine .value hr.le hcomes hfits ⟨hg.recorded, hlater.idle, hr.retraces, fun a x hax => ?_⟩
    rcases hr.reached a x hax with ⟨a', hold⟩ | hown | ⟨e, he, hx⟩
    · exact hlater.reached a' x hold
    · exact (hg.new x hown).2
    · exact hg.recorded.made e he x hx
  | error e' =>
    rw [ho] at haccount
    exact .error (haccount.retrace hvalid hp hlater.retraces hbusy (h.ahead hg))
  | exhausted =>
    rw [ho] at haccount
    exact .exhausted (haccount.retrace hvalid hp hlater.retraces hbusy (h.ahead hg))

end Lags

end

end LazyConfig
