import LazyConfig.Proofs.Lockstep.Alike
set_option autoImplicit false

/-!
# Lockstep: runs over linked stores

Alike scripts have alike runs over linked stores, if forcing linked cells and doing alike
jobs end alike on the level below.  By induction on the levels this holds of every level.
-/

namespace LazyConfig

/-- Tasks over linked cells end alike. -/
def InLockstep (φ : Frame) (tr tr' : Bool) (self : Task → Run Value) : Prop :=
  ∀ (β : Link) (s s' : Store) (task task' : Task), Linked β φ s s' → TaskAlike β task task' →
    Alike β φ ValueAlike (self task tr s) (self task' tr' s')

/-- What is done on a level ends alike over linked stores. -/
structure LevelAlike (φ : Frame) (tr tr' : Bool) (n : Nat) : Prop where
  /-- Forcing linked cells ends alike. -/
  force : ∀ (β : Link) (s s' : Store) (a c : Addr), Linked β φ s s' → β a c →
    Alike β φ ValueAlike (perform n (.force a) tr s) (perform n (.force c) tr' s')
  /-- Alike jobs end alike. -/
  work : ∀ (β : Link) (s s' : Store) (κ : Kind) (j j' : Job κ), Linked β φ s s' →
    JobAlike β j j' → Alike β φ κ.Fits (j.run n tr s) (j'.run n tr' s')

section

variable {φ : Frame} {tr tr' : Bool} {n : Nat}

/-- Scripts that are alike have runs that end alike. -/
theorem ScriptAlike.run {α α' : Type} {Fits : Link → α → α' → Prop} {β : Link} {p : Script α}
    {p' : Script α'} (hp : ScriptAlike Fits β p p') (hlevel : LevelAlike φ tr tr' n)
    {s s' : Store} (hs : Linked β φ s s') : Alike β φ Fits (p.run n tr s) (p'.run n tr' s') := by
  induction hp generalizing s s' with
  | done h => exact Alike.pure hs h
  | fail e => exact Alike.fail hs (.same e)
  | note x _ ih => exact Alike.after rfl rfl (ih hs)
  | grow count hcs _ ih =>
    exact Alike.grow_bind hs (hcs _ s'.next).2 (hcs _ _).1 fun t t' ht => ih _ _ ht
  | store hv _ ih => exact Alike.allocate_bind hs (.done hv) fun t t' ht => ih _ _ ht
  | force ha _ ih =>
    exact Alike.bind (hlevel.force _ _ _ _ _ hs ha) fun γ t t' v w hle ht hvw => ih γ v w hle hvw ht
  | work hj _ ih =>
    exact Alike.bind (hlevel.work _ _ _ _ _ _ hs hj) fun γ t t' x y hle ht hxy =>
      ih γ x y hle hxy ht

theorem alike_force (hlevel : LevelAlike φ tr tr' n) {β : Link} {s s' : Store} {a c : Addr}
    (hs : Linked β φ s s') (hac : β a c) :
    Alike β φ ValueAlike (perform (n + 1) (.force a) tr s) (perform (n + 1) (.force c) tr' s') := by
  obtain ⟨d, d', hd, hd', hcell⟩ := hs.cells a c hac
  refine Alike.after (peek_apply hd) (peek_apply hd') ?_
  cases hcell with
  | done hv => exact Alike.pure hs hv
  | running hc => exact Alike.fail hs (.recursion hc)
  | delayed hc =>
    refine Alike.occupy hac hc ?_
    rw [← Script.run_resume, ← Script.run_resume]
    exact (ScriptAlike.resume hc).run hlevel (hs.set hac (.running hc))

end

theorem levelAlike (φ : Frame) (tr tr' : Bool) (n : Nat) : LevelAlike φ tr tr' n := by
  induction n with
  | zero =>
    refine ⟨fun β s s' a c hs _ => Alike.exhausted hs, fun β s s' κ j j' hs _ => ?_⟩
    rw [Job.run_zero, Job.run_zero]
    exact Alike.exhausted hs
  | succ n ih =>
    refine ⟨fun β s s' a c hs hac => alike_force ih hs hac, fun β s s' κ j j' hs hj => ?_⟩
    rw [Job.run_succ, Job.run_succ]
    exact hj.script.run ih hs

/-- Tasks over linked cells end alike, whatever the allowance is. -/
theorem perform_alike (φ : Frame) (tr tr' : Bool) (n : Nat) : InLockstep φ tr tr' (perform n) := by
  intro β s s' task task' hs htask
  have hlevel := levelAlike φ tr tr' n
  cases htask with
  | eval he => exact hlevel.work β s s' .value _ _ hs (.eval he)
  | apply hv ha => exact hlevel.work β s s' .value _ _ hs (.apply hv ha)
  | force ha => exact hlevel.force β s s' _ _ hs ha

/-- Values over linked cells have the same data. -/
theorem deepen_alike {φ : Frame} {tr tr' : Bool} (n : Nat) {β : Link} {s s' : Store} {v w : Value}
    (hs : Linked β φ s s') (hvw : ValueAlike β v w) :
    Alike β φ (fun _ => Eq) (deepen n v tr s) (deepen n w tr' s') :=
  (levelAlike φ tr tr' n).work β s s' .data _ _ hs (.deepen hvw)

end LazyConfig
