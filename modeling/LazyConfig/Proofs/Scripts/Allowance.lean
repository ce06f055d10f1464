import LazyConfig.Proofs.Scripts.Steps
set_option autoImplicit false

/-!
# Scripts: larger allowances

A run that ends within its allowance of nested levels ends the same way with a larger one:
with the same outcome, the same store and the same notes.
-/

namespace LazyConfig

/-- The second run is the first one, unless the first used up its allowance. -/
def Run.Le {α : Type} (p q : Run α) : Prop :=
  ∀ (tr : Bool) (s : Store), (p tr s).outcome = .exhausted ∨ p tr s = q tr s

namespace Run.Le

variable {α β : Type} {p q : Run α}

theorem refl (p : Run α) : p.Le p := fun _ _ => Or.inr rfl

theorem exhausted (q : Run α) : Run.exhausted.Le q := fun _ _ => Or.inl rfl

theorem bind {k l : α → Run β} (h : p.Le q) (hk : ∀ a, (k a).Le (l a)) :
    (p >>= k).Le (q >>= l) := by
  intro tr s
  rcases hp : p tr s with ⟨outcome, t, notes⟩
  rcases h tr s with hout | heq
  · obtain rfl : outcome = .exhausted := by rw [← hout, hp]
    exact Or.inl (by rw [bind_of_exhausted hp])
  · have hq : q tr s = ⟨outcome, t, notes⟩ := heq ▸ hp
    cases outcome with
    | value a =>
      rw [bind_of_value hp, bind_of_value hq]
      exact (hk a tr t).imp id fun heq => by rw [heq]
    | error e =>
      rw [bind_of_error hp, bind_of_error hq]
      exact Or.inr rfl
    | exhausted =>
      rw [bind_of_exhausted hp]
      exact Or.inl rfl

theorem occupy {p q : Run Value} (h : p.Le q) (a : Addr) (c : Suspension) :
    (Run.occupy a c p).Le (Run.occupy a c q) := by
  intro tr s
  rw [occupy_apply, occupy_apply]
  exact (h tr (s.set a (.running c))).imp id fun heq => by rw [heq]

end Run.Le

theorem Script.run_le {α : Type} {n m : Nat}
    (hforce : ∀ a, (perform n (.force a)).Le (perform m (.force a)))
    (hwork : ∀ {κ : Kind} (j : Job κ), (j.run n).Le (j.run m)) (p : Script α) :
    (p.run n).Le (p.run m) := by
  induction p with
  | done a => exact .refl _
  | fail e => exact .refl _
  | note x p ih => exact .bind (.refl _) fun _ => ih
  | grow cs next ih => exact .bind (.refl _) ih
  | store v next ih => exact .bind (.refl _) ih
  | force a next ih => exact .bind (hforce a) ih
  | work j next ih => exact .bind (hwork j) ih

theorem forceCell_le {n m : Nat} (h : ∀ c, ((Script.resume c).run n).Le ((Script.resume c).run m))
    (a : Addr) : (perform (n + 1) (.force a)).Le (perform (m + 1) (.force a)) := by
  refine Run.Le.bind (.refl (Run.peek a)) fun c => ?_
  cases c with
  | done v => exact .refl _
  | running c => exact .refl _
  | delayed c =>
    refine Run.Le.occupy ?_ a c
    rw [← Script.run_resume, ← Script.run_resume]
    exact h c

theorem levels_le_succ (n : Nat) :
    (∀ a, (perform n (.force a)).Le (perform (n + 1) (.force a))) ∧
      ∀ {κ : Kind} (j : Job κ), (j.run n).Le (j.run (n + 1)) := by
  induction n with
  | zero =>
    refine ⟨fun a => .exhausted _, fun j => ?_⟩
    rw [Job.run_zero]
    exact .exhausted _
  | succ n ih =>
    refine ⟨forceCell_le fun c => Script.run_le ih.1 ih.2 _, fun j => ?_⟩
    rw [Job.run_succ, Job.run_succ]
    exact Script.run_le ih.1 ih.2 _

/-- A run of a script that does not use up its allowance is the same with a larger one. -/
theorem Script.run_eq_of_le {α : Type} {n m : Nat} (hnm : n ≤ m) (p : Script α) {tr : Bool}
    {s : Store} (h : (p.run n tr s).outcome ≠ .exhausted) : p.run m tr s = p.run n tr s := by
  induction hnm with
  | refl => rfl
  | @step k _ ih =>
    rw [← ih]
    rcases Script.run_le (levels_le_succ k).1 (levels_le_succ k).2 p tr s with hout | heq
    · rw [ih] at hout
      exact absurd hout h
    · exact heq.symm

end LazyConfig
