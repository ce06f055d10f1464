import LazyConfig.Proofs.Order.Retracing
set_option autoImplicit false

/-!
# Order: retracing a run without a value

What breaks off in the history breaks off here.  The computations that are inside each other
there are inside each other here, over cells that stand for theirs; what is done before them
is retraced; and the innermost one fails here with the same failure, needs a cell that is
being computed here too, or has no level left here either.
-/

namespace LazyConfig

/-- A script that comes to an end has that end within every allowance that suffices. -/
theorem Script.Comes.ends {α : Type} {p : Script α} {tr : Bool} {s t : Store} {o : Outcome α}
    (h : p.Comes tr s o t) {n : Nat} (hn : (p.run n tr s).outcome ≠ .exhausted) :
    (p.run n).Ends tr s o t := by
  obtain ⟨k, hk⟩ := h
  have hends := hk (max k n) (Nat.le_max_left k n)
  rwa [Run.Ends, p.run_eq_of_le (Nat.le_max_right k n) hn] at hends

/-- A script here ends without a value like one of the history.  A failure is the same for
every allowance that is large enough.  An allowance that does not suffice there does not
suffice here. -/
def Halt.Meets {α : Type} (halt : Halt) (n : Nat) (p : Script α) (tr : Bool) (s : Store) : Prop :=
  match halt with
  | .failed e' => ∃ γ e, ErrorAlike γ e e' ∧ ∃ k, ∀ m, k ≤ m → (p.run m tr s).outcome = .error e
  | .short => (p.run n tr s).outcome = .exhausted

namespace Halt.Meets

variable {α β : Type} {halt : Halt} {n : Nat} {p : Script α} {f : α → Script β} {tr : Bool}
  {s t : Store}

/-- What is done first comes to a value, and what follows ends without one. -/
theorem after {a : α} (hp : p.Comes tr s (.value a) t) (h : halt.Meets n (f a) tr t) :
    halt.Meets n (p >>= f) tr s := by
  cases halt with
  | failed e' =>
    obtain ⟨k, hk⟩ := hp
    obtain ⟨γ, e, hee, l, hl⟩ := h
    refine ⟨γ, e, hee, max k l, fun m hm => ?_⟩
    rw [Script.run_bind]
    have hfirst := hk m (Nat.le_trans (Nat.le_max_left k l) hm)
    exact (hfirst.bind ⟨hl m (Nat.le_trans (Nat.le_max_right k l) hm), rfl⟩).1
  | short =>
    show ((p >>= f).run n tr s).outcome = .exhausted
    rw [Script.run_bind]
    by_cases hn : (p.run n tr s).outcome = .exhausted
    · exact (Run.Ends.bind_of_stops ⟨hn, rfl⟩ .exhausted).1
    · have hlater : ((f a).run n tr t).outcome = .exhausted := h
      exact ((hp.ends hn).bind ⟨hlater, rfl⟩).1

/-- What is done first ends without a value. -/
theorem bind (h : halt.Meets n p tr s) : halt.Meets n (p >>= f) tr s := by
  cases halt with
  | failed e' =>
    obtain ⟨γ, e, hee, k, hk⟩ := h
    refine ⟨γ, e, hee, k, fun m hm => ?_⟩
    rw [Script.run_bind]
    exact (Run.Ends.bind_of_stops ⟨hk m hm, rfl⟩ (.error e)).1
  | short =>
    show ((p >>= f).run n tr s).outcome = .exhausted
    rw [Script.run_bind]
    exact (Run.Ends.bind_of_stops ⟨h, rfl⟩ .exhausted).1

/-- Another script ends as this one does with so many levels less. -/
theorem shift {q : Script α} {u : Store} (levels : Nat)
    (hq : ∀ m, (q.run (m + levels) tr u).outcome = (p.run m tr s).outcome)
    (h : halt.Meets n p tr s) : halt.Meets (n + levels) q tr u := by
  cases halt with
  | failed e' =>
    obtain ⟨γ, e, hee, k, hk⟩ := h
    refine ⟨γ, e, hee, k + levels, fun m hm => ?_⟩
    obtain ⟨m, rfl⟩ : ∃ l, m = l + levels := ⟨m - levels, by omega⟩
    rw [hq]
    exact hk m (Nat.le_of_add_le_add_right hm)
  | short => exact (hq n).trans h

theorem note (h : halt.Meets n p tr s) (x : EvalNote) : halt.Meets n (.note x p) tr s := by
  refine h.shift 0 fun m => ?_
  have hnote : (Run.note x).Ends tr s (.value ()) s := ⟨rfl, rfl⟩
  exact (hnote.bind ⟨rfl, rfl⟩).1

/-- A job ends without a value if its script does. -/
theorem inWork {κ : Kind} {j : Job κ} (h : halt.Meets n j.script tr s) :
    halt.Meets (n + 1) (Script.job j) tr s := by
  refine h.shift 1 fun m => ?_
  rw [Script.run_job, Job.run_succ]

/-- A delayed cell ends without a value if its computation does. -/
theorem inForce {a : Addr} {c : Suspension} (ha : s.get? a = some (.delayed c))
    (h : halt.Meets n (Script.resume c) tr (s.set a (.running c))) :
    halt.Meets (n + 1) (Script.cell a) tr s := by
  refine h.shift 1 fun m => ?_
  rw [Script.run_cell, Script.run_resume]
  exact (Run.Ends.force ha ⟨rfl, rfl⟩).1

/-- A cell that is being computed cannot be forced. -/
theorem recursion {β : Link} {a : Addr} {c d : Suspension} (ha : s.get? a = some (.running c))
    (hcd : SuspensionAlike β c d) :
    (Halt.failed (.infiniteRecursion d)).Meets n (Script.cell a) tr s := by
  refine ⟨β, .infiniteRecursion c, .recursion hcd, 1, fun m hm => ?_⟩
  obtain ⟨m, rfl⟩ : ∃ l, m = l + 1 := ⟨m - 1, by omega⟩
  have hforce : perform (m + 1) (.force a) tr s = ⟨.error (.infiniteRecursion c), s, []⟩ :=
    Run.bind_of_value (peek_apply ha) _
  rw [Script.run_cell, hforce]

theorem shortForce (a : Addr) (tr : Bool) (s : Store) : short.Meets 0 (Script.cell a) tr s := by
  show ((Script.cell a).run 0 tr s).outcome = .exhausted
  rw [Script.run_cell]
  rfl

theorem shortWork {κ : Kind} (j : Job κ) (tr : Bool) (s : Store) :
    short.Meets 0 (Script.job j) tr s := by
  show ((Script.job j).run 0 tr s).outcome = .exhausted
  rw [Script.run_job, Job.run_zero]
  rfl

end Halt.Meets

/-- Cells that are ahead stay ahead when one more cell is being computed. -/
theorem Ahead.cons {H : History} {β : Link} {busy own : List Addr} (h : Ahead H β busy own)
    {b : Addr} : Ahead H β (b :: busy) own where
  nodup := h.nodup
  unlinked := h.unlinked
  owner := fun x hx e he hxe => List.mem_cons_of_mem b (h.owner x hx e he hxe)

section

variable {H : History} {tr : Bool} {β : Link} {busy : List Addr} {s : Store} {a b : Addr} {n : Nat}

/-- A cell without a value in the history has none here. -/
theorem Retraces.delayed (hs : Retraces H β busy s) (hab : β a b) {c : Suspension}
    (hc : H.origin b = some (.suspended c)) (hlog : ∀ e ∈ H.log, e.cell ≠ b) (hidle : b ∉ busy) :
    ∃ c', s.get? a = some (.delayed c') ∧ SuspensionAlike β c' c := by
  obtain ⟨cell, ha, hcell⟩ := hs.cells a b hab
  cases hcell with
  | @delayed c' d hd hcd _ =>
    obtain rfl : c = d := Origin.suspended.inj (Option.some.inj (hc.symm.trans hd))
    exact ⟨c', ha, hcd⟩
  | running _ _ hmem => exact absurd hmem hidle
  | done hw _ _ =>
    cases hw with
    | ready hready => exact nomatch hc.symm.trans hready
    | computed e he hcell _ => exact absurd hcell (hlog e he)

/-- The cells of the history that are linked exist there. -/
theorem Retraces.origin_ne_none (hs : Retraces H β busy s) (hvalid : ValidLog H.origin H.log)
    (hab : β a b) : H.origin b ≠ none := by
  obtain ⟨cell, -, hcell⟩ := hs.cells a b hab
  intro hnone
  cases hcell with
  | delayed hd _ _ => exact nomatch hnone.symm.trans hd
  | running hd _ _ => exact nomatch hnone.symm.trans hd
  | done hw _ _ =>
    cases hw with
    | ready hready => exact nomatch hnone.symm.trans hready
    | computed e he hcell _ =>
      subst hcell
      obtain ⟨c, hc⟩ := hvalid.suspended he
      exact nomatch hnone.symm.trans hc

/-- A script that gives no value in the history gives none here. -/
theorem Breaks.retrace (hvalid : ValidLog H.origin H.log) {α α' : Type}
    {Fits : Link → α → α' → Prop} {p : Script α} {p' : Script α'} {halt : Halt} {own : List Addr}
    (hbreaks : Breaks H n busy p' halt own) (hp : ScriptAlike Fits β p p')
    (hs : Retraces H β busy s) (hbusy : ∀ b ∈ busy, ∀ e ∈ H.log, e.cell ≠ b)
    (hahead : Ahead H β busy own) : halt.Meets n p tr s := by
  have hlog : H.log <:+ H.log := List.suffix_refl _
  have hall : ∀ e ∈ H.log, e ∈ H.log := fun _ he => he
  induction hbreaks generalizing α β s with
  | fail e =>
    cases hp with
    | fail => exact ⟨β, e, .same e, 0, fun _ _ => rfl⟩
  | note _ ih =>
    cases hp with
    | note _ h => exact (ih h hs hbusy hahead).note _
  | @grow _ n busy cs' next' halt base own hcs _ ih =>
    cases hp with
    | @grow _ cs _ next _ count hboth hnext =>
      obtain ⟨halike, hcount⟩ := hboth s.next base
      have hfirst := Retraced.grow hs H.log hcount hcs halike hahead.left
      exact .after (.grown cs tr s) (ih (hnext s.next base) hfirst.retraces hbusy
        (hahead.right hall hbusy hfirst))
  | @store _ n busy w' next' halt base own hv _ ih =>
    cases hp with
    | @store _ v _ next _ hvw hnext =>
      have hahead' : Ahead H β busy ([base] ++ own) := hahead
      have hfirst := Retraced.store hs H.log hv hvw hahead'.left
      exact .after (.stored v tr s) (ih (hnext s.next base) hfirst.retraces hbusy
        (hahead'.right hall hbusy hfirst))
  | @force _ n busy b w' next' halt own hb _ ih =>
    cases hp with
    | @force _ a _ next _ hab hnext =>
      obtain ⟨γ, y, t, hcomes, hfits, hfirst⟩ :=
        hb.retrace hvalid hlog (fun rest _ hrest => hvalid.retraceable tr hrest) hab hs hbusy
      have hahead' : Ahead H β busy ([] ++ own) := hahead
      exact .after hcomes (ih (hnext γ y w' hfirst.le hfits) hfirst.retraces hbusy
        (hahead'.right hall hbusy hfirst))
  | @work _ n busy κ j' x next' halt made own hj _ ih =>
    cases hp with
    | @work _ _ j _ next _ halike hnext =>
      obtain ⟨γ, y, t, hcomes, hfits, hfirst⟩ :=
        hvalid.retraceable tr hlog hj halike.script hs hbusy hahead.left
      exact .after hcomes.job (ih (hnext γ y x hfirst.le hfits) hfirst.retraces hbusy
        (hahead.right hall hbusy hfirst))
  | @inForce _ n busy b c next' halt own hc hnone hidle _ ih =>
    cases hp with
    | @force _ a _ next _ hab hnext =>
      obtain ⟨c', ha, hcd⟩ := hs.delayed hab hc hnone hidle
      have hbusy' : ∀ x ∈ b :: busy, ∀ e ∈ H.log, e.cell ≠ x := by
        intro x hx
        rcases List.mem_cons.mp hx with rfl | hx
        · exact hnone
        · exact hbusy x hx
      exact .bind (.inForce ha (ih (.resume hcd) (hs.occupy hab ha) hbusy' hahead.cons))
  | @inWork _ n busy κ j' next' halt own _ ih =>
    cases hp with
    | @work _ _ j _ next _ halike hnext =>
      exact .bind (.inWork (ih halike.script hs hbusy hahead))
  | @recursion _ n busy b c next' hc hmem =>
    cases hp with
    | @force _ a _ next _ hab hnext =>
      obtain ⟨c', d, ha, hd, hcd⟩ := hs.running hab hmem
      obtain rfl : c = d := Origin.suspended.inj (Option.some.inj (hc.symm.trans hd))
      exact .bind (.recursion ha hcd)
  | @dangling _ n busy b next' hnone =>
    cases hp with
    | force hab hnext => exact absurd hnone (hs.origin_ne_none hvalid hab)
  | @shortForce _ busy b next' =>
    cases hp with
    | @force _ a _ next _ hab hnext => exact .bind (.shortForce a tr s)
  | @shortWork _ busy κ j' next' =>
    cases hp with
    | @work _ _ j _ next _ halike hnext => exact .bind (.shortWork j tr s)

end

end LazyConfig
