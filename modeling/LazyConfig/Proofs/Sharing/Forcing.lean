import LazyConfig.Proofs.Sharing.Steps
set_option autoImplicit false

/-!
# Sharing: forcing cells

The two evaluators differ in what they do with a cell, so forcing is compared for each
of them, in both directions.  From a run to the answers of recipes is an induction on
the levels of the run.  Back it is one on the allowance of the answers, and there the
cells with a computation going on matter: their recipes have no answer within the
allowance, so a demand that has one never meets them.  To keep this true a cell is
occupied with the least allowance that answers its recipe.
-/

namespace LazyConfig

open Filter

/-! ## The comparisons -/

namespace Mode

/-- From a run to the answers under all large allowances. -/
def onward (lenient : Prop) : Mode := ⟨atTop, True, lenient, False⟩

/-- From the answer under an allowance to a run with so many levels. -/
def back (levels allowance : Nat) : Mode := ⟨pure allowance, levels < allowance, False, True⟩

end Mode

section

variable {α β : Type} {m m' : Mode} {busy : Addr → Recipe → Prop} {δ : World}
  {Fits : World → α → β → Prop} {result : Result α} {P Q : Nat → Outcome β}

/-- A comparison is one in another mode that excuses as much. -/
theorem Matches.of_mode (h : Matches m busy δ Fits result P)
    (hP : ∀ o, (∀ᶠ n in m.allowances, P n = o) → ∀ᶠ n in m'.allowances, Q n = o)
    (hshort : m.short → m'.short) (hlenient : m.lenient → m'.lenient)
    (hloose : m.loose → m'.loose) : Matches m' busy δ Fits result Q := by
  cases h with
  | excused he =>
    cases he with
    | short h ho => exact .excused (.short (hshort h) ho)
    | lenient h c ho => exact .excused (.lenient (hlenient h) c ho)
    | loose h ho => exact .excused (.loose (hloose h) (hP _ ho))
  | value ho hv hle hs hfits => exact .value ho (hP _ hv) hle hs hfits
  | error he ho hv => exact .error he ho (hP _ hv)

theorem Matches.onward_succ {lenient : Prop}
    (h : Matches (.onward lenient) busy δ Fits result fun n => P (n + 1)) :
    Matches (.onward lenient) busy δ Fits result P := by
  refine h.of_mode (fun o ho => ?_) id id id
  obtain ⟨n, hn⟩ := eventually_atTop.mp ho
  refine eventually_atTop.mpr ⟨n + 1, fun i hi => ?_⟩
  have hpred := hn (i - 1) (by omega)
  rwa [Nat.sub_add_cancel (by omega)] at hpred

theorem Matches.back_succ {k n : Nat}
    (h : Matches (.back k n) busy δ Fits result fun i => P (i + 1)) :
    Matches (.back (k + 1) (n + 1)) busy δ Fits result P := by
  refine h.of_mode (fun o ho => ?_) Nat.succ_lt_succ id id
  exact eventually_pure.mpr (eventually_pure.mp ho)

end

/-! ## Occupied cells -/

section

variable {m : Mode} {busy busy' : Addr → Recipe → Prop} {δ : World} {tr : Bool} {s : Store}
  {a : Addr} {r : Recipe} {c : Suspension}

/-- A store with another cell at an address, if the cell fits. -/
theorem Describes.set {cell : Cell} (hs : Describes δ busy s) (ha : δ a = some r)
    (hcell : CellFits δ busy' a cell r) (hbusy : ∀ b u, b ≠ a → busy b u → busy' b u) :
    Describes δ busy' (s.set a cell) := by
  intro b u hb
  obtain ⟨d, hd, hfit⟩ := hs b u hb
  by_cases hab : a = b
  · subst hab
    obtain rfl : r = u := Option.some.inj (ha.symm.trans hb)
    refine ⟨cell, ?_, hcell⟩
    rw [Store.get?_set, if_pos rfl, if_pos (hs.lt_next ha)]
  · refine ⟨d, ?_, ?_⟩
    · rw [Store.get?_set, if_neg hab]
      exact hd
    · cases hfit with
      | delayed h => exact .delayed h
      | running h hb => exact .running h (hbusy b u (Ne.symm hab) hb)
      | done h hv => exact .done h hv

/-- A cell is computed while it is occupied, and then holds its value. -/
theorem Matches.occupy {p : Run Value} {P : Nat → Outcome Form} (ha : δ a = some r)
    (hp : Matches m busy' δ ValueFits (p tr (s.set a (.running c))) P)
    (hanswer : ∀ w, (∀ᶠ n in m.allowances, P n = .value w) → Answers (.force r) w)
    (hbusy : ∀ b u, b ≠ a → busy' b u → busy b u) :
    Matches m busy δ ValueFits (Run.occupy a c p tr s) P := by
  rw [occupy_apply]
  cases hp with
  | excused he => exact .excused he
  | value ho hP hle ht hvw =>
    refine .value ho hP hle ?_ hvw
    simp only [ho]
    exact ht.set (hle a r ha) (.done (hanswer _ hP) hvw) hbusy
  | error he ho hP => exact .error he ho hP

end

/-! ## From runs to answers -/

section

variable {lenient : Prop} {busy : Addr → Recipe → Prop} {δ : World} {tr : Bool} {s : Store}
  {self : Task → Run Value} {a : Addr} {r : Recipe}

/-- The answer of a recipe under all large allowances. -/
theorem Answers.eventually {demand : Demand} {w : Form} (h : Answers demand w) :
    ∀ᶠ n in atTop, answerWithin n demand = .value w := by
  obtain ⟨n, hn⟩ := h
  refine eventually_atTop.mpr ⟨n, fun i hi => ?_⟩
  rw [answerWithin_eq_of_le hi (by rw [hn]; nofun), hn]

theorem perform_onward (k : Nat) :
    Simulates (.onward True) (fun _ _ => True) (perform k) answerWithin := by
  induction k with
  | zero => exact fun δ s tr task demand hs ht => .excused (.short trivial rfl)
  | succ k ih =>
    intro δ s tr task demand hs ht
    cases ht with
    | eval he => exact Matches.onward_succ (matches_term ih _ hs he)
    | apply hv ha => exact Matches.onward_succ (matches_apply ih hs hv ha)
    | @force a r ha =>
      obtain ⟨cell, hget, hcell⟩ := hs a r ha
      refine Matches.after (peek_apply hget) ?_
      cases hcell with
      | done hanswer hv =>
        exact .value rfl hanswer.eventually (World.Le.refl δ) hs hv
      | @running c _ hc hb => exact .excused (.lenient trivial c rfl)
      | delayed hc =>
        refine Matches.onward_succ ?_
        have hoccupied : Describes δ (fun _ _ => True) (s.set a (.running _)) :=
          hs.set ha (.running hc trivial) fun _ _ _ _ => trivial
        refine Matches.occupy ha (matches_resume ih hoccupied hc) (fun w hw => ?_)
          fun _ _ _ _ => trivial
        obtain ⟨n, hn⟩ := eventually_atTop.mp hw
        exact ⟨n + 1, hn n (Nat.le_refl n)⟩

theorem performByName_onward (k : Nat) :
    Simulates (.onward False) (fun _ _ => False) (performByName k) answerWithin := by
  induction k with
  | zero => exact fun δ s tr task demand hs ht => .excused (.short trivial rfl)
  | succ k ih =>
    intro δ s tr task demand hs ht
    cases ht with
    | eval he => exact Matches.onward_succ (matches_term ih _ hs he)
    | apply hv ha => exact Matches.onward_succ (matches_apply ih hs hv ha)
    | @force a r ha =>
      obtain ⟨cell, hget, hcell⟩ := hs a r ha
      refine Matches.after (peek_apply hget) ?_
      cases hcell with
      | done hanswer hv =>
        exact .value rfl hanswer.eventually (World.Le.refl δ) hs hv
      | running hc hb => exact hb.elim
      | delayed hc => exact Matches.onward_succ (matches_resume ih hs hc)

/-! ## From answers to runs -/

/-- An allowance that is large enough gives the answer. -/
theorem Answers.eq_of_ne {demand : Demand} {w : Form} (h : Answers demand w) {n : Nat}
    (hn : answerWithin n demand ≠ .exhausted) : answerWithin n demand = .value w := by
  obtain ⟨i, hi⟩ := h
  have hi' : answerWithin i demand ≠ .exhausted := by rw [hi]; nofun
  rcases Nat.le_total i n with hle | hle
  · rw [answerWithin_eq_of_le hle hi', hi]
  · rw [← answerWithin_eq_of_le hle hn, hi]

/-- A value that is there answers the demand for it, if there is an answer. -/
theorem Matches.back_done {k n : Nat} {v : Value} {w : Form} (hs : Describes δ busy s)
    (h : Answers (.force r) w) (hv : ValueFits δ v w) :
    Matches (.back k n) busy δ ValueFits ((return v : Run Value) tr s)
      fun i => answerWithin i (.force r) := by
  by_cases hn : answerWithin n (.force r) = .exhausted
  · exact .excused (.loose trivial (eventually_pure.mpr hn))
  · exact .value rfl (eventually_pure.mpr (h.eq_of_ne hn)) (World.Le.refl δ) hs hv

theorem performByName_back (n : Nat) : ∀ k,
    Simulates (.back k n) (fun _ _ => False) (performByName k) answerWithin := by
  induction n with
  | zero =>
    exact fun k δ s tr task demand hs ht => .excused (.loose trivial (eventually_pure.mpr rfl))
  | succ n ih =>
    intro k δ s tr task demand hs ht
    cases k with
    | zero => exact .excused (.short (Nat.succ_pos n) rfl)
    | succ k =>
      cases ht with
      | eval he => exact Matches.back_succ (matches_term (ih k) _ hs he)
      | apply hv ha => exact Matches.back_succ (matches_apply (ih k) hs hv ha)
      | @force a r ha =>
        obtain ⟨cell, hget, hcell⟩ := hs a r ha
        refine Matches.after (peek_apply hget) ?_
        cases hcell with
        | done hanswer hv => exact Matches.back_done hs hanswer hv
        | running hc hb => exact hb.elim
        | delayed hc => exact Matches.back_succ (matches_resume (ih k) hs hc)

/-- A recipe has no answer within an allowance. -/
def Unanswered (n : Nat) (r : Recipe) : Prop := ∀ i ≤ n, answerWithin i (.force r) = .exhausted

/-- The least allowance that answers a recipe, one level below. -/
theorem exists_least_allowance {n : Nat} {r : Recipe}
    (h : answerWithin n (.force r) ≠ .exhausted) :
    ∃ i, i < n ∧ Unanswered i r ∧ answerWithin (i + 1) (.force r) = answerWithin n (.force r) := by
  classical
  have hex : ∃ j, answerWithin j (.force r) ≠ .exhausted := ⟨n, h⟩
  have hfind := Nat.find_spec hex
  have hle : Nat.find hex ≤ n := Nat.find_min' hex h
  obtain ⟨i, hi⟩ : ∃ i, Nat.find hex = i + 1 := by
    refine Nat.exists_eq_succ_of_ne_zero fun hzero => ?_
    rw [hzero] at hfind
    exact hfind rfl
  rw [hi] at hfind hle
  refine ⟨i, hle, fun j hj => ?_, (answerWithin_eq_of_le hle hfind).symm⟩
  have hlt : j < Nat.find hex := by rw [hi]; omega
  exact not_not.mp (Nat.find_min hex hlt)

/-- Cells with a computation going on have recipes without an answer, so no demand that
has one meets them. -/
theorem perform_back (n : Nat) : ∀ (k : Nat) (busy : Addr → Recipe → Prop),
    (∀ a r, busy a r → Unanswered n r) → Simulates (.back k n) busy (perform k) answerWithin := by
  induction n using Nat.strongRecOn with
  | ind n ih =>
    intro k busy hbusy δ s tr task demand hs ht
    cases n with
    | zero => exact .excused (.loose trivial (eventually_pure.mpr rfl))
    | succ n =>
      cases k with
      | zero => exact .excused (.short (Nat.succ_pos n) rfl)
      | succ k =>
        have hself := ih n (Nat.lt_succ_self n) k busy fun a r hb i hi =>
          hbusy a r hb i (Nat.le_succ_of_le hi)
        cases ht with
        | eval he => exact Matches.back_succ (matches_term hself _ hs he)
        | apply hv ha => exact Matches.back_succ (matches_apply hself hs hv ha)
        | @force a r ha =>
          obtain ⟨cell, hget, hcell⟩ := hs a r ha
          refine Matches.after (peek_apply hget) ?_
          by_cases hn : answerWithin (n + 1) (.force r) = .exhausted
          · exact .excused (.loose trivial (eventually_pure.mpr hn))
          cases hcell with
          | done hanswer hv => exact Matches.back_done hs hanswer hv
          | running hc hb => exact absurd (hbusy a r hb (n + 1) (Nat.le_refl _)) hn
          | @delayed c _ hc =>
            obtain ⟨i, hi, hquiet, hsame⟩ := exists_least_allowance hn
            let occupied : Addr → Recipe → Prop := fun b u => busy b u ∨ (b = a ∧ u = r)
            have hoccupied : ∀ b u, occupied b u → Unanswered i u := by
              rintro b u (hb | ⟨rfl, rfl⟩) j hj
              · exact hbusy b u hb j (by omega)
              · exact hquiet j hj
            have hstore : Describes δ occupied (s.set a (.running c)) :=
              hs.set ha (.running hc (Or.inr ⟨rfl, rfl⟩)) fun b u _ hb => Or.inl hb
            have hresume : Matches (.back k i) occupied δ ValueFits
                (resume (perform k) c tr (s.set a (.running c)))
                fun j => answerRecipe (answerWithin j) r :=
              matches_resume (ih i hi k occupied hoccupied) hstore hc
            have hmatch : Matches (.back (k + 1) (n + 1)) occupied δ ValueFits
                (resume (perform k) c tr (s.set a (.running c)))
                fun j => answerWithin j (.force r) := by
              refine hresume.of_mode (fun o ho => ?_) (fun hk => ?_) id id
              · exact eventually_pure.mpr (hsame ▸ eventually_pure.mp ho)
              · exact Nat.succ_lt_succ (Nat.lt_of_lt_of_le hk (Nat.le_of_lt_succ hi))
            refine Matches.occupy ha hmatch (fun w hw => ⟨n + 1, eventually_pure.mp hw⟩) ?_
            rintro b u hne (hb | ⟨rfl, rfl⟩)
            · exact hb
            · exact absurd rfl hne

end

end LazyConfig
