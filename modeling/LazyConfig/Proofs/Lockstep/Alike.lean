import LazyConfig.Proofs.Lockstep.Scripts
import LazyConfig.Proofs.Ends
set_option autoImplicit false

/-!
# Lockstep: runs that end alike

Two runs end alike if both are exhausted, both fail in the same way, or both give values
that fit each other, and the stores behind them are linked by a link that has grown.
The notes of the runs do not count, so one of them may be traced and the other not.
-/

namespace LazyConfig

/-- Ends of the same kind. -/
inductive OutcomeAlike {α α' : Type} (γ : Link) (R : α → α' → Prop) :
    Outcome α → Outcome α' → Prop where
  | value {a : α} {b : α'} (h : R a b) : OutcomeAlike γ R (.value a) (.value b)
  | error {e e' : EvalError} (h : ErrorAlike γ e e') : OutcomeAlike γ R (.error e) (.error e')
  | exhausted : OutcomeAlike γ R .exhausted .exhausted

/-- Runs that end alike, with linked stores behind them. -/
def Alike {α α' : Type} (β : Link) (φ : Frame) (Fits : Link → α → α' → Prop) (r : Result α)
    (r' : Result α') : Prop :=
  ∃ γ : Link, β.Le γ ∧ Linked γ φ r.store r'.store ∧ OutcomeAlike γ (Fits γ) r.outcome r'.outcome

variable {α α' δ δ' : Type} {β : Link} {φ : Frame} {s s' t t' : Store} {tr tr' : Bool}

namespace Alike

variable {Fits : Link → α → α' → Prop} {Fits' : Link → δ → δ' → Prop}

theorem of_ends {p : Run α} {p' : Run α'} {γ : Link} {o : Outcome α} {o' : Outcome α'}
    (h : p.Ends tr s o t) (h' : p'.Ends tr' s' o' t') (hle : β.Le γ) (hs : Linked γ φ t t')
    (ho : OutcomeAlike γ (Fits γ) o o') : Alike β φ Fits (p tr s) (p' tr' s') := by
  obtain ⟨rfl, rfl⟩ := h
  obtain ⟨rfl, rfl⟩ := h'
  exact ⟨γ, hle, hs, ho⟩

/-- A run may be replaced by one that ends as it does. -/
theorem of_ends_left {p q : Run α} {r' : Result α'}
    (h : p.Ends tr s (q tr t).outcome (q tr t).store) (halike : Alike β φ Fits (q tr t) r') :
    Alike β φ Fits (p tr s) r' := by
  obtain ⟨γ, hle, hs, ho⟩ := halike
  refine ⟨γ, hle, ?_, ?_⟩
  · rw [h.2]
    exact hs
  · rw [h.1]
    exact ho

/-- Runs that are alike from a later link on are alike from an earlier one on. -/
theorem of_le {γ : Link} (h : β.Le γ) {r : Result α} {r' : Result α'}
    (halike : Alike γ φ Fits r r') : Alike β φ Fits r r' := by
  obtain ⟨ζ, hle, hs, ho⟩ := halike
  exact ⟨ζ, h.trans hle, hs, ho⟩

theorem pure {a : α} {b : α'} (hs : Linked β φ s s') (h : Fits β a b) :
    Alike β φ Fits ((pure a : Run α) tr s) ((pure b : Run α') tr' s') :=
  ⟨β, Link.Le.refl β, hs, .value h⟩

theorem fail {e e' : EvalError} (hs : Linked β φ s s') (h : ErrorAlike β e e') :
    Alike β φ Fits ((Run.fail e : Run α) tr s) ((Run.fail e' : Run α') tr' s') :=
  ⟨β, Link.Le.refl β, hs, .error h⟩

theorem exhausted (hs : Linked β φ s s') :
    Alike β φ Fits ((Run.exhausted : Run α) tr s) ((Run.exhausted : Run α') tr' s') :=
  ⟨β, Link.Le.refl β, hs, .exhausted⟩

/-- Runs in sequence are alike, also where the frame of the second ones says less. -/
theorem bind_frame {ψ : Frame} {p : Run α} {p' : Run α'} {k : α → Run δ} {k' : α' → Run δ'}
    (hp : Alike β φ Fits (p tr s) (p' tr' s'))
    (hless : ∀ (γ : Link) (t t' : Store), Linked γ φ t t' → Linked γ ψ t t')
    (hk : ∀ (γ : Link) (t t' : Store) (a : α) (b : α'), β.Le γ → Linked γ φ t t' → Fits γ a b →
      Alike γ ψ Fits' (k a tr t) (k' b tr' t')) :
    Alike β ψ Fits' ((p >>= k) tr s) ((p' >>= k') tr' s') := by
  rcases hr : p tr s with ⟨outcome, t, notes⟩
  rcases hr' : p' tr' s' with ⟨outcome', t', notes'⟩
  rw [hr, hr'] at hp
  obtain ⟨γ, hle, hs, ho⟩ := hp
  cases ho with
  | value hfits =>
    rw [Run.bind_of_value hr, Run.bind_of_value hr']
    exact of_le hle (hk γ t t' _ _ hle hs hfits)
  | error he =>
    rw [Run.bind_of_error hr, Run.bind_of_error hr']
    exact ⟨γ, hle, hless γ _ _ hs, .error he⟩
  | exhausted =>
    rw [Run.bind_of_exhausted hr, Run.bind_of_exhausted hr']
    exact ⟨γ, hle, hless γ _ _ hs, .exhausted⟩

/-- Runs in sequence are alike. -/
theorem bind {p : Run α} {p' : Run α'} {k : α → Run δ} {k' : α' → Run δ'}
    (hp : Alike β φ Fits (p tr s) (p' tr' s'))
    (hk : ∀ (γ : Link) (t t' : Store) (a : α) (b : α'), β.Le γ → Linked γ φ t t' → Fits γ a b →
      Alike γ φ Fits' (k a tr t) (k' b tr' t')) :
    Alike β φ Fits' ((p >>= k) tr s) ((p' >>= k') tr' s') :=
  bind_frame hp (fun _ _ _ h => h) hk

/-- Runs in sequence are alike, where what the frame says is needed between them only. -/
theorem bind_silent {p : Run α} {p' : Run α'} {k : α → Run δ} {k' : α' → Run δ'}
    (hp : Alike β φ Fits (p tr s) (p' tr' s'))
    (hk : ∀ (γ : Link) (t t' : Store) (a : α) (b : α'), β.Le γ → Linked γ φ t t' → Fits γ a b →
      Alike γ .silent Fits' (k a tr t) (k' b tr' t')) :
    Alike β .silent Fits' ((p >>= k) tr s) ((p' >>= k') tr' s') :=
  bind_frame hp (fun _ _ _ h => h.silent) hk

/-- What is done first on both sides. -/
theorem after {p : Run δ} {p' : Run δ'} {k : δ → Run α} {k' : δ' → Run α'} {a : δ} {b : δ'}
    {notes notes' : List EvalNote} (h : p tr s = ⟨.value a, t, notes⟩)
    (h' : p' tr' s' = ⟨.value b, t', notes'⟩) (halike : Alike β φ Fits (k a tr t) (k' b tr' t')) :
    Alike β φ Fits ((p >>= k) tr s) ((p' >>= k') tr' s') := by
  rw [Run.bind_of_value h, Run.bind_of_value h']
  exact halike

/-! ## Cells -/

/-- New cells that are alike. -/
theorem allocate_bind {k : Addr → Run α} {k' : Addr → Run α'} {c d : Cell} (hs : Linked β φ s s')
    (hc : CellAlike β c d)
    (hk : ∀ t t' : Store, Linked (β.extend s.next s'.next 1) φ t t' →
      Alike (β.extend s.next s'.next 1) φ Fits (k s.next tr t) (k' s'.next tr' t')) :
    Alike β φ Fits ((Run.allocate c >>= k) tr s) ((Run.allocate d >>= k') tr' s') := by
  have hle : β.Le (β.extend s.next s'.next 1) := β.le_extend _ _ _
  have hcells : List.Forall₂ (CellAlike (β.extend s.next s'.next 1)) [c] [d] :=
    .cons (hc.mono hle) .nil
  exact of_le hle (after (allocate_apply c tr s) (allocate_apply d tr' s')
    (hk _ _ (hs.append rfl hcells)))

/-- New cells for suspended computations that are alike, and may refer to the new cells. -/
theorem grow_bind {k : Addr → Run α} {k' : Addr → Run α'} {cs ds : Addr → List Suspension}
    {count : Nat} (hs : Linked β φ s s') (hcount : (cs s.next).length = count)
    (hcells : List.Forall₂ (SuspensionAlike (β.extend s.next s'.next count)) (cs s.next)
      (ds s'.next))
    (hk : ∀ t t' : Store, Linked (β.extend s.next s'.next count) φ t t' →
      Alike (β.extend s.next s'.next count) φ Fits (k s.next tr t) (k' s'.next tr' t')) :
    Alike β φ Fits ((Run.grow cs >>= k) tr s) ((Run.grow ds >>= k') tr' s') := by
  have hnew : List.Forall₂ (CellAlike (β.extend s.next s'.next count))
      ((cs s.next).map .delayed) ((ds s'.next).map .delayed) := by
    rw [List.forall₂_map_left_iff, List.forall₂_map_right_iff]
    exact hcells.imp fun c d hcd => .delayed hcd
  exact of_le (β.le_extend _ _ _) (after rfl rfl (hk _ _ (hs.append (by simpa) hnew)))

/-- Linked cells are computed while they are occupied, and then hold values. -/
theorem occupy {a b : Addr} {c d : Suspension} {p p' : Run Value} (hab : β a b)
    (hc : SuspensionAlike β c d)
    (hp : Alike β φ ValueAlike (p tr (s.set a (.running c))) (p' tr' (s'.set b (.running d)))) :
    Alike β φ ValueAlike (Run.occupy a c p tr s) (Run.occupy b d p' tr' s') := by
  obtain ⟨γ, hle, ht, ho⟩ := hp
  rw [occupy_apply, occupy_apply]
  refine ⟨γ, hle, ?_, ho⟩
  generalize (p tr (s.set a (.running c))).outcome = o,
    (p' tr' (s'.set b (.running d))).outcome = o'
    at ho ⊢
  cases ho with
  | value hv => exact ht.set (hle a b hab) (.done hv)
  | error he => exact ht.set (hle a b hab) (.delayed (hc.mono hle))
  | exhausted => exact ht.set (hle a b hab) (.delayed (hc.mono hle))

/-- A cell that nothing stands for is computed by the first run alone.  It is held while it
is occupied, so that no link reaches it. -/
theorem force_left {n : Nat} {a : Addr} {c : Suspension} {r' : Result Value}
    (hs : Linked β φ s s') (ha : s.get? a = some (.delayed c)) (hfree : ∀ b, ¬ β a b)
    (hheld : ∀ d, ¬ φ.held a d)
    (hp : ∀ ψ, Linked β ψ (s.set a (.running c)) s' →
      Alike β ψ ValueAlike (resume (perform n) c tr (s.set a (.running c))) r') :
    Alike β φ ValueAlike (perform (n + 1) (.force a) tr s) r' := by
  let ψ : Frame := ⟨fun b d => φ.held b d ∨ (b = a ∧ d = .running c), False⟩
  have hwhole : ¬ φ.whole := by
    intro hw
    obtain ⟨b, hb⟩ := hs.whole hw a (Store.lt_next_of_get? ha)
    exact hfree b hb
  have hne : ∀ {γ : Link}, (∀ b, ¬ γ a b) → ∀ b b', γ b b' → a ≠ b := by
    rintro γ hγ b b' hb rfl
    exact hγ b' hb
  have hset : Linked β ψ (s.set a (.running c)) s' := by
    refine hs.left (fun b b' hb => ?_) ?_ id
    · rw [Store.get?_set, if_neg (hne hfree b b' hb)]
    · rintro b d (hd | ⟨rfl, rfl⟩)
      · have hab : a ≠ b := by
          rintro rfl
          exact hheld d hd
        rw [Store.get?_set, if_neg hab]
        exact hs.held b d hd
      · rw [Store.get?_set, if_pos rfl, if_pos (Store.lt_next_of_get? ha)]
        exact ⟨rfl, hfree⟩
  obtain ⟨γ, hle, ht, ho⟩ := hp ψ hset
  have hends : (perform (n + 1) (.force a)).Ends tr s _ _ := Run.Ends.force ha ⟨rfl, rfl⟩
  refine ⟨γ, hle, ?_, ?_⟩
  · rw [hends.2]
    refine ht.left (fun b b' hb => ?_) (fun b d hd => ?_) hwhole
    · exact Store.get?_settle_of_ne _ (hne (ht.held a _ (Or.inr ⟨rfl, rfl⟩)).2 b b' hb) _ _
    · have hab : a ≠ b := by
        rintro rfl
        exact hheld d hd
      rw [Store.get?_settle_of_ne _ hab]
      exact ht.held b d (Or.inl hd)
  · rw [hends.1]
    exact ho

end Alike

end LazyConfig
