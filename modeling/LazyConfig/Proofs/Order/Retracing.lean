import LazyConfig.Proofs.Order.Records
import LazyConfig.Proofs.Lockstep.Scripts
import LazyConfig.Proofs.Scripts.Allowance
set_option autoImplicit false

/-!
# Order: retracing a history

A store may lag behind a history: some cells that have values there are not computed here
yet.  A link says which cell of the history each cell here stands for.  A run here that does
what the history accounts for *retraces* it.  Where the history only reads a value, the run
here may have to compute it; but the log says how that went, and the computation here goes
the same way, with the new cells standing for the ones that the entry of the log has.

So whatever the history says of a script comes true here: the value that it gives, the
failure that it breaks off with, and an allowance that does not suffice.
-/

namespace LazyConfig

/-! ## Stores that lag behind -/

/-- What a cell here holds that stands for a cell of the history.  The cells that are being
computed are given. -/
inductive RetracesCell (H : History) (β : Link) (busy : List Addr) (b : Addr) : Cell → Prop where
  | delayed {c d : Suspension} (hd : H.origin b = some (.suspended d)) (hc : SuspensionAlike β c d)
      (hb : b ∉ busy) : RetracesCell H β busy b (.delayed c)
  | running {c d : Suspension} (hd : H.origin b = some (.suspended d)) (hc : SuspensionAlike β c d)
      (hb : b ∈ busy) : RetracesCell H β busy b (.running c)
  | done {v w : Value} (hw : H.Knows b w) (hv : ValueAlike β v w) (hb : b ∉ busy) :
      RetracesCell H β busy b (.done v)

/-- The store retraces the history, as far as its cells are linked. -/
structure Retraces (H : History) (β : Link) (busy : List Addr) (s : Store) : Prop where
  /-- The linked cells. -/
  cells : ∀ a b, β a b → ∃ c, s.get? a = some c ∧ RetracesCell H β busy b c
  /-- No cell stands for two. -/
  forth : ∀ a b b', β a b → β a b' → b = b'
  /-- No cell has two that stand for it. -/
  back : ∀ a a' b, β a b → β a' b → a = a'
  /-- The cells that are being computed are linked. -/
  busy : ∀ b ∈ busy, ∃ a, β a b
  /-- A cell that was made for a computation is linked only if that has begun. -/
  begun : ∀ e ∈ H.log, ∀ x ∈ e.own, ∀ a, β a x →
    ∃ a', β a' e.cell ∧ ∀ c, s.get? a' ≠ some (.delayed c)

/-- The cells that a script of the history makes are yet to be made here. -/
structure Ahead (H : History) (β : Link) (busy own : List Addr) : Prop where
  /-- They are different cells. -/
  nodup : own.Nodup
  /-- Nothing stands for them. -/
  unlinked : ∀ x ∈ own, ∀ a, ¬ β a x
  /-- They are made for nothing but what is being computed. -/
  owner : ∀ x ∈ own, ∀ e ∈ H.log, x ∈ e.own → e.cell ∈ busy

/-- The store behind a script that has retraced its account.  All that is linked now was
linked before, or was made by the script or for a computation that the log has. -/
structure Retraced (H : History) (log : List Entry) (β : Link) (busy own : List Addr) (γ : Link)
    (t : Store) : Prop where
  /-- The link has grown. -/
  le : β.Le γ
  /-- The store goes on retracing. -/
  retraces : Retraces H γ busy t
  /-- What is linked now. -/
  reached : ∀ a x, γ a x → (∃ a', β a' x) ∨ x ∈ own ∨ ∃ e ∈ log, x ∈ e.own

section

variable {H : History} {β γ : Link} {busy own more : List Addr} {s t : Store} {a b : Addr}

theorem RetracesCell.mono (hle : β.Le γ) {c : Cell} (h : RetracesCell H β busy b c) :
    RetracesCell H γ busy b c := by
  cases h with
  | delayed hd hc hb => exact .delayed hd (hc.mono hle) hb
  | running hd hc hb => exact .running hd (hc.mono hle) hb
  | done hw hv hb => exact .done hw (hv.mono hle) hb

/-- For another cell it does not matter that one more is being computed. -/
theorem RetracesCell.cons_iff {b' : Addr} (hne : b' ≠ b) {c : Cell} :
    RetracesCell H β (b :: busy) b' c ↔ RetracesCell H β busy b' c := by
  constructor
  · intro h
    cases h with
    | delayed hd hc hb => exact .delayed hd hc fun h => hb (List.mem_cons_of_mem b h)
    | running hd hc hb => exact .running hd hc ((List.mem_cons.mp hb).resolve_left hne)
    | done hw hv hb => exact .done hw hv fun h => hb (List.mem_cons_of_mem b h)
  · intro h
    cases h with
    | delayed hd hc hb => exact .delayed hd hc fun h => hb ((List.mem_cons.mp h).resolve_left hne)
    | running hd hc hb => exact .running hd hc (List.mem_cons_of_mem b hb)
    | done hw hv hb => exact .done hw hv fun h => hb ((List.mem_cons.mp h).resolve_left hne)

namespace Retraces

theorem lt_next (h : Retraces H β busy s) (hab : β a b) : a < s.next := by
  obtain ⟨c, hc, -⟩ := h.cells a b hab
  exact Store.lt_next_of_get? hc

theorem ne_new (h : Retraces H β busy s) (hab : β a b) (i : Nat) : a ≠ s.next + i := by
  obtain ⟨c, hc, -⟩ := h.cells a b hab
  exact Store.ne_new_of_get? hc i

/-- A cell that is being computed here is running. -/
theorem running (h : Retraces H β busy s) (hab : β a b) (hb : b ∈ busy) :
    ∃ c d, s.get? a = some (.running c) ∧ H.origin b = some (.suspended d) ∧
      SuspensionAlike β c d := by
  obtain ⟨c, hc, hcell⟩ := h.cells a b hab
  cases hcell with
  | delayed _ _ hnot => exact absurd hb hnot
  | running hd hc' _ => exact ⟨_, _, hc, hd, hc'⟩
  | done _ _ hnot => exact absurd hb hnot

/-- A linked cell may change, together with which cells are being computed, if the others are
retraced as before and if it does not become delayed. -/
theorem set (h : Retraces H β busy s) (hab : β a b) {c : Cell} {later : List Addr}
    (hown : RetracesCell H β later b c)
    (hother : ∀ x d, x ≠ b → RetracesCell H β busy x d → RetracesCell H β later x d)
    (hbusy : ∀ x ∈ later, ∃ a, β a x) (hc : ∀ k, c ≠ .delayed k) :
    Retraces H β later (s.set a c) where
  cells := by
    intro a' b' hab'
    by_cases haa : a = a'
    · subst haa
      obtain rfl := h.forth a b b' hab hab'
      exact ⟨c, by rw [Store.get?_set, if_pos rfl, if_pos (h.lt_next hab)], hown⟩
    · have hne : b' ≠ b := fun hbb => haa (h.back a a' b hab (hbb ▸ hab'))
      obtain ⟨d, hd, hcell⟩ := h.cells a' b' hab'
      exact ⟨d, by rw [Store.get?_set, if_neg haa, hd], hother b' d hne hcell⟩
  forth := h.forth
  back := h.back
  busy := hbusy
  begun := by
    intro e he x hx a' hax
    obtain ⟨a'', hlink, hnot⟩ := h.begun e he x hx a' hax
    refine ⟨a'', hlink, fun k hk => ?_⟩
    rw [Store.get?_set] at hk
    by_cases haa : a = a''
    · subst haa
      rw [if_pos rfl, if_pos (h.lt_next hab)] at hk
      exact hc k (Option.some.inj hk)
    · rw [if_neg haa] at hk
      exact hnot k hk

/-- A cell is being computed from now on. -/
theorem occupy (h : Retraces H β busy s) (hab : β a b) {c : Suspension}
    (ha : s.get? a = some (.delayed c)) : Retraces H β (b :: busy) (s.set a (.running c)) := by
  have hown : RetracesCell H β (b :: busy) b (.running c) := by
    obtain ⟨d, hd, hcell⟩ := h.cells a b hab
    obtain rfl : Cell.delayed c = d := Option.some.inj (ha.symm.trans hd)
    cases hcell with
    | delayed hd hc _ => exact .running hd hc (List.mem_cons_self ..)
  refine h.set hab hown (fun x d hne => (RetracesCell.cons_iff hne).mpr) (fun x hx => ?_)
    fun _ => nofun
  rcases List.mem_cons.mp hx with rfl | hx
  · exact ⟨a, hab⟩
  · exact h.busy x hx

/-- A cell has its value. -/
theorem settle (h : Retraces H β (b :: busy) t) (hab : β a b) (hb : b ∉ busy) {v w : Value}
    (hw : H.Knows b w) (hv : ValueAlike β v w) : Retraces H β busy (t.set a (.done v)) :=
  h.set hab (.done hw hv hb) (fun _ _ hne => (RetracesCell.cons_iff hne).mp)
    (fun x hx => h.busy x (List.mem_cons_of_mem b hx)) fun _ => nofun

/-- New cells stand for cells of the history that are ahead. -/
theorem append (h : Retraces H β busy s) {base count : Nat} {cs : List Cell}
    (hcount : cs.length = count) (hahead : Ahead H β busy (List.range' base count))
    (hcells : ∀ i c, cs[i]? = some c →
      RetracesCell H (β.extend s.next base count) busy (base + i) c) :
    Retraces H (β.extend s.next base count) busy (s.append cs) where
  cells := by
    rintro a b (hab | ⟨i, hi, rfl, rfl⟩)
    · obtain ⟨c, hc, hcell⟩ := h.cells a b hab
      exact ⟨c, Store.get?_append_of_some hc cs, hcell.mono (β.le_extend _ _ _)⟩
    · have hget : cs[i]? = some cs[i] := List.getElem?_eq_getElem (hcount ▸ hi)
      exact ⟨_, by rw [Store.get?_append_add, hget], hcells i _ hget⟩
  forth := by
    rintro a b b' (hab | ⟨i, hi, ha, hb⟩) (hab' | ⟨j, hj, ha', hb'⟩)
    · exact h.forth a b b' hab hab'
    · exact absurd ha' (h.ne_new hab j)
    · exact absurd ha (h.ne_new hab' i)
    · obtain rfl : i = j := Nat.add_left_cancel (ha.symm.trans ha')
      exact hb.trans hb'.symm
  back := by
    have hnew : ∀ i, i < count → ∀ a, ¬ β a (base + i) := fun i hi =>
      hahead.unlinked _ (List.mem_range'_1.mpr ⟨by omega, by omega⟩)
    rintro a a' b (hab | ⟨i, hi, ha, hb⟩) (hab' | ⟨j, hj, ha', hb'⟩)
    · exact h.back a a' b hab hab'
    · exact absurd (hb' ▸ hab) (hnew j hj a)
    · exact absurd (hb ▸ hab') (hnew i hi a')
    · obtain rfl : i = j := Nat.add_left_cancel (hb.symm.trans hb')
      exact ha.trans ha'.symm
  busy := by
    intro b hb
    obtain ⟨a, hab⟩ := h.busy b hb
    exact ⟨a, Or.inl hab⟩
  begun := by
    have hkeep : ∀ {e : Entry}, (∃ a, β a e.cell ∧ ∀ c, s.get? a ≠ some (.delayed c)) →
        ∃ a, β.extend s.next base count a e.cell ∧
          ∀ c, (s.append cs).get? a ≠ some (.delayed c) := by
      rintro e ⟨a, hab, hnot⟩
      obtain ⟨d, hd, -⟩ := h.cells a _ hab
      refine ⟨a, Or.inl hab, fun c hc => hnot c ?_⟩
      rw [Store.get?_append_of_some hd cs] at hc
      rw [hd, hc]
    rintro e he x hx a (hax | ⟨i, hi, -, rfl⟩)
    · exact hkeep (h.begun e he x hx a hax)
    · have hbusy := hahead.owner _ (List.mem_range'_1.mpr ⟨by omega, by omega⟩) e he hx
      obtain ⟨a', hlink⟩ := h.busy _ hbusy
      obtain ⟨c, d, hc, -, -⟩ := h.running hlink hbusy
      exact hkeep ⟨a', hlink, fun k hk => nomatch hc.symm.trans hk⟩

end Retraces

namespace Ahead

theorem left (h : Ahead H β busy (own ++ more)) : Ahead H β busy own where
  nodup := (List.nodup_append.mp h.nodup).1
  unlinked := fun x hx => h.unlinked x (List.mem_append_left more hx)
  owner := fun x hx => h.owner x (List.mem_append_left more hx)

/-- What comes later is still ahead when the first part has been retraced. -/
theorem right {log : List Entry} (h : Ahead H β busy (own ++ more)) (hlog : ∀ e ∈ log, e ∈ H.log)
    (hbusy : ∀ b ∈ busy, ∀ e ∈ log, e.cell ≠ b) (hr : Retraced H log β busy own γ t) :
    Ahead H γ busy more where
  nodup := (List.nodup_append.mp h.nodup).2.1
  unlinked := by
    intro x hx a hax
    rcases hr.reached a x hax with ⟨a', hold⟩ | hown | ⟨e, he, hmem⟩
    · exact h.unlinked x (List.mem_append_right own hx) a' hold
    · exact (List.nodup_append.mp h.nodup).2.2 x hown x hx rfl
    · exact hbusy _ (h.owner x (List.mem_append_right own hx) e (hlog e he) hmem) e he rfl
  owner := fun x hx => h.owner x (List.mem_append_right own hx)

/-- The cells of an entry are ahead when its computation begins. -/
theorem of_entry (h : Retraces H β busy s) (hvalid : ValidLog H.origin H.log) {e : Entry}
    (he : e ∈ H.log) (hnodup : e.own.Nodup) (hab : β a e.cell) {c : Suspension}
    (ha : s.get? a = some (.delayed c)) : Ahead H β (e.cell :: busy) e.own where
  nodup := hnodup
  unlinked := by
    intro x hx a' hax
    obtain ⟨a'', hlink, hnot⟩ := h.begun e he x hx a' hax
    obtain rfl := h.back a a'' e.cell hab hlink
    exact hnot c ha
  owner := by
    intro x hx e' he' hx'
    rw [hvalid.eq_of_own he he' hx hx']
    exact List.mem_cons_self ..

end Ahead

namespace Retraced

theorem refl (h : Retraces H β busy s) (log : List Entry) (own : List Addr) :
    Retraced H log β busy own β s :=
  ⟨.refl β, h, fun a _ hax => Or.inl ⟨a, hax⟩⟩

theorem trans {log : List Entry} {ζ : Link} {u : Store} (h : Retraced H log β busy own γ t)
    (h' : Retraced H log γ busy more ζ u) : Retraced H log β busy (own ++ more) ζ u where
  le := h.le.trans h'.le
  retraces := h'.retraces
  reached := by
    intro a x hax
    rcases h'.reached a x hax with ⟨a', hlater⟩ | hmore | hlog
    · exact (h.reached a' x hlater).imp_right (Or.imp_left (List.mem_append_left more))
    · exact Or.inr (Or.inl (List.mem_append_right own hmore))
    · exact Or.inr (Or.inr hlog)

/-- New cells. -/
theorem append (h : Retraces H β busy s) (log : List Entry) {base count : Nat} {cs : List Cell}
    (hcount : cs.length = count) (hahead : Ahead H β busy (List.range' base count))
    (hcells : ∀ i c, cs[i]? = some c →
      RetracesCell H (β.extend s.next base count) busy (base + i) c) :
    Retraced H log β busy (List.range' base count) (β.extend s.next base count)
      (s.append cs) where
  le := β.le_extend _ _ _
  retraces := h.append hcount hahead hcells
  reached := by
    rintro a x (hold | ⟨i, hi, -, rfl⟩)
    · exact Or.inl ⟨a, hold⟩
    · exact Or.inr (Or.inl (List.mem_range'_1.mpr ⟨by omega, by omega⟩))

end Retraced

end

/-! ## Runs with large allowances -/

/-- The script ends so under every allowance that is large enough. -/
def Script.Comes {α : Type} (p : Script α) (tr : Bool) (s : Store) (o : Outcome α) (t : Store) :
    Prop :=
  ∃ k, ∀ m, k ≤ m → (p.run m).Ends tr s o t

namespace Script.Comes

variable {α β : Type} {p : Script α} {tr : Bool} {s t u : Store} {a : α}

theorem done (a : α) (tr : Bool) (s : Store) : (Script.done a).Comes tr s (.value a) s :=
  ⟨0, fun _ _ => Run.Ends.pure a tr s⟩

theorem note {o : Outcome α} (h : p.Comes tr s o t) (x : EvalNote) :
    (Script.note x p).Comes tr s o t := by
  obtain ⟨k, hk⟩ := h
  have hnote : (Run.note x).Ends tr s (.value ()) s := ⟨rfl, rfl⟩
  exact ⟨k, fun m hm => hnote.bind (hk m hm)⟩

theorem grown (cs : Addr → List Suspension) (tr : Bool) (s : Store) :
    (Script.grow cs .done).Comes tr s (.value s.next) (s.append ((cs s.next).map .delayed)) :=
  ⟨0, fun _ _ => ⟨rfl, rfl⟩⟩

theorem stored (v : Value) (tr : Bool) (s : Store) :
    (Script.keep v).Comes tr s (.value s.next) (s.append [.done v]) := by
  refine ⟨0, fun m _ => ?_⟩
  have hrun : (Script.keep v).run m = Run.allocate (.done v) := Run.bind_pure _
  rw [hrun, Run.Ends, allocate_apply]
  exact ⟨rfl, rfl⟩

theorem bind {f : α → Script β} {o : Outcome β} (hp : p.Comes tr s (.value a) t)
    (hf : (f a).Comes tr t o u) : (p >>= f).Comes tr s o u := by
  obtain ⟨k, hk⟩ := hp
  obtain ⟨l, hl⟩ := hf
  refine ⟨max k l, fun m hm => ?_⟩
  rw [run_bind]
  exact (hk m (Nat.le_trans (Nat.le_max_left k l) hm)).bind
    (hl m (Nat.le_trans (Nat.le_max_right k l) hm))

/-- What is done for one script is done one level deeper for another. -/
theorem up {q : Script β} {o : Outcome α} {o' : Outcome β} {r r' : Store}
    (hq : ∀ m, (p.run m).Ends tr s o t → (q.run (m + 1)).Ends tr r o' r')
    (h : p.Comes tr s o t) : q.Comes tr r o' r' := by
  obtain ⟨k, hk⟩ := h
  refine ⟨k + 1, fun m hm => ?_⟩
  obtain ⟨m, rfl⟩ : ∃ l, m = l + 1 := ⟨m - 1, by omega⟩
  exact hq m (hk m (Nat.le_of_succ_le_succ hm))

/-- A job comes to what its script comes to. -/
theorem job {κ : Kind} {j : Job κ} {x : κ.Result} (h : j.script.Comes tr s (.value x) t) :
    (Script.job j).Comes tr s (.value x) t := by
  refine h.up fun m hends => ?_
  rw [run_job, Job.run_succ]
  exact hends

/-- A delayed cell comes to the value of its computation. -/
theorem force {b : Addr} {c : Suspension} {v : Value} (hb : s.get? b = some (.delayed c))
    (h : (Script.resume c).Comes tr (s.set b (.running c)) (.value v) t) :
    (Script.cell b).Comes tr s (.value v) (t.set b (.done v)) := by
  refine h.up fun m hends => ?_
  rw [run_resume] at hends
  rw [run_cell]
  exact Run.Ends.force hb hends

/-- A cell with a value comes to it. -/
theorem known {b : Addr} {v : Value} (hb : s.get? b = some (.done v)) (tr : Bool) :
    (Script.cell b).Comes tr s (.value v) s := by
  refine ⟨1, fun m hm => ?_⟩
  obtain ⟨m, rfl⟩ : ∃ l, m = l + 1 := ⟨m - 1, by omega⟩
  have hforce : perform (m + 1) (.force b) tr s = ⟨.value v, s, []⟩ :=
    Run.bind_of_value (peek_apply hb) _
  rw [run_cell, Run.Ends, hforce]
  exact ⟨rfl, rfl⟩

end Script.Comes

/-! ## Values -/

/-- What the log has is justified by what is before it in the log. -/
theorem ValidLog.justified {origin : Addr → Option Origin} {log : List Entry}
    (h : ValidLog origin log) {e : Entry} (he : e ∈ log) :
    ∃ (rest : List Entry) (c : Suspension), e :: rest <:+ log ∧
      origin e.cell = some (.suspended c) ∧ (∀ e' ∈ rest, e'.cell ≠ e.cell) ∧
      Gives ⟨origin, rest⟩ (Script.resume c) e.value e.own ∧ e.own.Nodup := by
  obtain ⟨front, rest, rfl⟩ := List.append_of_mem he
  have hsuffix : e :: rest <:+ front ++ e :: rest := List.suffix_append _ _
  cases h.of_suffix hsuffix with
  | cons _ horigin hcell hgives hnodup _ =>
    exact ⟨rest, _, hsuffix, horigin, hcell, hgives, hnodup⟩

section

variable {H : History} {β : Link} {busy own : List Addr} {s : Store} {base : Addr} {count : Nat}

theorem Ahead.not_busy (h : Ahead H β busy own) (hs : Retraces H β busy s) {x : Addr}
    (hx : x ∈ own) : x ∉ busy := by
  intro hbusy
  obtain ⟨a, hax⟩ := hs.busy x hbusy
  exact h.unlinked x hx a hax

/-- New cells hold what they hold in the history. -/
theorem Ahead.made {γ : Link} (h : Ahead H β busy (List.range' base count))
    (hs : Retraces H β busy s) {cs ds : List Suspension} (hcount : cs.length = count)
    (hmade : H.Made base ds) (halike : List.Forall₂ (SuspensionAlike γ) cs ds) (i : Nat) (c : Cell)
    (hc : (cs.map Cell.delayed)[i]? = some c) : RetracesCell H γ busy (base + i) c := by
  obtain ⟨hi, rfl⟩ := List.getElem?_eq_some_iff.mp hc
  rw [List.length_map] at hi
  have hlt : i < ds.length := halike.length_eq ▸ hi
  have hcd : SuspensionAlike γ cs[i] ds[i] := (List.forall₂_iff_get.mp halike).2 i hi hlt
  rw [List.getElem_map]
  exact .delayed (hmade i ds[i] (List.getElem?_eq_getElem hlt)) hcd
    (h.not_busy hs (List.mem_range'_1.mpr ⟨by omega, by omega⟩))

/-- The cells that a script makes for suspended computations. -/
theorem Retraced.grow (hs : Retraces H β busy s) (log : List Entry) {cs ds : List Suspension}
    (hcount : cs.length = count) (hmade : H.Made base ds)
    (halike : List.Forall₂ (SuspensionAlike (β.extend s.next base count)) cs ds)
    (hahead : Ahead H β busy (List.range' base ds.length)) :
    Retraced H log β busy (List.range' base ds.length) (β.extend s.next base count)
      (s.append (cs.map .delayed)) := by
  rw [← halike.length_eq, hcount] at hahead ⊢
  exact .append hs log (by simpa using hcount) hahead (hahead.made hs hcount hmade halike)

/-- A new cell has the value that the history knows. -/
theorem Ahead.stored {γ : Link} (h : Ahead H β busy [base]) (hs : Retraces H β busy s)
    {v w : Value} (hw : H.Knows base w) (hv : ValueAlike γ v w) (i : Nat) (c : Cell)
    (hc : [Cell.done v][i]? = some c) : RetracesCell H γ busy (base + i) c := by
  cases i with
  | zero =>
    obtain rfl : Cell.done v = c := Option.some.inj hc
    exact .done hw hv (h.not_busy hs (List.mem_singleton.mpr rfl))
  | succ i => exact nomatch hc

/-- The cell that a script makes for a value. -/
theorem Retraced.store (hs : Retraces H β busy s) (log : List Entry) {v w : Value}
    (hw : H.Knows base w) (hv : ValueAlike β v w) (hahead : Ahead H β busy [base]) :
    Retraced H log β busy [base] (β.extend s.next base 1) (s.append [.done v]) := by
  have hrange : Ahead H β busy (List.range' base 1) := hahead
  exact Retraced.append hs log rfl hrange
    (hahead.stored hs hw (hv.mono (β.le_extend s.next base 1)))

end

/-- Whatever script gives a value over this part of the log, an alike script comes to an
alike value here. -/
def History.Retraceable (H : History) (tr : Bool) (log : List Entry) : Prop :=
  ∀ {α α' : Type} {Fits : Link → α → α' → Prop} {p : Script α} {p' : Script α'} {w : α'}
    {own busy : List Addr} {β : Link} {s : Store}, Gives ⟨H.origin, log⟩ p' w own →
    ScriptAlike Fits β p p' → Retraces H β busy s → (∀ b ∈ busy, ∀ e ∈ log, e.cell ≠ b) →
    Ahead H β busy own →
    ∃ γ v t, p.Comes tr s (.value v) t ∧ Fits γ v w ∧ Retraced H log β busy own γ t

section

variable {H : History} {tr : Bool} {log : List Entry}

/-- A cell whose value is in the log comes to an alike value here.  If it has to be computed
for that, the part of the log before its entry says how. -/
theorem History.Knows.retrace (hvalid : ValidLog H.origin H.log) (hlog : log <:+ H.log)
    (hshorter : ∀ rest : List Entry, rest.length < log.length → rest <:+ H.log →
      H.Retraceable tr rest)
    {a b : Addr} {w : Value} {busy : List Addr} {β : Link} {s : Store}
    (hb : History.Knows ⟨H.origin, log⟩ b w) (hab : β a b) (hs : Retraces H β busy s)
    (hbusy : ∀ b ∈ busy, ∀ e ∈ log, e.cell ≠ b) :
    ∃ γ v t, (Script.cell a).Comes tr s (.value v) t ∧ ValueAlike γ v w ∧
      Retraced H log β busy [] γ t := by
  have hle : History.Le ⟨H.origin, log⟩ H := ⟨fun _ _ h => h, fun e he => hlog.subset he⟩
  obtain ⟨cell, ha, hcell⟩ := hs.cells a b hab
  cases hcell with
  | running hd _ hmem =>
    -- What is being computed has no value in this part of the log.
    cases hb with
    | ready hready => exact nomatch hd.symm.trans hready
    | computed e he hcell _ => exact absurd hcell (hbusy b hmem e he)
  | @done v w' hw hv _ =>
    obtain rfl : w' = w := hvalid.unique hw (hb.mono hle)
    exact ⟨β, v, s, .known ha tr, hv, .refl hs log []⟩
  | @delayed c d hd hc hidle =>
    cases hb with
    | ready hready => exact nomatch hd.symm.trans hready
    | computed e he hcell hvalue =>
      subst hcell hvalue
      obtain ⟨rest, d', hsuffix, hd', hfirst, hgives, hnodup⟩ :=
        (hvalid.of_suffix hlog).justified he
      obtain rfl : d = d' := Origin.suspended.inj (Option.some.inj (hd.symm.trans hd'))
      have hrest : ∀ e' ∈ rest, e' ∈ log := fun e' he' =>
        hsuffix.subset (List.mem_cons_of_mem e he')
      -- The cell is computed here by what the log had before its entry, which is less.
      have hlength : rest.length < log.length := hsuffix.length_le
      have hbusy' : ∀ b ∈ e.cell :: busy, ∀ e' ∈ rest, e'.cell ≠ b := by
        intro b hb e' he'
        rcases List.mem_cons.mp hb with rfl | hb
        · exact hfirst e' he'
        · exact hbusy b hb e' (hrest e' he')
      obtain ⟨γ, v, t, hcomes, hv, hr⟩ := hshorter rest hlength
        (((List.suffix_cons e rest).trans hsuffix).trans hlog) hgives (ScriptAlike.resume hc)
        (hs.occupy hab ha) hbusy' (.of_entry hs hvalid (hlog.subset he) hnodup hab ha)
      have hknown : H.Knows e.cell e.value := .computed e (hlog.subset he) rfl rfl
      refine ⟨γ, v, t.set a (.done v), hcomes.force ha, hv, hr.le,
        hr.retraces.settle (hr.le a _ hab) hidle hknown hv, fun a' x hax => ?_⟩
      rcases hr.reached a' x hax with hold | hown | ⟨e', he', hx⟩
      · exact Or.inl hold
      · exact Or.inr (Or.inr ⟨e, he, hown⟩)
      · exact Or.inr (Or.inr ⟨e', hrest e' he', hx⟩)

/-- A script that gives a value over a part of the log comes to an alike value here.  The
induction is on the account. -/
theorem Gives.retrace_of_shorter (hvalid : ValidLog H.origin H.log) (hlog : log <:+ H.log)
    (hshorter : ∀ rest : List Entry, rest.length < log.length → rest <:+ H.log →
      H.Retraceable tr rest) : H.Retraceable tr log := by
  intro α α' Fits p p' w own busy β s hgives hp hs hbusy hahead
  have hle : History.Le ⟨H.origin, log⟩ H := ⟨fun _ _ h => h, fun e he => hlog.subset he⟩
  induction hgives generalizing α β s with
  | done w =>
    cases hp with
    | done h => exact ⟨β, _, s, .done _ tr s, h, .refl hs log []⟩
  | note _ ihp =>
    cases hp with
    | note x h =>
      obtain ⟨γ, v, t, hcomes, hfits, hr⟩ := ihp h hs hahead
      exact ⟨γ, v, t, hcomes.note _, hfits, hr⟩
  | @grow _ cs' next' w base own hcs _ ihp =>
    cases hp with
    | @grow _ cs _ next _ count hboth hnext =>
      obtain ⟨halike, hcount⟩ := hboth s.next base
      have hfirst := Retraced.grow hs log hcount hcs halike hahead.left
      obtain ⟨γ, v, t, hcomes, hfits, hr⟩ := ihp (hnext s.next base) hfirst.retraces
        (hahead.right hle.log hbusy hfirst)
      exact ⟨γ, v, t, (Script.Comes.grown cs tr s).bind hcomes, hfits, hfirst.trans hr⟩
  | @store _ w' next' w base own hv _ ihp =>
    cases hp with
    | @store _ v _ next _ hvw hnext =>
      have hahead' : Ahead H β busy ([base] ++ own) := hahead
      have hfirst := Retraced.store hs log (hv.mono hle) hvw hahead'.left
      obtain ⟨γ, v, t, hcomes, hfits, hr⟩ := ihp (hnext s.next base) hfirst.retraces
        (hahead'.right hle.log hbusy hfirst)
      exact ⟨γ, v, t, (Script.Comes.stored _ tr s).bind hcomes, hfits, hfirst.trans hr⟩
  | @force _ b w' next' w own hb _ ihp =>
    cases hp with
    | @force _ a _ next _ hab hnext =>
      obtain ⟨γ, y, t, hcomes, hfits, hfirst⟩ :=
        hb.retrace hvalid hlog hshorter hab hs hbusy
      have hahead' : Ahead H β busy ([] ++ own) := hahead
      obtain ⟨ζ, v, u, hcomes', hfits', hr⟩ := ihp (hnext γ y w' hfirst.le hfits) hfirst.retraces
        (hahead'.right hle.log hbusy hfirst)
      exact ⟨ζ, v, u, hcomes.bind hcomes', hfits', hfirst.trans hr⟩
  | @work _ κ j' x next' w made own hj _ ihj ihp =>
    cases hp with
    | @work _ _ j _ next _ halike hnext =>
      obtain ⟨γ, y, t, hcomes, hfits, hfirst⟩ := ihj halike.script hs hahead.left
      obtain ⟨ζ, v, u, hcomes', hfits', hr⟩ := ihp (hnext γ y x hfirst.le hfits) hfirst.retraces
        (hahead.right hle.log hbusy hfirst)
      exact ⟨ζ, v, u, hcomes.job.bind hcomes', hfits', hfirst.trans hr⟩

/-- Every part of a valid log can be retraced: by induction on its length. -/
theorem ValidLog.retraceable (hvalid : ValidLog H.origin H.log) (tr : Bool)
    (hlog : log <:+ H.log) : H.Retraceable tr log := by
  induction hk : log.length using Nat.strongRecOn generalizing log with
  | _ k ih =>
    subst hk
    exact Gives.retrace_of_shorter hvalid hlog fun rest hlt hrest => ih _ hlt hrest rfl

end

end LazyConfig
