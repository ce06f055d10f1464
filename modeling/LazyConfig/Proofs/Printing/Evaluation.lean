import LazyConfig.Eval.ByName
import LazyConfig.Proofs.Scripts.Basic
import LazyConfig.Proofs.Ends
import LazyConfig.Proofs.Tables
import LazyConfig.Proofs.Printing.Plain
set_option autoImplicit false

/-!
# Printing: evaluating a program for plain data

The core term of plain data has no free names, so it is evaluated alike in every environment.
It makes cells for its parts, and computing one of them makes cells for its own parts and
changes no other cell.  So the parts can be computed one after the other, and the data comes
back.
-/

namespace LazyConfig

open Run.Ends

/-! ## Cells for parts -/

/-- Cells for terms that are not computed yet. -/
def waitingCells (env : Env) (ts : List Term) : List Cell :=
  (ts.map fun t => Suspension.term t env).map .delayed

/-- The store has these cells from an address on. -/
def Store.HasFrom (s : Store) (base : Nat) (cs : List Cell) : Prop :=
  ∀ i c, cs[i]? = some c → s.get? (base + i) = some c

/-- All cells but one are as they were. -/
def Store.KeepsBut (s : Store) (a : Nat) (t : Store) : Prop :=
  ∀ (b : Nat) (c : Cell), b ≠ a → s.get? b = some c → t.get? b = some c

/-- All cells but so many from an address on are as they were. -/
def Store.KeepsOutside (s : Store) (base count : Nat) (t : Store) : Prop :=
  ∀ (a : Nat) (c : Cell), s.get? a = some c → a < base ∨ base + count ≤ a → t.get? a = some c

theorem Store.append_nil (s : Store) : s.append [] = s := by
  simp [append]

variable {s t u : Store} {env : Env} {base n : Nat} {tr : Bool}

theorem Store.HasFrom.tail {c : Cell} {cs : List Cell} (h : s.HasFrom base (c :: cs)) :
    s.HasFrom (base + 1) cs := by
  intro i d hd
  have hnext := h (i + 1) d (by simpa using hd)
  rwa [← Nat.add_assoc, Nat.add_right_comm] at hnext

theorem Store.hasFrom_append (s : Store) (cs : List Cell) : (s.append cs).HasFrom s.next cs := by
  intro i c hc
  rw [Store.get?_append_add, hc]

namespace Data

/-- The parts of plain data. -/
def parts : Plain → List Term
  | .text _ => []
  | .list items => dataTerms items
  | .dict entries => (dataEntries entries).map Prod.snd
  | .function f => nomatch f

/-- The value of plain data whose parts are in cells from an address on. -/
def shell (base : Addr) : Plain → Value
  | .text s => .text s
  | .list items => .list (List.range' base items.length)
  | .dict entries =>
      .dict (Table.ofList ((entries.map Prod.fst).zip (List.range' base entries.length)))
  | .function f => nomatch f

end Data

theorem length_dataTerms (ps : List Plain) : (dataTerms ps).length = ps.length := by
  induction ps with
  | nil => rfl
  | cons p rest ih => rw [dataTerms, List.length_cons, List.length_cons, ih]

theorem length_dataEntries (ps : List (String × Plain)) : (dataEntries ps).length = ps.length := by
  rw [← List.length_map Prod.fst, keys_dataEntries, List.length_map]

/-- Plain data is evaluated by making cells for its parts. -/
theorem eval_toTerm (p : Plain) (n : Nat) (env : Env) (tr : Bool) (s : Store) :
    (perform (n + 1) (.eval p.toTerm env)).Ends tr s (.value (p.shell s.next))
      (s.append (waitingCells env p.parts)) := by
  cases p with
  | text text =>
    have h : (perform (n + 1) (.eval (.text text) env)).Ends tr s _ _ := eval_text text env
    rwa [← s.append_nil] at h
  | list items =>
    have h : (perform (n + 1) (.eval (.list (dataTerms items)) env)).Ends tr s _ _ :=
      eval_list (dataTerms items) env
    rwa [length_dataTerms] at h
  | dict entries =>
    have h : (perform (n + 1) (.eval (.dict (dataEntries entries)) env)).Ends tr s _ _ :=
      (Run.Ends.delayAll env ((dataEntries entries).map Prod.snd) tr s).bind (pure _ tr _)
    rwa [List.length_map, length_dataEntries, keys_dataEntries] at h
  | function f => exact f.elim

/-! ## Computing the parts -/

/-- With a large enough allowance, the data comes from its value when its parts wait in cells,
and no other cells change. -/
def Computes (p : Plain) : Prop :=
  ∃ k, ∀ m, k ≤ m → ∀ (tr : Bool) (env : Env) (s : Store) (base : Nat),
    s.HasFrom base (waitingCells env p.parts) →
    ∃ t, (deepen m (p.shell base)).Ends tr s (.value p.widen) t ∧
      s.KeepsOutside base p.parts.length t

/-- A part is computed when it is needed. -/
theorem Computes.force {p : Plain} (h : Computes p) :
    ∃ k, ∀ m, k ≤ m → ∀ (tr : Bool) (env : Env) (s : Store) (a : Nat),
      s.get? a = some (.delayed (.term p.toTerm env)) →
      ∃ t, (do deepen m (← perform m (.force a)) : Run _).Ends tr s (.value p.widen) t ∧
        s.KeepsBut a t := by
  obtain ⟨k, hk⟩ := h
  refine ⟨k + 2, fun m hm tr env s a ha => ?_⟩
  obtain ⟨j, rfl⟩ := Nat.exists_eq_add_of_le hm
  have hforce : (perform (k + 2 + j) (.force a)).Ends tr s (.value (p.shell s.next))
      ((s.set a (.done (p.shell s.next))).append (waitingCells env p.parts)) := by
    rw [show k + 2 + j = k + j + 1 + 1 by omega]
    refine force_append ha fun t ht => ?_
    rw [← ht]
    exact eval_toTerm p (k + j) env tr t
  have hnext : (s.set a (.done (p.shell s.next))).next = s.next := Store.next_set s a _
  have hcells : ((s.set a (.done (p.shell s.next))).append (waitingCells env p.parts)).HasFrom
      s.next (waitingCells env p.parts) := by
    have h := Store.hasFrom_append (s.set a (.done (p.shell s.next))) (waitingCells env p.parts)
    rwa [hnext] at h
  obtain ⟨t, ht, hkeeps⟩ := hk (k + 2 + j) (by omega) tr env _ _ hcells
  refine ⟨t, hforce.bind ht, fun b c hb hc => ?_⟩
  have hset : (s.set a (.done (p.shell s.next))).get? b = some c := by
    rw [Store.get?_set, if_neg (Ne.symm hb), hc]
  exact hkeeps b c (Store.get?_append_of_some hset _) (Or.inl (Store.lt_next_of_get? hc))

/-- One part is computed and then the others, which still wait. -/
theorem Store.HasFrom.rest {c : Cell} {cs : List Cell} (hs : s.HasFrom base (c :: cs))
    (ht : s.KeepsBut base t) : t.HasFrom (base + 1) cs := by
  intro i d hd
  exact ht (base + 1 + i) d (by omega) (hs.tail i d hd)

theorem Store.KeepsBut.outside {count : Nat} (hs : s.KeepsBut base t)
    (ht : t.KeepsOutside (base + 1) count u) : s.KeepsOutside base (count + 1) u := by
  intro a c hc hout
  have hne : a ≠ base := by omega
  exact ht a c (hs a c hne hc) (by omega)

mutual

theorem computes : ∀ p : Plain, p.Ascending → Computes p
  | .text text, _ => by
    refine ⟨1, fun m hm tr env s base _ => ⟨s, ?_, fun a c hc _ => hc⟩⟩
    obtain ⟨j, rfl⟩ := Nat.exists_eq_add_of_le' hm
    exact pure _ tr s
  | .list items, h => by
    obtain ⟨k, hk⟩ := items_compute items h
    refine ⟨k + 1, fun m hm tr env s base hs => ?_⟩
    obtain ⟨j, rfl⟩ := Nat.exists_eq_add_of_le' (Nat.le_trans (Nat.le_add_left 1 k) hm)
    obtain ⟨t, ht, hkeeps⟩ := hk j (Nat.le_of_succ_le_succ hm) tr env s base hs
    refine ⟨t, ht.bind (pure _ tr t), ?_⟩
    rw [Data.parts, length_dataTerms]
    exact hkeeps
  | .dict entries, h => by
    obtain ⟨k, hk⟩ := entries_compute entries h.2
    refine ⟨k + 1, fun m hm tr env s base hs => ?_⟩
    obtain ⟨j, rfl⟩ := Nat.exists_eq_add_of_le' (Nat.le_trans (Nat.le_add_left 1 k) hm)
    obtain ⟨t, ht, hkeeps⟩ := hk j (Nat.le_of_succ_le_succ hm) tr env s base hs
    have hlength : (entries.map Prod.fst).length = (List.range' base entries.length).length := by
      rw [List.length_map, List.length_range']
    have hentries := Table.entries_ofList_of_ascending
      (List.pairwise_map.mp ((List.map_fst_zip (Nat.le_of_eq hlength)).symm ▸ h.1))
    rw [← hentries] at ht
    refine ⟨t, ht.bind (pure _ tr t), ?_⟩
    rw [Data.parts, List.length_map, length_dataEntries]
    exact hkeeps
  | .function f, _ => nomatch f

theorem items_compute : ∀ ps : List Plain, ItemsAscending ps →
    ∃ k, ∀ m, k ≤ m → ∀ (tr : Bool) (env : Env) (s : Store) (base : Nat),
      s.HasFrom base (waitingCells env (dataTerms ps)) →
      ∃ t, (Run.forEach (fun a => do deepen m (← perform m (.force a)))
          (List.range' base ps.length)).Ends tr s (.value (widenItems ps)) t ∧
        s.KeepsOutside base ps.length t
  | [], _ => ⟨0, fun m _ tr env s base _ => ⟨s, pure _ tr s, fun a c hc _ => hc⟩⟩
  | p :: rest, h => by
    obtain ⟨k, hk⟩ := (computes p h.1).force
    obtain ⟨l, hl⟩ := items_compute rest h.2
    refine ⟨max k l, fun m hm tr env s base hs => ?_⟩
    obtain ⟨t, ht, hfirst⟩ := hk m (Nat.le_trans (Nat.le_max_left k l) hm) tr env s base
      (hs 0 _ rfl)
    obtain ⟨u, hu, hrest⟩ := hl m (Nat.le_trans (Nat.le_max_right k l) hm) tr env t (base + 1)
      (hs.rest hfirst)
    exact ⟨u, ht.bind (hu.bind (pure _ tr u)), hfirst.outside hrest⟩

theorem entries_compute : ∀ ps : List (String × Plain), EntriesAscending ps →
    ∃ k, ∀ m, k ≤ m → ∀ (tr : Bool) (env : Env) (s : Store) (base : Nat),
      s.HasFrom base (waitingCells env ((dataEntries ps).map Prod.snd)) →
      ∃ t, (Run.forEach (fun e => do let d ← deepen m (← perform m (.force e.2)); return (e.1, d))
          ((ps.map Prod.fst).zip (List.range' base ps.length))).Ends tr s
            (.value (widenEntries ps)) t ∧
        s.KeepsOutside base ps.length t
  | [], _ => ⟨0, fun m _ tr env s base _ => ⟨s, pure _ tr s, fun a c hc _ => hc⟩⟩
  | (key, p) :: rest, h => by
    obtain ⟨k, hk⟩ := (computes p h.1).force
    obtain ⟨l, hl⟩ := entries_compute rest h.2
    refine ⟨max k l, fun m hm tr env s base hs => ?_⟩
    obtain ⟨t, ht, hfirst⟩ := hk m (Nat.le_trans (Nat.le_max_left k l) hm) tr env s base
      (hs 0 _ rfl)
    obtain ⟨u, hu, hrest⟩ := hl m (Nat.le_trans (Nat.le_max_right k l) hm) tr env t (base + 1)
      (hs.rest hfirst)
    have hentry : ((do deepen m (← perform m (.force base)) : Run _) >>= fun d =>
        (return (key, d) : Run _)).Ends tr s (.value (key, p.widen)) t := ht.bind (pure _ tr t)
    rw [Run.bind_assoc] at hentry
    exact ⟨u, hentry.bind (hu.bind (pure _ tr u)), hfirst.outside hrest⟩

end

end LazyConfig
