import LazyConfig.Proofs.Lockstep.Same
import LazyConfig.Proofs.Order.Observations
import LazyConfig.Proofs.Printing.Evaluation
import LazyConfig.Proofs.Printing.Traversals
set_option autoImplicit false

/-!
# Printing: a printed result is a program for the same result

The program that `express` gives is the one that stands for the data, it is printed like the
canonical one, the reader gives the canonical one back, and its core term is evaluated to the
data.  So the text tells the data, and the data tells the text.

Where `express` runs behind `deepen`, the cells are computed already.  A store lags behind its
later states, so what is expressed there is what would have been expressed at once.
-/

namespace LazyConfig

/-- The text is a program whose data this is, in every environment and over every store. -/
def IsProgramFor (text : String) (d : Data FunctionKind) : Prop :=
  ∃ t k, (Source.text text).toTerm = .ok t ∧
    ∀ m, k ≤ m → ∀ (tr : Bool) (env : Env) (s : Store),
      (computeShared m t env tr s).outcome = .value d

theorem IsProgramFor.unique {text : String} {d d' : Data FunctionKind} (h : IsProgramFor text d)
    (h' : IsProgramFor text d') : d = d' := by
  obtain ⟨t, k, ht, hk⟩ := h
  obtain ⟨t', k', ht', hk'⟩ := h'
  obtain rfl : t = t' := Except.ok.inj (ht.symm.trans ht')
  have hd := hk (max k k') (Nat.le_max_left k k') false Table.empty Store.empty
  have hd' := hk' (max k k') (Nat.le_max_right k k') false Table.empty Store.empty
  exact Outcome.value.inj (hd.symm.trans hd')

/-- The program of plain data is printed as a program for it. -/
theorem isProgramFor_toExpr {p : Plain} (h : p.Ascending) :
    IsProgramFor ((p.toExpr Template.ofText).render .normal) p.widen := by
  obtain ⟨k, hk⟩ := computes p h
  refine ⟨p.toTerm, k + 1, toTerm_render p h, fun m hm tr env s => ?_⟩
  obtain ⟨j, rfl⟩ := Nat.exists_eq_add_of_le' (Nat.le_trans (Nat.le_add_left 1 k) hm)
  have heval := eval_toTerm p j env tr s
  obtain ⟨t, ht, -⟩ := hk (j + 1) (Nat.le_of_succ_le hm) tr env _ s.next
    (Store.hasFrom_append s (waitingCells env p.parts))
  exact (heval.bind ht).1

/-! ## Data and program of a value -/

/-- How the program of a value turns out, given how its data does: data without functions has
a program for it, data with a function has none, and where there is no data, there is no
program. -/
structure GoesWith (data : Outcome (Data FunctionKind)) (program : Outcome Expr) : Prop where
  /-- The program is printed as a text for the same data. -/
  plain : ∀ d, data = .value d → d.hasFunction = false →
    ∃ e, program = .value e ∧ IsProgramFor (e.render .normal) d
  /-- A function is of the wrong type. -/
  function : ∀ d, data = .value d → d.hasFunction = true →
    ∃ e, program = .error e ∧ e.errorClass? = some .typeMismatch
  /-- The program fails in the same way, or because of a function that comes first. -/
  failure : ∀ e, data = .error e →
    ∃ e', program = .error e' ∧
      (e'.errorClass? = e.errorClass? ∨ e'.errorClass? = some .typeMismatch)

theorem express_goesWith (n : Nat) (v : Value) (tr : Bool) (s : Store) :
    GoesWith (deepen n v tr s).outcome (express n v tr s).outcome := by
  have htracks := express_tracks n v tr s
  have hascending : ∀ d, (deepen n v tr s).outcome = .value d → d.Ascending := fun d =>
    ascending_deepen
  generalize deepen n v tr s = r at htracks hascending
  generalize express n v tr s = r' at htracks
  cases htracks with
  | value h h' _ hfits =>
    obtain ⟨p, rfl, rfl⟩ := hfits
    refine ⟨fun d hd _ => ?_, fun d hd hf => ?_, fun e he => (nomatch h.symm.trans he)⟩
    · obtain rfl := Outcome.value.inj (h.symm.trans hd)
      exact ⟨_, h', isProgramFor_toExpr (p.ascending_widen (hascending _ h))⟩
    · obtain rfl := Outcome.value.inj (h.symm.trans hd)
      exact absurd (p.hasFunction_widen.symm.trans hf) Bool.false_ne_true
  | error h h' =>
    refine ⟨fun d hd => (nomatch h.symm.trans hd), fun d hd => (nomatch h.symm.trans hd),
      fun e he => ⟨_, h', Or.inl ?_⟩⟩
    rw [Outcome.error.inj (h.symm.trans he)]
  | exhausted h h' =>
    exact ⟨fun d hd => (nomatch h.symm.trans hd), fun d hd => (nomatch h.symm.trans hd),
      fun e he => (nomatch h.symm.trans he)⟩
  | refused h' hblocks =>
    refine ⟨fun d hd hf => ?_, fun d _ _ => ⟨_, h', rfl⟩, fun e _ => ⟨_, h', Or.inr rfl⟩⟩
    exact absurd (hf.symm.trans (hblocks d hd)) Bool.false_ne_true

theorem GoesWith.of_same {data : Outcome (Data FunctionKind)} {program program' : Outcome Expr}
    (h : GoesWith data program) (hsame : program ≠ .exhausted → program.Same program') :
    GoesWith data program' := by
  refine ⟨fun d hd hf => ?_, fun d hd hf => ?_, fun e he => ?_⟩
  · obtain ⟨e, rfl, htext⟩ := h.plain d hd hf
    cases hsame nofun with
    | value => exact ⟨e, rfl, htext⟩
  · obtain ⟨e, rfl, hclass⟩ := h.function d hd hf
    cases hsame nofun with
    | error hclass' => exact ⟨_, rfl, hclass'.symm.trans hclass⟩
  · obtain ⟨e', rfl, hclass⟩ := h.failure e he
    cases hsame nofun with
    | error hclass' => exact ⟨_, rfl, hclass' ▸ hclass⟩

/-! ## Afterwards -/

/-- Behind computing all data of a kept value, its program is what it was. -/
theorem express_after_deepen {s : Session} (hs : s.Reachable) {i : Nat} {v : Value}
    (hv : s.values[i]? = some v) (n : Nat) (tr : Bool)
    (hfinished : (express n v tr s.store).outcome ≠ .exhausted) :
    (express n v tr s.store).outcome.Same
      (express n v tr (deepen n v tr s.store).store).outcome := by
  have hsound := hs.reached.sound
  have hlags := hsound.closed.lags (Session.Idle.busy hs.reached.idle)
  have hdeepen : (Script.job (.deepen v)).run n = deepen n v := Script.run_job n (.deepen v)
  have hexpress : ∀ m, (Script.job (.express v)).run m = express m v := fun m =>
    Script.run_job m (.express v)
  obtain ⟨K, own, hgrows, -⟩ := (Script.job (.deepen v)).hasAccount n _ s.store [] tr
    hlags.recorded hlags.idle
  have hends := (hlags.onward hgrows).run
    (ScriptAlike.job (.express (hsound.values i v hv))) n tr
  rw [hdeepen, hexpress] at hends
  have hlater : ∀ k, ∃ m, k ≤ m ∧
      (express m v tr s.store).outcome = (express n v tr s.store).outcome := by
    intro k
    have heq := (Script.job (.express v)).run_eq_of_le (Nat.le_max_right k n)
      (by rwa [hexpress])
    rw [hexpress, hexpress] at heq
    exact ⟨max k n, Nat.le_max_left k n, congrArg Result.outcome heq⟩
  cases ho : (express n v tr (deepen n v tr s.store).store).outcome with
  | value e =>
    rw [ho] at hends
    cases hends with
    | value _ hcomes hfits =>
      obtain ⟨k, hk⟩ := hcomes
      obtain ⟨m, hm, hsame⟩ := hlater k
      have hvalue := (hk m hm).1
      rw [hexpress, hsame] at hvalue
      rw [hvalue, show _ = e from hfits]
      exact .value e
  | error e =>
    rw [ho] at hends
    cases hends with
    | error h =>
      obtain ⟨γ, e', halike, k, hk⟩ := h
      obtain ⟨m, hm, hsame⟩ := hlater k
      have herror := hk m hm
      rw [hexpress, hsame] at herror
      rw [herror]
      exact .error halike.errorClass?_eq halike.message_eq
  | exhausted =>
    rw [ho] at hends
    cases hends with
    | exhausted h =>
      have hshort : ((Script.job (.express v)).run n tr s.store).outcome = .exhausted := h
      rw [hexpress] at hshort
      exact absurd hshort hfinished

/-! ## Printed results -/

/-- A printed result is a program for the same result.

The program of a value goes with its data, whatever the store and the allowance are; and it
does so behind `deepen` too, for every value that a session keeps.  Two values without
functions are printed as the same text exactly if they have the same data: keys ascend in the
data of a dict, so the order in which the dict was made is not to be seen. -/
theorem results_print_back :
    (∀ (n : Nat) (v : Value) (tr : Bool) (s : Store),
      GoesWith (deepen n v tr s).outcome (express n v tr s).outcome) ∧
    (∀ s : Session, s.Reachable → ∀ (i : Nat) (v : Value), s.values[i]? = some v →
      ∀ (n : Nat) (tr : Bool), GoesWith (deepen n v tr s.store).outcome
        (express n v tr (deepen n v tr s.store).store).outcome) ∧
    ∀ (n n' : Nat) (v v' : Value) (tr tr' : Bool) (s s' : Store) (d d' : Data FunctionKind)
      (e e' : Expr), (deepen n v tr s).outcome = .value d → d.hasFunction = false →
      (deepen n' v' tr' s').outcome = .value d' → d'.hasFunction = false →
      (express n v tr s).outcome = .value e → (express n' v' tr' s').outcome = .value e' →
      (e.render .normal = e'.render .normal ↔ d = d') := by
  refine ⟨express_goesWith, fun s hs i v hv n tr => ?_, ?_⟩
  · exact (express_goesWith n v tr s.store).of_same (express_after_deepen hs hv n tr)
  · intro n n' v v' tr tr' s s' d d' e e' hd hf hd' hf' he he'
    obtain ⟨b, hb, htext⟩ := (express_goesWith n v tr s).plain d hd hf
    obtain ⟨b', hb', htext'⟩ := (express_goesWith n' v' tr' s').plain d' hd' hf'
    obtain rfl : e = b := Outcome.value.inj (he.symm.trans hb)
    obtain rfl : e' = b' := Outcome.value.inj (he'.symm.trans hb')
    constructor
    · intro h
      rw [← h] at htext'
      exact htext.unique htext'
    · rintro rfl
      rw [(represents_of_values hd he).unique (represents_of_values hd' he')]

/-- An empty key, a keyword for a key and a text with characters that need escapes. -/
theorem results_print_back_escapes :
    let t : Term := .dict [("", .text ""), ("in", .list [.text "$\x7b\"\n"])]
    let s := (Session.start.perform 3 false (.evaluate 0 t)).session
    let d : Data FunctionKind := .dict [("", .text ""), ("in", .list [.text "$\x7b\"\n"])]
    ∃ v e, s.values[0]? = some v ∧ (deepen 4 v false s.store).outcome = .value d ∧
      (express 4 v false (deepen 4 v false s.store).store).outcome = .value e ∧
      IsProgramFor (e.render .normal) d := by
  intro t s d
  have hs : s.Reachable := .perform .start 3 false _
  have hv : s.values[0]? = some (.dict ⟨[("", 0), ("in", 1)], by decide⟩) := rfl
  have hd : (deepen 4 (.dict ⟨[("", 0), ("in", 1)], by decide⟩) false s.store).outcome =
      .value d := rfl
  obtain ⟨e, he, htext⟩ := (results_print_back.2.1 s hs 0 _ hv 4 false).plain d hd rfl
  exact ⟨_, e, hv, hd, he, htext⟩

end LazyConfig
