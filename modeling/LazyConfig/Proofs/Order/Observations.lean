import LazyConfig.Proofs.Order.Operations
set_option autoImplicit false

/-!
# Order: observations agree

A session and a later state of it plan the same for an operation that the earlier one can be
asked, and the earlier store lags behind the later one.  So what is observed later is observed
earlier, with a larger allowance if more is left to be computed; and what is observed earlier
is observed later with the same allowance.
-/

namespace LazyConfig

/-! ## Answers -/

/-- The answer that tells an outcome. -/
def Outcome.answer {α : Type} (tell : α → Answer) : Outcome α → Answer
  | .value a => tell a
  | .error e => .failed e
  | .exhausted => .exhausted

theorem ErrorAlike.same_failure {γ : Link} {e e' : EvalError} (h : ErrorAlike γ e e') :
    e.Same e' := by
  cases h with
  | same e => exact .refl e
  | recursion hc => exact .recursion (ErrorAlike.recursion hc).message_eq

/-- Answers under all allowances agree with one that is given later under a certain
allowance. -/
inductive AnswersAgree (n : Nat) (answers : Nat → Answer) (later : Answer) : Prop where
  | same (k : Nat) (hlater : later ≠ .exhausted) (h : ∀ m, k ≤ m → (answers m).Same later)
  | exhausted (hlater : later = .exhausted) (h : answers n = .exhausted)

section

variable {β : Link} {n : Nat} {tr : Bool} {r t : Store} {H : History}

theorem Lags.Ends.answersAgree {α : Type} {p : Script α} {o' : Outcome α}
    (tell : α → Answer) (htell : ∀ a, tell a ≠ .exhausted)
    (h : Lags.Ends β n (fun _ => Eq) p tr r t o') :
    AnswersAgree n (fun m => ((p.run m tr r).outcome).answer tell) (o'.answer tell) := by
  cases h with
  | @value K γ v w s' hle hp hfits hlags =>
    subst hfits
    obtain ⟨k, hk⟩ := hp
    refine .same k (htell v) fun m hm => ?_
    simp only [(hk m hm).1]
    exact .refl _
  | error h =>
    obtain ⟨γ, e, hee, k, hk⟩ := h
    refine .same k nofun fun m hm => ?_
    simp only [hk m hm]
    exact .failed hee.same_failure
  | exhausted h =>
    have hout : (p.run n tr r).outcome = .exhausted := h
    refine .exhausted rfl ?_
    simp only [hout]
    rfl

/-! ## Values and their data -/

/-- What can be seen of a value apart from the marks does not depend on the store. -/
theorem ValueAlike.unmarked_eq {v w : Value} (h : ValueAlike β v w) (s s' : Store) :
    (v.view s).unmarked = (w.view s').unmarked := by
  cases h with
  | text text => rfl
  | list hi => simp [Value.view, View.unmarked, Inside.unmarked, Value.summary, hi.length_eq]
  | @dict entries entries' he =>
    have hmarks : ∀ (es : List (String × Addr)) (u : Store),
        ((es.map fun e => (e.1, u.isDone e.2)).map fun e => (e.1, false)) =
          (es.map Prod.fst).map fun key => (key, false) := by
      intro es u
      rw [List.map_map, List.map_map]
      rfl
    have hsummary := (ValueAlike.dict he).summary_eq
    simp only [Value.view, View.unmarked, Inside.unmarked, Table.map, hmarks, he.keys_eq, hsummary]
  | closure he => rfl
  | builtin hi => simp [Value.view, View.unmarked, Inside.unmarked, Value.summary, hi.length_eq]

/-- What is observed of a script for a value. -/
def Script.seen (n : Nat) (tr : Bool) (p : Script Value) (r : Store) : Observation :=
  match (p.run n tr r).outcome with
  | .value v => .value (v.view (p.run n tr r).store).unmarked
      ((LazyConfig.deepen n v tr (p.run n tr r).store).outcome.answer .data)
  | .error e => .answer (.failed e)
  | .exhausted => .answer .exhausted

namespace Script

variable {p : Script Value}

theorem seen_of_value {v : Value} (h : (p.run n).Ends tr r (.value v) t) :
    p.seen n tr r =
      .value (v.view t).unmarked ((LazyConfig.deepen n v tr t).outcome.answer .data) := by
  obtain ⟨ho, rfl⟩ := h
  simp only [seen, ho]

theorem seen_of_error {e : EvalError} (h : (p.run n tr r).outcome = .error e) :
    p.seen n tr r = .answer (.failed e) := by
  simp only [seen, h]

theorem seen_of_exhausted (h : (p.run n tr r).outcome = .exhausted) :
    p.seen n tr r = .answer .exhausted := by
  simp only [seen, h]

end Script

/-- Observations under all allowances agree with one that is made later under a certain
allowance. -/
inductive ObservationsAgree (n : Nat) (observations : Nat → Observation) (later : Observation) :
    Prop where
  | same (k : Nat) (hlater : later.Finished) (h : ∀ m, k ≤ m → (observations m).Same later)
  | unfinished (hlater : ¬ later.Finished) (h : ¬ (observations n).Finished)

theorem AnswersAgree.observations {answers : Nat → Answer} {later : Answer}
    (h : AnswersAgree n answers later) :
    ObservationsAgree n (fun m => .answer (answers m)) (.answer later) := by
  cases h with
  | same k hlater h => exact .same k hlater fun m hm => .answer (h m hm)
  | exhausted hlater h => exact .unfinished (fun hf => hf hlater) fun hf => hf h

/-- A value that is observed ahead is observed behind. -/
theorem Lags.seen (h : Lags H β r t) {p p' : Script Value} (hp : ScriptAlike ValueAlike β p p')
    (n : Nat) (tr : Bool) :
    ObservationsAgree n (fun m => p.seen m tr r) (p'.seen n tr t) := by
  have hends := h.run hp n tr
  cases ho : (p'.run n tr t).outcome with
  | value w =>
    rw [ho] at hends
    cases hends with
    | @value K γ v w s' hle hcomes hfits hlags =>
      rw [Script.seen_of_value ⟨ho, rfl⟩]
      have hdata := hlags.run (.job (.deepen hfits)) n tr
      rw [Script.run_job] at hdata
      have hagree := hdata.answersAgree .data fun _ => nofun
      have hview := hfits.unmarked_eq s' (p'.run n tr t).store
      cases hagree with
      | same k hlater hsame =>
        obtain ⟨l, hl⟩ := hcomes
        refine .same (max k l) hlater fun m hm => ?_
        rw [Script.seen_of_value (hl m (Nat.le_trans (Nat.le_max_right k l) hm)), hview]
        have hanswer := hsame m (Nat.le_trans (Nat.le_max_left k l) hm)
        rw [Script.run_job] at hanswer
        exact .value _ hanswer
      | exhausted hlater hout =>
        -- Here the allowance may be used up before there is a value, or for its data.
        refine .unfinished (fun hf => hf hlater) fun hf => ?_
        by_cases hn : (p.run n tr r).outcome = .exhausted
        · rw [Script.seen_of_exhausted hn] at hf
          exact hf rfl
        · rw [Script.seen_of_value (hcomes.ends hn)] at hf
          rw [Script.run_job] at hout
          exact hf hout
  | error e' =>
    rw [ho] at hends
    cases hends with
    | error hmeets =>
      obtain ⟨γ, e, hee, k, hk⟩ := hmeets
      rw [Script.seen_of_error ho]
      refine .same k nofun fun m hm => ?_
      rw [Script.seen_of_error (hk m hm)]
      exact .answer (.failed hee.same_failure)
  | exhausted =>
    rw [ho] at hends
    cases hends with
    | exhausted hmeets =>
      rw [Script.seen_of_exhausted ho]
      refine .unfinished (fun hf => hf rfl) fun hf => ?_
      rw [Script.seen_of_exhausted hmeets] at hf
      exact hf rfl

end

/-! ## Sessions -/

/-- What a session may plan when it is asked for a value, for data or for a text. -/
inductive Plan.Asked : Plan → Prop where
  | absent : Asked (.reply .absent)
  | nowhere : Asked (.reply .nowhere)
  | value (p : Script Value) : Asked (.value p)
  | data (p : Script (Data FunctionKind)) : Asked (.data p)
  | program (p : Script Expr) : Asked (.program p)

namespace Session

variable {s t : Session} {n m : Nat} {tr : Bool}

theorem running_answer (s : Session) (tr : Bool) {α : Type} (p : Run α) (tell : α → Answer) :
    (s.running tr p fun s a => (s, tell a)).answer = (p tr s.store).outcome.answer tell := by
  unfold running
  rcases p tr s.store with ⟨outcome, u, notes⟩
  cases outcome <;> rfl

theorem observe_of_ne_kept {turn : Turn} (h : ∀ i view, turn.answer ≠ .kept i view) :
    turn.observe n tr = .answer turn.answer := by
  unfold Turn.observe
  cases ha : turn.answer with
  | kept i view => exact absurd ha (h i view)
  | _ => rfl

/-- What is observed when a value is kept. -/
theorem observe_follow_value (s : Session) (n : Nat) (tr : Bool) (p : Script Value) :
    (s.follow n tr (.value p)).observe n tr = p.seen n tr s.store := by
  rw [follow_value]
  unfold running Turn.observe
  rcases hr : p.run n tr s.store with ⟨outcome, u, notes⟩
  cases outcome with
  | value v =>
    have hends : (p.run n).Ends tr s.store (.value v) u := by
      rw [Run.Ends, hr]
      exact ⟨rfl, rfl⟩
    have hkept : (s.values.push v)[s.values.size]? = some v := Array.getElem?_push_size
    rw [Script.seen_of_value hends]
    simp only [keep, perform, hkept, running_answer]
  | error e => rw [Script.seen_of_error (by rw [hr])]
  | exhausted => rw [Script.seen_of_exhausted (by rw [hr])]

/-- What is observed when the answer tells the outcome. -/
theorem observe_running (s : Session) (n : Nat) (tr : Bool) {α : Type} (p : Run α)
    (tell : α → Answer) (htell : ∀ a i view, tell a ≠ .kept i view) :
    (s.running tr p fun s a => (s, tell a)).observe n tr =
      .answer ((p tr s.store).outcome.answer tell) := by
  rw [observe_of_ne_kept, running_answer]
  intro i view
  rw [running_answer]
  cases (p tr s.store).outcome with
  | value a => exact htell a i view
  | error e => exact nofun
  | exhausted => exact nofun

theorem observe_follow_data (s : Session) (n : Nat) (tr : Bool)
    (p : Script (Data FunctionKind)) :
    (s.follow n tr (.data p)).observe n tr =
      .answer ((p.run n tr s.store).outcome.answer .data) := by
  rw [follow_data]
  exact s.observe_running n tr (p.run n) .data fun _ _ _ => nofun

theorem observe_follow_program (s : Session) (n : Nat) (tr : Bool) (p : Script Expr) :
    (s.follow n tr (.program p)).observe n tr =
      .answer ((p.run n tr s.store).outcome.answer fun e => .text (e.render .normal)) := by
  rw [follow_program]
  exact s.observe_running n tr (p.run n) (fun e => .text (e.render .normal)) fun _ _ _ => nofun

/-- Alike plans over two stores, one of which lags behind the other. -/
theorem observations_agree {β : Link} {H : History} (h : Lags H β s.store t.store)
    {plan plan' : Plan} (hasked : plan.Asked) (hplan : PlanAlike β plan plan') (n : Nat)
    (tr : Bool) :
    ObservationsAgree n (fun m => (s.follow m tr plan).observe m tr)
      ((t.follow n tr plan').observe n tr) := by
  cases hplan with
  | reply answer =>
    refine .same 0 ?_ fun m _ => ?_
    · cases hasked <;> exact nofun
    · cases hasked <;> exact .answer (.refl _)
  | value hp =>
    simp only [observe_follow_value]
    exact h.seen hp n tr
  | env hp => exact nomatch hasked
  | data hp =>
    simp only [observe_follow_data]
    exact ((h.run hp n tr).answersAgree .data fun _ => nofun).observations
  | program hp =>
    simp only [observe_follow_program]
    exact ((h.run hp n tr).answersAgree (fun e => .text (e.render .normal))
      fun _ => nofun).observations

/-! ## Operations on a later session -/

theorem planEnv_eq (hk : s.Keeps t) {i : Nat} (hi : i < s.envs.size) (plan : Env → Plan) :
    t.planEnv i plan = s.planEnv i plan := by
  have hget : s.envs[i]? = some s.envs[i] := Array.getElem?_eq_getElem hi
  simp only [planEnv, hget, hk.envs i _ hget]

theorem planValue_eq (hk : s.Keeps t) {i : Nat} (hi : i < s.values.size) (plan : Value → Plan) :
    t.planValue i plan = s.planValue i plan := by
  have hget : s.values[i]? = some s.values[i] := Array.getElem?_eq_getElem hi
  simp only [planValue, hget, hk.values i _ hget]

theorem asked_planEnv (i : Nat) {plan : Env → Plan} (h : ∀ env, (plan env).Asked) :
    (s.planEnv i plan).Asked := by
  unfold planEnv
  split
  · exact .nowhere
  · exact h _

theorem asked_planValue (i : Nat) {plan : Value → Plan} (h : ∀ v, (plan v).Asked) :
    (s.planValue i plan).Asked := by
  unfold planValue
  split
  · exact .nowhere
  · exact h _

/-- A later session plans the same. -/
theorem planFor_eq (hk : s.Keeps t) {q : Operation} (hq : q.AsksOf s) :
    t.planFor q = s.planFor q := by
  cases q with
  | command c =>
    cases c with
    | bind env bindings => exact hq.elim
    | contains env name => exact hq.elim
    | marks env => exact hq.elim
    | lookup env name => exact planEnv_eq hk hq _
    | evaluate env u => exact planEnv_eq hk hq _
    | call env name arguments => exact planEnv_eq hk hq _
    | apply value env argument =>
      exact (planValue_eq hk hq.1 _).trans
        (congrArg (s.planValue value) (funext fun f => planEnv_eq hk hq.2 _))
    | item value position => exact planValue_eq hk hq _
    | entry value key => exact planValue_eq hk hq _
    | view value => exact hq.elim
    | deepen value => exact planValue_eq hk hq _
    | render value => exact planValue_eq hk hq _
  | apply value argument =>
    have hlater : argument < t.store.next := Nat.lt_of_lt_of_le hq.2 hk.store.next_le
    refine (planValue_eq hk hq.1 _).trans (congrArg (s.planValue value) (funext fun f => ?_))
    rw [if_pos hlater, if_pos hq.2]

theorem asked_planFor {q : Operation} (hq : q.AsksOf s) : (s.planFor q).Asked := by
  have asked_planCell : ∀ a, (planCell .absent a).Asked ∧ (planCell .nowhere a).Asked := by
    intro a
    cases a with
    | none => exact ⟨.absent, .nowhere⟩
    | some a => exact ⟨.value _, .value _⟩
  cases q with
  | command c =>
    cases c with
    | bind env bindings => exact hq.elim
    | contains env name => exact hq.elim
    | marks env => exact hq.elim
    | lookup env name => exact asked_planEnv env fun scope => (asked_planCell _).1
    | evaluate env u => exact asked_planEnv env fun scope => .value _
    | call env name arguments => exact asked_planEnv env fun scope => .value _
    | apply value env argument =>
      exact asked_planValue value fun f => asked_planEnv env fun scope => .value _
    | item value position =>
      refine asked_planValue value fun v => ?_
      cases v with
      | list items => exact (asked_planCell _).2
      | _ => exact .nowhere
    | entry value key =>
      refine asked_planValue value fun v => ?_
      cases v with
      | dict entries => exact (asked_planCell _).2
      | _ => exact .nowhere
    | view value => exact hq.elim
    | deepen value => exact asked_planValue value fun v => .data _
    | render value => exact asked_planValue value fun v => .program _
  | apply value argument =>
    refine asked_planValue value fun f => ?_
    rw [if_pos hq.2]
    exact .value _

/-! ## Larger allowances -/

theorem running_eq_of_le (hnm : n ≤ m) {α : Type} {p : Script α}
    {finish : Session → α → Session × Answer}
    (h : (s.running tr (p.run n) finish).answer ≠ .exhausted) :
    s.running tr (p.run m) finish = s.running tr (p.run n) finish := by
  have hout : (p.run n tr s.store).outcome ≠ .exhausted := by
    intro ho
    unfold running at h
    rcases hr : p.run n tr s.store with ⟨outcome, u, notes⟩
    obtain rfl : outcome = .exhausted := by rw [← ho, hr]
    rw [hr] at h
    exact h rfl
  unfold running
  rw [p.run_eq_of_le hnm hout]

/-- A turn that does not use up its allowance is the same with a larger one. -/
theorem follow_eq_of_le (hnm : n ≤ m) {plan : Plan} (h : (s.follow n tr plan).answer ≠ .exhausted) :
    s.follow m tr plan = s.follow n tr plan := by
  cases plan with
  | reply answer => rfl
  | value p => exact running_eq_of_le hnm h
  | env p => exact running_eq_of_le hnm h
  | data p => exact running_eq_of_le hnm h
  | program p => exact running_eq_of_le hnm h

theorem observe_eq_of_le (hnm : n ≤ m) {q : Operation} (h : (s.observe n tr q).Finished) :
    s.observe m tr q = s.observe n tr q := by
  unfold observe at h ⊢
  rw [operate_eq_follow] at h ⊢
  rw [operate_eq_follow]
  have hturn : (s.follow n tr (s.planFor q)).answer ≠ .exhausted := by
    intro ha
    unfold Turn.observe at h
    rw [ha] at h
    exact h rfl
  rw [follow_eq_of_le hnm hturn]
  unfold Turn.observe at h ⊢
  cases ha : (s.follow n tr (s.planFor q)).answer with
  | kept value view =>
    rw [ha] at h
    have hdata : ((s.follow n tr (s.planFor q)).session.perform n tr (.deepen value)).answer ≠
        .exhausted := h
    simp only [perform_eq_follow] at hdata ⊢
    rw [follow_eq_of_le hnm hdata]
  | _ => rfl

/-! ## Whatever came before -/

theorem Idle.busy (h : s.Idle) : s.store.Busy [] := fun b =>
  ⟨fun hb => absurd hb List.not_mem_nil, fun ⟨k, hk⟩ => absurd hk (h b k)⟩

/-- An operation is answered earlier as it is answered after some attempts. -/
theorem Reached.observations_agree (hs : s.Reached) (attempts : List Attempt) {q : Operation}
    (hq : q.AsksOf s) (n : Nat) (tr : Bool) :
    ObservationsAgree n (fun m => s.observe m tr q) ((s.after attempts).observe n tr q) := by
  obtain ⟨K, hlags⟩ := lags_after (hs.sound.closed.lags hs.idle.busy) attempts
  have hplan : (s.after attempts).planFor q = s.planFor q := planFor_eq (s.after_keeps attempts) hq
  simp only [observe, operate_eq_follow, hplan]
  exact Session.observations_agree hlags (asked_planFor hq) (hs.sound.planFor_alike q) n tr

end Session

/-- Whatever is tried first in a session, in any order and with any allowances, and whether it
gives values, fails or has to be given up, it does not change what is observed of an operation
later on.  What is observed at once with some allowance is observed afterwards with the same
allowance.  What is observed afterwards is observed at once with every allowance that is large
enough: more may be left to be computed. -/
theorem observe_after_attempts {s : Session} (hs : s.Reached) (attempts : List Attempt)
    {q : Operation} (hq : q.AsksOf s) (tr : Bool) :
    (∀ n, (s.observe n tr q).Finished →
      (s.observe n tr q).Same ((s.after attempts).observe n tr q)) ∧
      ∀ n, ((s.after attempts).observe n tr q).Finished →
        ∃ k, ∀ m, k ≤ m → (s.observe m tr q).Same ((s.after attempts).observe n tr q) := by
  refine ⟨fun n hn => ?_, fun n hn => ?_⟩
  · cases hs.observations_agree attempts hq n tr with
    | same k _ h =>
      -- The agreement is about large allowances, and what has finished stays as it is there.
      have hsame := h (max k n) (Nat.le_max_left k n)
      rwa [Session.observe_eq_of_le (Nat.le_max_right k n) hn] at hsame
    | unfinished _ h => exact absurd hn h
  · cases hs.observations_agree attempts hq n tr with
    | same k _ h => exact ⟨k, h⟩
    | unfinished hlater _ => exact absurd hn hlater

/-- The list of two items of which the first one fails. -/
def Session.halfBroken : Session :=
  (Session.start.perform 3 false (.evaluate 0 (.list [.var "x", .text "t"]))).session

/-- The second item of a list is what it is, after the first one failed and after all of the
list failed. -/
theorem observe_after_failures :
    Session.halfBroken.Reached ∧ (Operation.command (.item 0 1)).AsksOf Session.halfBroken ∧
      Session.halfBroken.observe 3 false (.command (.item 0 1)) =
        .value ⟨.text "t", .nothing⟩ (.data (.text "t")) ∧
      (Session.halfBroken.observe 3 false (.command (.item 0 1))).Same
        ((Session.halfBroken.after
          [⟨.command (.item 0 0), 3, false⟩, ⟨.command (.deepen 0), 4, false⟩]).observe 3 false
            (.command (.item 0 1))) := by
  have hs : Session.halfBroken.Reached := (Session.Reachable.perform .start 3 false _).reached
  have hsize : 0 < Session.halfBroken.values.size := by decide
  have hq : (Operation.command (.item 0 1)).AsksOf Session.halfBroken := hsize
  have hvalue : Session.halfBroken.observe 3 false (.command (.item 0 1)) =
      .value ⟨.text "t", .nothing⟩ (.data (.text "t")) := rfl
  have hfinished : (Session.halfBroken.observe 3 false (.command (.item 0 1))).Finished := nofun
  exact ⟨hs, hq, hvalue, (observe_after_attempts hs _ hq false).1 3 hfinished⟩

end LazyConfig
