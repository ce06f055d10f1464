import LazyConfig.Eval.ByName
import LazyConfig.Proofs.Lockstep.Same
import LazyConfig.Proofs.Lockstep.Sessions
set_option autoImplicit false

/-!
# Lexical scope

What becomes of a term depends on the cells that its free names are bound to, and on nothing
else of its environment.  Two environments that agree on the free names are alike, so runs in
them go in lockstep, and what they give has the same data.

A binding whose name nobody needs has a cell, but no other cell and no value refers to it.  So
a run with the binding goes in lockstep with a run without it: the link leaves out the cell,
which is never forced.
-/

namespace LazyConfig

open Run.Ends

/-! ## Results -/

/-- The values of two runs from one store have the same data, or they or their data fail
alike. -/
def SameResult (tr : Bool) (s : Store) (p p' : Run Value) : Prop :=
  ∀ m, Outcome.Same ((do deepen m (← p) : Run (Data FunctionKind)) tr s).outcome
    ((do deepen m (← p') : Run (Data FunctionKind)) tr s).outcome

variable {β : Link} {n : Nat} {tr : Bool} {s : Store} {env env' : Env} {p p' p'' : Run Value}

namespace SameResult

theorem symm (h : SameResult tr s p p') : SameResult tr s p' p := fun m => (h m).symm

theorem trans (h : SameResult tr s p p') (h' : SameResult tr s p' p'') : SameResult tr s p p'' :=
  fun m => (h m).trans (h' m)

theorem of_alike (h : Alike β .silent ValueAlike (p tr s) (p' tr s)) : SameResult tr s p p' := by
  intro m
  obtain ⟨γ, -, -, ho⟩ : Alike β .silent (fun _ => Eq)
      ((do deepen m (← p) : Run (Data FunctionKind)) tr s)
      ((do deepen m (← p') : Run (Data FunctionKind)) tr s) :=
    Alike.bind h fun γ t t' v w _ ht hv => deepen_alike m ht hv
  exact ho.same

end SameResult

/-- A run may be replaced on the right by one that ends as it does. -/
theorem Alike.of_ends_right {α α' : Type} {Fits : Link → α → α' → Prop} {φ : Frame} {t : Store}
    {q q' : Run α'} {r : Result α}
    (h : q.Ends tr s (q' tr t).outcome (q' tr t).store) (halike : Alike β φ Fits r (q' tr t)) :
    Alike β φ Fits r (q tr s) := by
  obtain ⟨γ, hle, hs, ho⟩ := halike
  exact ⟨γ, hle, h.2 ▸ hs, h.1 ▸ ho⟩

/-! ## Environments -/

theorem Store.Closed.silent (h : s.Closed) : Linked s.self .silent s s :=
  h.linked.silent

/-- Environments that agree on the free names of a term, with the cells of one store. -/
theorem EnvAlike.of_agree {t : Term} (henv : s.Binds env)
    (h : ∀ x, t.hasFree x = true → env.get? x = env'.get? x) : EnvAlike s.self t env env' := by
  intro x hx
  rw [← h x hx]
  exact henv.paired x

/-- Environments that agree on the free names of a term give it the same result. -/
theorem sameResult_of_agree {t : Term} (hs : s.Closed) (henv : s.Binds env)
    (h : ∀ x, t.hasFree x = true → env.get? x = env'.get? x) :
    SameResult tr s (perform n (.eval t env)) (perform n (.eval t env')) :=
  .of_alike (perform_alike .silent tr tr n _ _ _ _ _ hs.silent (.eval (.of_agree henv h)))

/-! ## Bindings -/

/-- The positions of a list in a list that has one more member at a position. -/
def skip (k i : Nat) : Nat := if i < k then i else i + 1

theorem skip_injective {k i j : Nat} (h : skip k i = skip k j) : i = j := by
  unfold skip at h
  split at h <;> split at h <;> omega

theorem getElem?_skip {α : Type} (before behind : List α) (x : α) (i : Nat) :
    (before ++ x :: behind)[skip before.length i]? = (before ++ behind)[i]? := by
  unfold skip
  split
  · next h => rw [List.getElem?_append_left h, List.getElem?_append_left h]
  · next h =>
    have hle : before.length ≤ i := Nat.not_lt.mp h
    rw [List.getElem?_append_right hle, List.getElem?_append_right (Nat.le_succ_of_le hle),
      Nat.succ_sub hle, List.getElem?_cons_succ]

/-- The link that also pairs new cells of both stores in order, without one of the first. -/
def Link.extendSkipping (β : Link) (base base' k count : Nat) : Link := fun a c =>
  β a c ∨ ∃ i, i < count ∧ a = base + skip k i ∧ c = base' + i

theorem Link.le_extendSkipping (β : Link) (base base' k count : Nat) :
    β.Le (β.extendSkipping base base' k count) :=
  fun _ _ h => Or.inl h

/-- New cells may be linked all at once although one of the first store has none that stands
for it. -/
theorem Linked.append_skipping {s' : Store} (h : Linked β .silent s s') {k count : Nat}
    {cs ds : List Cell} (hcount : ds.length = count)
    (hcells : ∀ i d', ds[i]? = some d' → ∃ d, cs[skip k i]? = some d ∧
      CellAlike (β.extendSkipping s.next s'.next k count) d d') :
    Linked (β.extendSkipping s.next s'.next k count) .silent (s.append cs) (s'.append ds) where
  cells := by
    rintro a c (hac | ⟨i, hi, rfl, rfl⟩)
    · obtain ⟨d, d', hd, hd', halike⟩ := h.cells a c hac
      exact ⟨d, d', Store.get?_append_of_some hd cs, Store.get?_append_of_some hd' ds,
        halike.mono (β.le_extendSkipping _ _ _ _)⟩
    · have hi : i < ds.length := hcount ▸ hi
      obtain ⟨d, hd, halike⟩ := hcells i ds[i] (List.getElem?_eq_getElem hi)
      refine ⟨d, ds[i], ?_, ?_, halike⟩
      · rw [Store.get?_append_add, hd]
      · rw [Store.get?_append_add, List.getElem?_eq_getElem hi]
  forth := by
    rintro a c c' (hac | ⟨i, -, ha, hc⟩) (hac' | ⟨j, -, ha', hc'⟩)
    · exact h.forth a c c' hac hac'
    · exact absurd ha' (h.ne_new hac _).1
    · exact absurd ha (h.ne_new hac' _).1
    · obtain rfl : i = j := skip_injective (Nat.add_left_cancel (ha.symm.trans ha'))
      exact hc.trans hc'.symm
  back := by
    rintro a a' c (hac | ⟨i, -, ha, hc⟩) (hac' | ⟨j, -, ha', hc'⟩)
    · exact h.back a a' c hac hac'
    · exact absurd hc' (h.ne_new hac _).2
    · exact absurd hc (h.ne_new hac' _).2
    · obtain rfl : i = j := Nat.add_left_cancel (hc.symm.trans hc')
      exact ha.trans ha'.symm
  held := fun a d hd => hd.elim
  whole := fun hw => hw.elim

theorem bindFrom_append (base : Addr) (xs ys : List String) (env : Env) :
    bindFrom base (xs ++ ys) env = bindFrom (base + xs.length) ys (bindFrom base xs env) := by
  induction xs generalizing base env with
  | nil => rfl
  | cons x xs ih =>
    rw [List.cons_append, bindFrom, bindFrom, ih, List.length_cons, Nat.add_right_comm,
      Nat.add_assoc]

/-- Consecutive cells for names, and the same without one of them: the other names are bound
to linked cells. -/
theorem paired_bindFrom_skipping {before behind : List String} {x y : String} {base base' : Addr}
    (hyx : y ≠ x) (henv : Paired β (env.get? y) (env'.get? y))
    (hnew : ∀ i, i < before.length + behind.length → β (base + skip before.length i) (base' + i)) :
    Paired β ((bindFrom base (before ++ x :: behind) env).get? y)
      ((bindFrom base' (before ++ behind) env').get? y) := by
  have hfirst : ∀ i, i < before.length → β (base + i) (base' + i) := by
    intro i hi
    have h := hnew i (Nat.lt_add_right _ hi)
    rwa [skip, if_pos hi] at h
  have hsecond : ∀ i, i < behind.length →
      β (base + before.length + 1 + i) (base' + before.length + i) := by
    intro i hi
    have h := hnew (before.length + i) (Nat.add_lt_add_left hi _)
    rw [skip, if_neg (Nat.not_lt.mpr (Nat.le_add_right _ _))] at h
    simpa only [Nat.add_assoc, Nat.add_comm 1 i] using h
  rw [bindFrom_append, bindFrom_append, bindFrom]
  refine relate_bindFrom hsecond (Or.inr ?_)
  rw [Table.get?_insert, if_neg (Ne.symm hyx)]
  exact relate_bindFrom hfirst (Or.inr henv)

/-- The cells of recursive bindings in the environment that they make. -/
def bindingCells (bindings : List (String × Term)) (inner : Env) : List Cell :=
  ((bindings.map Prod.snd).map fun t => Suspension.term t inner).map .delayed

theorem getElem?_bindingCells (bindings : List (String × Term)) (inner : Env) (i : Nat) :
    (bindingCells bindings inner)[i]? =
      bindings[i]?.map fun e => .delayed (.term e.2 inner) := by
  simp [bindingCells, Function.comp_def]

theorem length_bindingCells (bindings : List (String × Term)) (inner : Env) :
    (bindingCells bindings inner).length = bindings.length := by
  simp [bindingCells]

/-- Recursive bindings have the value of their body, behind their cells. -/
theorem Run.Ends.eval_letrec {bindings : List (String × Term)} {body : Term} {o : Outcome Value}
    {t : Store}
    (h : (perform n (.eval body (bindFrom s.next (bindings.map Prod.fst) env))).Ends tr
      (s.append (bindingCells bindings (bindFrom s.next (bindings.map Prod.fst) env))) o t) :
    (perform (n + 1) (.eval (.letrec bindings body) env)).Ends tr s o t := by
  have hnote : (Run.note (.letrec (bindings.map Prod.fst))).Ends tr s (.value ()) s := ⟨rfl, rfl⟩
  have hnext : Run.nextAddr.Ends tr s (.value s.next) s := ⟨rfl, rfl⟩
  exact hnote.bind (hnext.bind ((Run.Ends.delayAll _ _ tr s).bind h))

/-- The environments of recursive bindings, with one that a term does not need and without
it. -/
theorem EnvAlike.bindFrom_skipping {before behind : List (String × Term)} {x : String} {u t : Term}
    (henv : s.Binds env) (ht : t.hasFree x = false) :
    EnvAlike (s.self.extendSkipping s.next s.next before.length (before ++ behind).length) t
      (LazyConfig.bindFrom s.next ((before ++ (x, u) :: behind).map Prod.fst) env)
      (LazyConfig.bindFrom s.next ((before ++ behind).map Prod.fst) env) := by
  intro y hy
  have hyx : y ≠ x := by
    rintro rfl
    exact Bool.false_ne_true (ht.symm.trans hy)
  rw [List.map_append, List.map_cons, List.map_append]
  refine paired_bindFrom_skipping hyx ((henv.paired y).imp fun _ _ => Or.inl) fun i hi => ?_
  rw [List.length_map] at hi ⊢
  exact Or.inr ⟨i, by simpa using hi, rfl, rfl⟩

/-- A binding that neither the others nor the body need can be left out. -/
theorem letrec_alike_of_not_free (hs : s.Closed) (henv : s.Binds env)
    {before behind : List (String × Term)} {x : String} {body : Term} (u : Term)
    (hothers : ∀ e ∈ before ++ behind, e.2.hasFree x = false) (hbody : body.hasFree x = false) :
    Alike s.self .silent ValueAlike
      (perform n (.eval (.letrec (before ++ (x, u) :: behind) body) env) tr s)
      (perform n (.eval (.letrec (before ++ behind) body) env) tr s) := by
  cases n with
  | zero => exact Alike.exhausted hs.silent
  | succ n =>
    refine Alike.of_ends_left (Run.Ends.eval_letrec ⟨rfl, rfl⟩) ?_
    refine Alike.of_ends_right (Run.Ends.eval_letrec ⟨rfl, rfl⟩) ?_
    refine Alike.of_le (s.self.le_extendSkipping s.next s.next before.length
      (before ++ behind).length) ?_
    refine perform_alike .silent tr tr n _ _ _ _ _ ?_ (.eval (.bindFrom_skipping henv hbody))
    refine hs.silent.append_skipping (length_bindingCells _ _) fun i d' hd' => ?_
    rw [getElem?_bindingCells] at hd'
    obtain ⟨e, he, rfl⟩ := Option.map_eq_some_iff.mp hd'
    rw [getElem?_bindingCells, getElem?_skip, he]
    exact ⟨_, rfl, .delayed (.term (.bindFrom_skipping henv
      (hothers e (List.mem_of_getElem? he))))⟩

/-! ## Arguments -/

theorem EnvAlike.insert_left {t : Term} {x : String} (h : EnvAlike β t env env')
    (ht : t.hasFree x = false) (a : Addr) : EnvAlike β t (env.insert x a) env' := by
  intro y hy
  have hxy : x ≠ y := by
    rintro rfl
    exact Bool.false_ne_true (ht.symm.trans hy)
  rw [Table.get?_insert, if_neg hxy]
  exact h y hy

theorem EnvAlike.insert_right {t : Term} {x : String} (h : EnvAlike β t env env')
    (ht : t.hasFree x = false) (c : Addr) : EnvAlike β t env (env'.insert x c) := by
  intro y hy
  have hxy : x ≠ y := by
    rintro rfl
    exact Bool.false_ne_true (ht.symm.trans hy)
  rw [Table.get?_insert, if_neg hxy]
  exact h y hy

/-- A function that does not need its argument has the value of its body. -/
theorem app_alike_of_not_free (hs : s.Closed) (henv : s.Binds env) {x : String} {body : Term}
    (hbody : body.hasFree x = false) (argument : Term) :
    Alike s.self .silent ValueAlike
      (perform (n + 2) (.eval (.app (.lam (.name x) body) argument) env) tr s)
      (perform n (.eval body env) tr s) := by
  refine Alike.of_ends_left (eval_app (eval_lam _ _ env) (apply_name ⟨rfl, rfl⟩)) ?_
  refine perform_alike .silent tr tr n _ _ _ _ _ (hs.linked.left (fun a c hac => ?_)
    (fun a d hd => hd.elim) id) (.eval ((henv.alike body).insert_left hbody _))
  obtain ⟨d, hd⟩ := Store.exists_get? hac.2
  rw [hd, Store.get?_append_of_some hd]

/-- A function that does not need its argument may be applied to any other cell. -/
theorem apply_alike_of_not_free (hs : s.Closed) (henv : s.Binds env) {x : String} {body : Term}
    (hbody : body.hasFree x = false) (a c : Addr) :
    Alike s.self .silent ValueAlike (perform n (.apply (.closure (.name x) body env) a) tr s)
      (perform n (.apply (.closure (.name x) body env) c) tr s) := by
  cases n with
  | zero => exact Alike.exhausted hs.silent
  | succ n =>
    refine Alike.of_ends_left (apply_name ⟨rfl, rfl⟩) (Alike.of_ends_right (apply_name ⟨rfl, rfl⟩)
      (perform_alike .silent tr tr n _ _ _ _ _ hs.silent (.eval ?_)))
    exact ((henv.alike body).insert_left hbody a).insert_right hbody c

theorem perform_force_done {a : Addr} {v : Value} (ha : s.get? a = some (.done v)) :
    perform (n + 1) (.force a) tr s = ⟨.value v, s, []⟩ := by
  show forceCell (perform n) a tr s = _
  rw [forceCell, Run.bind_of_value (peek_apply ha)]
  rfl

/-- What a dict in a cell has under a name is in the store. -/
theorem Store.Closed.lt_next_of_entry (hs : s.Closed) {a c : Addr} {entries : Table Addr}
    (ha : s.get? a = some (.done (.dict entries))) {x : String} (hx : entries.get? x = some c) :
    c < s.next := by
  cases hs a _ ha with
  | done hv =>
    cases hv with
    | dict hentries =>
      obtain ⟨b, d, hb, -, -, hlt⟩ | ⟨hnone, -⟩ := hentries.findEntry x
      · exact Option.some.inj (hx.symm.trans hb) ▸ hlt
      · exact nomatch hx.symm.trans hnone

theorem Store.Binds.bindNames (henv : s.Binds env) (hs : s.Closed) {a : Addr}
    {entries : Table Addr} (ha : s.get? a = some (.done (.dict entries))) (names : List String) :
    s.Binds (LazyConfig.bindNames entries names env) :=
  Table.Below.bindNames henv (fun _ _ hx => hs.lt_next_of_entry ha hx) names

/-- A function that takes a dict apart does not see what the dict has under a name that the
body does not need. -/
theorem apply_alike_of_agree (hs : s.Closed) (henv : s.Binds env) {names : List String}
    {ellipsis : Bool} {body : Term} {a c : Addr} {entries entries' : Table Addr}
    (ha : s.get? a = some (.done (.dict entries))) (hc : s.get? c = some (.done (.dict entries')))
    (hkeys : entries.keys = entries'.keys)
    (hfree : ∀ x, body.hasFree x = true → entries.get? x = entries'.get? x) :
    Alike s.self .silent ValueAlike
      (perform n (.apply (.closure (.keys names ellipsis) body env) a) tr s)
      (perform n (.apply (.closure (.keys names ellipsis) body env) c) tr s) := by
  have hbound : EnvAlike s.self body (bindNames entries names env)
      (bindNames entries' names env) := by
    refine .of_agree (henv.bindNames hs ha names) fun x hx => ?_
    rw [get?_bindNames, get?_bindNames, hfree x hx]
  have hcontains : ∀ x, entries.contains x = entries'.contains x := by
    intro x
    rw [Bool.eq_iff_iff, ← Table.mem_keys_iff, ← Table.mem_keys_iff, hkeys]
  have hbind : ∀ m, Alike s.self .silent (fun γ => EnvAlike γ body)
      (bindArgument (perform (m + 1)) (.keys names ellipsis) a env tr s)
      (bindArgument (perform (m + 1)) (.keys names ellipsis) c env tr s) := by
    intro m
    refine Alike.after (perform_force_done ha) (perform_force_done hc) ?_
    dsimp only
    simp only [hcontains, hkeys]
    cases names.filter fun x => !entries'.contains x with
    | cons x missing => exact Alike.fail hs.silent (.same _)
    | nil =>
      cases entries'.keys.filter fun k => !names.contains k with
      | nil => exact Alike.pure hs.silent hbound
      | cons k extra =>
        cases ellipsis with
        | true => exact Alike.pure hs.silent hbound
        | false => exact Alike.fail hs.silent (.same _)
  match n with
  | 0 | 1 => exact ⟨s.self, Link.Le.refl _, hs.silent, .exhausted⟩
  | m + 2 =>
    exact Alike.bind (hbind m) fun γ t t' inner inner' _ ht he =>
      perform_alike .silent tr tr (m + 1) γ t t' _ _ ht (.eval he)

/-! ## What a result depends on -/

/-- What the results of runs from a store depend on: the free names, and nothing else that an
environment, recursive bindings or an argument could have. -/
structure LexicallyScoped (n : Nat) (tr : Bool) (s : Store) : Prop where
  /-- Environments that agree on the free names of a term, where a name may be bound in none,
  give it the same result. -/
  environments : ∀ (t : Term) (env env' : Env), s.Binds env →
    (∀ x, t.hasFree x = true → env.get? x = env'.get? x) →
    SameResult tr s (perform n (.eval t env)) (perform n (.eval t env'))
  /-- An entry of the environment whose name is not free may be added, removed or changed. -/
  entry : ∀ (t : Term) (x : String) (env env' : Env), s.Binds env → t.hasFree x = false →
    (∀ y, y ≠ x → env.get? y = env'.get? y) →
    SameResult tr s (perform n (.eval t env)) (perform n (.eval t env'))
  /-- A binding may be removed or changed, and so added, if its name is free neither in the
  terms of the other bindings nor in the body. -/
  binding : ∀ (before behind : List (String × Term)) (x : String) (u u' body : Term) (env : Env),
    s.Binds env → (∀ e ∈ before ++ behind, e.2.hasFree x = false) → body.hasFree x = false →
    SameResult tr s (perform n (.eval (.letrec (before ++ (x, u) :: behind) body) env))
        (perform n (.eval (.letrec (before ++ behind) body) env)) ∧
      SameResult tr s (perform n (.eval (.letrec (before ++ (x, u) :: behind) body) env))
        (perform n (.eval (.letrec (before ++ (x, u') :: behind) body) env))
  /-- An argument may be removed together with its function, or changed, if its name is not
  free in the body of the function; applying and naming it are two steps more. -/
  argument : ∀ (x : String) (body a a' : Term) (env : Env), s.Binds env →
    body.hasFree x = false →
    SameResult tr s (perform (n + 2) (.eval (.app (.lam (.name x) body) a) env))
        (perform n (.eval body env)) ∧
      SameResult tr s (perform n (.eval (.app (.lam (.name x) body) a) env))
        (perform n (.eval (.app (.lam (.name x) body) a') env))
  /-- The same holds of a function that is a value already. -/
  applied : ∀ (x : String) (body : Term) (env : Env) (a a' : Addr), s.Binds env →
    body.hasFree x = false →
    SameResult tr s (perform n (.apply (.closure (.name x) body env) a))
      (perform n (.apply (.closure (.name x) body env) a'))
  /-- What a dict has under a name may be changed, if the name is not free in the body of the
  function that takes the dict apart. -/
  pattern : ∀ (names : List String) (ellipsis : Bool) (body : Term) (env : Env) (a a' : Addr)
    (entries entries' : Table Addr), s.Binds env → s.get? a = some (.done (.dict entries)) →
    s.get? a' = some (.done (.dict entries')) → entries.keys = entries'.keys →
    (∀ x, body.hasFree x = true → entries.get? x = entries'.get? x) →
    SameResult tr s (perform n (.apply (.closure (.keys names ellipsis) body env) a))
      (perform n (.apply (.closure (.keys names ellipsis) body env) a'))

/-- Evaluation depends on the free names only, whatever the store and the allowance are.  What
is bound to another name is never forced, so it does not matter whether it would fail or go on
forever. -/
theorem lexicallyScoped (n : Nat) (tr : Bool) (s : Store) (hs : s.Closed) :
    LexicallyScoped n tr s where
  environments t env env' henv h := sameResult_of_agree hs henv h
  entry t x env env' henv hx h := by
    refine sameResult_of_agree hs henv fun y hy => h y ?_
    rintro rfl
    exact Bool.false_ne_true (hx.symm.trans hy)
  binding before behind x u u' body env henv hothers hbody := by
    have hremoved : ∀ u, SameResult tr s
        (perform n (.eval (.letrec (before ++ (x, u) :: behind) body) env))
        (perform n (.eval (.letrec (before ++ behind) body) env)) :=
      fun u => .of_alike (letrec_alike_of_not_free hs henv u hothers hbody)
    exact ⟨hremoved u, (hremoved u).trans (hremoved u').symm⟩
  argument x body a a' env henv hbody := by
    have hremoved : ∀ (n : Nat) (a : Term), SameResult tr s
        (perform (n + 2) (.eval (.app (.lam (.name x) body) a) env)) (perform n (.eval body env)) :=
      fun _ a => .of_alike (app_alike_of_not_free hs henv hbody a)
    refine ⟨hremoved n a, ?_⟩
    match n with
    | 0 | 1 => exact fun m => .exhausted
    | n + 2 => exact (hremoved n a).trans (hremoved n a').symm
  applied x body env a a' henv hbody := .of_alike (apply_alike_of_not_free hs henv hbody a a')
  pattern names ellipsis body env a a' entries entries' henv ha ha' hkeys hfree :=
    .of_alike (apply_alike_of_agree hs henv ha ha' hkeys hfree)

/-- A binding that needs its own value and an argument that is not bound, where the name is
not free: what is left behind is the text. -/
theorem lexicallyScoped_unforced :
    let loop : Term := .letrec [("x", .var "x")] (.text "a")
    let call : Term := .app (.lam (.name "x") (.text "a")) (.var "missing")
    Store.empty.Closed ∧
      SameResult false Store.empty (perform 2 (.eval loop Table.empty))
        (perform 2 (.eval (.letrec [] (.text "a")) Table.empty)) ∧
      SameResult false Store.empty (perform 3 (.eval call Table.empty))
        (perform 1 (.eval (.text "a") Table.empty)) ∧
      (computeShared 3 call Table.empty false Store.empty).outcome = .value (.text "a") := by
  have hempty : Store.empty.Binds Table.empty := fun x a hx => nomatch hx
  have hnone : ∀ e ∈ ([] ++ [] : List (String × Term)), e.2.hasFree "x" = false := fun e he =>
    nomatch he
  exact ⟨closed_empty,
    ((lexicallyScoped 2 false Store.empty closed_empty).binding [] [] "x" (.var "x") (.var "x")
      (.text "a") Table.empty hempty hnone rfl).1,
    ((lexicallyScoped 1 false Store.empty closed_empty).argument "x" (.text "a") (.var "missing")
      (.var "missing") Table.empty hempty rfl).1, rfl⟩

end LazyConfig
