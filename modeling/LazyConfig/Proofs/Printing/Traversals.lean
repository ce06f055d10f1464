import LazyConfig.Proofs.Ends
import LazyConfig.Proofs.Printing.Plain
import Mathlib.Data.List.Forall2
set_option autoImplicit false

/-!
# Printing: the two traversals

`deepen` and `express` go through a value in the same order and force the same cells, so they
do the same up to the first function.  There `express` fails, while `deepen` may go on and give
data with a function inside, fail for another reason, or use up its allowance.
-/

namespace LazyConfig

/-- One run does what another does, and gives what fits, or fails because a function has no
program; the other run may give data with a function then, but no data without one. -/
inductive Tracks {α β : Type} (Fits : α → β → Prop) (Blocks : α → Prop) (r : Result α)
    (r' : Result β) : Prop where
  | value {a : α} {b : β} (h : r.outcome = .value a) (h' : r'.outcome = .value b)
      (hstore : r'.store = r.store) (hfits : Fits a b)
  | error {e : EvalError} (h : r.outcome = .error e) (h' : r'.outcome = .error e)
  | exhausted (h : r.outcome = .exhausted) (h' : r'.outcome = .exhausted)
  | refused {got : Summary} (h' : r'.outcome = .error (.noExpression got))
      (hblocks : ∀ a, r.outcome = .value a → Blocks a)

/-- What a run behind another one gives is given by its second part. -/
theorem exists_value_of_bind {α β : Type} {p : Run α} {k : α → Run β} {tr : Bool} {s : Store}
    {b : β} (h : ((p >>= k) tr s).outcome = .value b) :
    ∃ a t, (p tr s).outcome = .value a ∧ (p tr s).store = t ∧ (k a tr t).outcome = .value b := by
  obtain ⟨a, t, ha, hk⟩ := Run.Ends.value_of_bind ⟨h, rfl⟩
  exact ⟨a, t, ha.1, ha.2, hk.1⟩

namespace Tracks

variable {α β γ δ ι : Type} {Fits : α → β → Prop} {Blocks : α → Prop} {Fits' : γ → δ → Prop}
  {Blocks' : γ → Prop} {tr : Bool} {s : Store}

theorem pure {a : α} {b : β} (h : Fits a b) :
    Tracks Fits Blocks ((pure a : Run α) tr s) ((pure b : Run β) tr s) :=
  .value rfl rfl rfl h

/-- Runs in sequence.  What blocks the first part blocks the whole. -/
theorem bind {p : Run α} {p' : Run β} {k : α → Run γ} {k' : β → Run δ}
    (hp : Tracks Fits Blocks (p tr s) (p' tr s))
    (hk : ∀ a b t, Fits a b → Tracks Fits' Blocks' (k a tr t) (k' b tr t))
    (hblocks : ∀ a c t, Blocks a → (k a tr t).outcome = .value c → Blocks' c) :
    Tracks Fits' Blocks' ((p >>= k) tr s) ((p' >>= k') tr s) := by
  rcases hr : p tr s with ⟨outcome, t, notes⟩
  rcases hr' : p' tr s with ⟨outcome', t', notes'⟩
  rw [hr, hr'] at hp
  cases hp with
  | value h h' hstore hfits =>
    cases h; cases h'; cases hstore
    rw [Run.bind_of_value hr, Run.bind_of_value hr']
    cases hk _ _ t hfits with
    | value h h' hstore hfits => exact .value h h' hstore hfits
    | error h h' => exact .error h h'
    | exhausted h h' => exact .exhausted h h'
    | refused h' hblocks => exact .refused h' hblocks
  | error h h' =>
    cases h; cases h'
    rw [Run.bind_of_error hr, Run.bind_of_error hr']
    exact .error rfl rfl
  | exhausted h h' =>
    cases h; cases h'
    rw [Run.bind_of_exhausted hr, Run.bind_of_exhausted hr']
    exact .exhausted rfl rfl
  | refused h' hfirst =>
    cases h'
    rw [Run.bind_of_error hr']
    refine .refused rfl fun c hc => ?_
    obtain ⟨a, t, ha, -, hc⟩ := exists_value_of_bind hc
    rw [hr] at ha
    exact hblocks a c t (hfirst a ha) hc

/-- A run that both do first. -/
theorem after (p : Run α) {k : α → Run γ} {k' : α → Run δ}
    (hk : ∀ a t, Tracks Fits' Blocks' (k a tr t) (k' a tr t)) :
    Tracks Fits' Blocks' ((p >>= k) tr s) ((p >>= k') tr s) := by
  have hsame : Tracks Eq (fun _ => False) (p tr s) (p tr s) := by
    cases h : (p tr s).outcome with
    | value a => exact .value h h rfl rfl
    | error e => exact .error h h
    | exhausted => exact .exhausted h h
  exact hsame.bind (fun a b t hab => hab ▸ hk a t) fun _ _ _ h => h.elim

/-- One thing after the other for the members of a list. -/
theorem forEach {f : ι → Run α} {f' : ι → Run β}
    (h : ∀ x t, Tracks Fits Blocks (f x tr t) (f' x tr t)) (xs : List ι) :
    Tracks (List.Forall₂ Fits) (fun as => ∃ a ∈ as, Blocks a) (Run.forEach f xs tr s)
      (Run.forEach f' xs tr s) := by
  induction xs generalizing s with
  | nil => exact .pure .nil
  | cons x rest ih =>
    refine (h x s).bind (fun a b t hab => ih.bind (fun as bs u has => .pure (.cons hab has)) ?_) ?_
    · rintro as c u ⟨a', ha', hblocks⟩ hc
      cases hc
      exact ⟨a', List.mem_cons_of_mem _ ha', hblocks⟩
    · intro a c t hblocks hc
      obtain ⟨as, u, -, -, hc⟩ := exists_value_of_bind hc
      cases hc
      exact ⟨a, List.mem_cons_self, hblocks⟩

end Tracks

/-- The program stands for data without functions. -/
def Represents (d : Data FunctionKind) (e : Expr) : Prop :=
  ∃ p : Plain, d = p.widen ∧ e = p.toExpr Template.ofText

theorem represents_list {ds : List (Data FunctionKind)} {es : List Expr}
    (h : List.Forall₂ Represents ds es) : Represents (.list ds) (.list es) := by
  have hitems : ∃ ps, ds = widenItems ps ∧ es = itemExprs Template.ofText ps := by
    induction h with
    | nil => exact ⟨[], rfl, rfl⟩
    | cons hde _ ih =>
      obtain ⟨p, rfl, rfl⟩ := hde
      obtain ⟨ps, rfl, rfl⟩ := ih
      exact ⟨p :: ps, rfl, rfl⟩
  obtain ⟨ps, rfl, rfl⟩ := hitems
  exact ⟨.list ps, rfl, rfl⟩

/-- The binding stands for an entry without functions. -/
def RepresentsEntry (e : String × Data FunctionKind) (b : Binding Expr Expr) : Prop :=
  ∃ p : Plain, e.2 = p.widen ∧ b = .equation (.text e.1) (p.toExpr Template.ofText)

theorem represents_dict {ds : List (String × Data FunctionKind)} {bs : List (Binding Expr Expr)}
    (h : List.Forall₂ RepresentsEntry ds bs) : Represents (.dict ds) (.dict false bs) := by
  have hentries : ∃ ps, ds = widenEntries ps ∧ bs = entryBindings Template.ofText ps := by
    induction h with
    | nil => exact ⟨[], rfl, rfl⟩
    | @cons e b _ _ heb _ ih =>
      obtain ⟨key, d⟩ := e
      obtain ⟨p, hd, rfl⟩ := heb
      obtain ⟨ps, rfl, rfl⟩ := ih
      obtain rfl : d = p.widen := hd
      exact ⟨(key, p) :: ps, rfl, rfl⟩
  obtain ⟨ps, rfl, rfl⟩ := hentries
  exact ⟨.dict ps, rfl, rfl⟩

/-- Data with a function has no program. -/
theorem express_tracks (n : Nat) (v : Value) (tr : Bool) (s : Store) :
    Tracks Represents (·.hasFunction = true) (deepen n v tr s) (express n v tr s) := by
  induction n generalizing v s with
  | zero => exact .exhausted rfl rfl
  | succ n ih =>
    cases v with
    | text text => exact .pure ⟨.text text, rfl, rfl⟩
    | list items =>
      have hitem : ∀ a t, Tracks Represents (·.hasFunction = true)
          ((do deepen n (← perform n (.force a)) : Run _) tr t)
          ((do express n (← perform n (.force a)) : Run _) tr t) := fun a t =>
        .after _ fun v t => ih v t
      refine (Tracks.forEach hitem items).bind (fun ds es t h => .pure (represents_list h)) ?_
      rintro ds c t ⟨d, hd, hfunction⟩ hc
      cases hc
      exact anyHasFunction_of_mem hd hfunction
    | dict entries =>
      have hentry : ∀ (e : String × Addr) t, Tracks RepresentsEntry (·.2.hasFunction = true)
          ((do let d ← deepen n (← perform n (.force e.2)); return (e.1, d) : Run _) tr t)
          ((do
            let v ← express n (← perform n (.force e.2))
            return Binding.equation (Expr.text e.1) v : Run _) tr t) := by
        intro e t
        refine .after _ fun v t => (ih v t).bind (fun d b u h => .pure ?_) ?_
        · obtain ⟨p, hd, rfl⟩ := h
          exact ⟨p, hd, rfl⟩
        · intro d c u hfunction hc
          cases hc
          exact hfunction
      refine (Tracks.forEach hentry entries.entries).bind
        (fun ds bs t h => .pure (represents_dict h)) ?_
      rintro ds c t ⟨d, hd, hfunction⟩ hc
      cases hc
      exact anyEntryHasFunction_of_mem hd hfunction
    | closure binder body env =>
      refine .refused rfl fun d hd => ?_
      cases hd
      rfl
    | builtin b arguments =>
      refine .refused rfl fun d hd => ?_
      cases hd
      rfl

theorem represents_of_values {n : Nat} {v : Value} {tr : Bool} {s : Store}
    {d : Data FunctionKind} {e : Expr} (hd : (deepen n v tr s).outcome = .value d)
    (he : (express n v tr s).outcome = .value e) : Represents d e := by
  cases express_tracks n v tr s with
  | value h h' _ hfits =>
    obtain rfl := Outcome.value.inj (h.symm.trans hd)
    obtain rfl := Outcome.value.inj (h'.symm.trans he)
    exact hfits
  | error h => exact nomatch h.symm.trans hd
  | exhausted h => exact nomatch h.symm.trans hd
  | refused h' => exact nomatch h'.symm.trans he

/-- Data has one program. -/
theorem Represents.unique {d : Data FunctionKind} {e e' : Expr} (h : Represents d e)
    (h' : Represents d e') : e = e' := by
  obtain ⟨p, rfl, rfl⟩ := h
  obtain ⟨q, hq, rfl⟩ := h'
  rw [p.widen_injective q hq]

/-! ## Keys -/

/-- What is done for the members of a list gives the results of the members. -/
theorem forall₂_of_forEach {ι α : Type} {f : ι → Run α} {xs : List ι} {tr : Bool} {s : Store}
    {as : List α} (h : (Run.forEach f xs tr s).outcome = .value as) :
    List.Forall₂ (fun x a => ∃ t, (f x tr t).outcome = .value a) xs as := by
  induction xs generalizing s as with
  | nil =>
    cases h
    exact .nil
  | cons x rest ih =>
    obtain ⟨a, t, ha, -, hrest⟩ := exists_value_of_bind h
    obtain ⟨as', u, has, -, hc⟩ := exists_value_of_bind hrest
    cases hc
    exact .cons ⟨s, ha⟩ (ih has)

/-- Whatever the order is in which a dict was made, its data has ascending keys. -/
theorem ascending_deepen {n : Nat} {v : Value} {tr : Bool} {s : Store} {d : Data FunctionKind}
    (h : (deepen n v tr s).outcome = .value d) : d.Ascending := by
  induction n generalizing v s d with
  | zero => exact nomatch h
  | succ n ih =>
    cases v with
    | text text =>
      cases h
      trivial
    | list items =>
      obtain ⟨ds, t, hds, -, hc⟩ := exists_value_of_bind h
      cases hc
      have hitems : ∀ {items ds}, List.Forall₂ (fun a d => ∃ t,
          ((do deepen n (← perform n (.force a)) : Run _) tr t).outcome = .value d) items ds →
          ItemsAscending ds := by
        intro items ds hall
        induction hall with
        | nil => trivial
        | cons hd _ ihitems =>
          obtain ⟨u, hd⟩ := hd
          obtain ⟨w, u', -, -, hd⟩ := exists_value_of_bind hd
          exact ⟨ih hd, ihitems⟩
      exact hitems (forall₂_of_forEach hds)
    | dict entries =>
      obtain ⟨ds, t, hds, -, hc⟩ := exists_value_of_bind h
      cases hc
      have hentries : ∀ {entries : List (String × Addr)} {ds}, List.Forall₂ (fun e d => ∃ t,
          ((do let d ← deepen n (← perform n (.force e.2)); return (e.1, d) : Run _) tr t).outcome =
            .value d) entries ds →
          ds.map Prod.fst = entries.map Prod.fst ∧ EntriesAscending ds := by
        intro entries ds hall
        induction hall with
        | nil => exact ⟨rfl, trivial⟩
        | @cons e _ _ _ hd _ ihentries =>
          obtain ⟨u, hd⟩ := hd
          obtain ⟨w, u', -, -, hentry⟩ := exists_value_of_bind hd
          obtain ⟨d, u'', hdeep, -, hc⟩ := exists_value_of_bind hentry
          cases hc
          exact ⟨congrArg (e.1 :: ·) ihentries.1, ih hdeep, ihentries.2⟩
      obtain ⟨hkeys, hall⟩ := hentries (forall₂_of_forEach hds)
      refine ⟨?_, hall⟩
      rw [hkeys]
      exact List.pairwise_map.mpr entries.ascending
    | closure binder body env =>
      cases h
      trivial
    | builtin b arguments =>
      cases h
      trivial

end LazyConfig
