import LazyConfig.Eval.Step
set_option autoImplicit false

/-!
# Stores that grow

What the operations on cells do to a store, with the new cells of a run collected in
one list, and the steps that depend on what an environment or a function has.  Last come
tables whose addresses are those of a store.
-/

namespace LazyConfig

namespace Store

/-- The store with more cells. -/
def append (s : Store) (cs : List Cell) : Store := ⟨s.cells ++ cs.toArray⟩

theorem lt_next_of_get? {s : Store} {a : Addr} {c : Cell} (h : s.get? a = some c) :
    a < s.next := by
  have hlt := Array.getElem?_eq_some_iff.mp h
  exact hlt.1

theorem exists_get? {s : Store} {a : Addr} (h : a < s.next) : ∃ c, s.get? a = some c :=
  ⟨_, Array.getElem?_eq_getElem h⟩

/-- A cell that is there has no address that a new cell will have. -/
theorem ne_new_of_get? {s : Store} {a : Addr} {c : Cell} (h : s.get? a = some c) (i : Nat) :
    a ≠ s.next + i := by
  rintro rfl
  exact Nat.not_lt.mpr (Nat.le_add_right s.next i) (lt_next_of_get? h)

theorem get?_append (s : Store) (cs : List Cell) (a : Addr) :
    (s.append cs).get? a = if a < s.next then s.get? a else cs[a - s.next]? := by
  have hnew : cs.toArray[a - s.cells.size]? = cs[a - s.cells.size]? := List.getElem?_toArray
  show (s.cells ++ cs.toArray)[a]? = _
  rw [Array.getElem?_append, hnew]
  rfl

theorem get?_append_of_some {s : Store} {a : Addr} {c : Cell} (h : s.get? a = some c)
    (cs : List Cell) : (s.append cs).get? a = some c := by
  rw [get?_append, if_pos (lt_next_of_get? h), h]

theorem get?_append_add (s : Store) (cs : List Cell) (i : Nat) :
    (s.append cs).get? (s.next + i) = cs[i]? := by
  rw [get?_append, if_neg (Nat.not_lt.mpr (Nat.le_add_right _ _)), Nat.add_sub_cancel_left]

theorem get?_append_next (s : Store) (c : Cell) (cs : List Cell) :
    (s.append (c :: cs)).get? s.next = some c :=
  get?_append_add s (c :: cs) 0

theorem push_eq_append (s : Store) (c : Cell) : s.push c = s.append [c] := by
  simp [push, append]

theorem append_append (s : Store) (cs ds : List Cell) :
    (s.append cs).append ds = s.append (cs ++ ds) := by
  simp [append]

theorem next_append (s : Store) (cs : List Cell) :
    (s.append cs).next = s.next + cs.length := by
  simp [append, next]

theorem set_append_of_lt {s : Store} {a : Addr} (h : a < s.next) (cs : List Cell) (d : Cell) :
    (s.append cs).set a d = (s.set a d).append cs := by
  simp only [append, set, Array.setIfInBounds_append, next] at h ⊢
  rw [if_pos h]

theorem set_append_add (s : Store) (cs : List Cell) (i : Nat) (d : Cell) :
    (s.append cs).set (s.next + i) d = s.append (cs.set i d) := by
  simp [append, set, next]

theorem set_append_next (s : Store) (c : Cell) (cs : List Cell) (d : Cell) :
    (s.append (c :: cs)).set s.next d = s.append (d :: cs) :=
  set_append_add s (c :: cs) 0 d

theorem set_set (s : Store) (a : Addr) (d e : Cell) : (s.set a d).set a e = s.set a e := by
  simp [set]

/-- The store in which a cell is settled after its computation: it holds the value, or
the computation as before if there is none. -/
def settle (s : Store) (a : Addr) (c : Suspension) : Outcome Value → Store
  | .value v => s.set a (.done v)
  | .error _ => s.set a (.delayed c)
  | .exhausted => s.set a (.delayed c)

@[simp] theorem next_settle (s : Store) (a : Addr) (c : Suspension) (o : Outcome Value) :
    (s.settle a c o).next = s.next := by
  cases o with
  | value v => exact next_set s a _
  | error e => exact next_set s a _
  | exhausted => exact next_set s a _

/-- Settling a cell leaves the others as they are. -/
theorem get?_settle_of_ne (s : Store) {a b : Addr} (h : a ≠ b) (c : Suspension)
    (o : Outcome Value) : (s.settle a c o).get? b = s.get? b := by
  cases o with
  | value v => rw [settle, get?_set, if_neg h]
  | error e => rw [settle, get?_set, if_neg h]
  | exhausted => rw [settle, get?_set, if_neg h]

end Store

variable {tr : Bool} {s : Store}

theorem peek_apply {a : Addr} {c : Cell} (hc : s.get? a = some c) :
    Run.peek a tr s = ⟨.value c, s, []⟩ := by
  unfold Run.peek
  rw [hc]

theorem allocate_apply (c : Cell) (tr : Bool) (s : Store) :
    Run.allocate c tr s = ⟨.value s.next, s.append [c], []⟩ := by
  rw [← Store.push_eq_append]
  rfl

theorem delay_apply (c : Suspension) (tr : Bool) (s : Store) :
    Run.delay c tr s = ⟨.value s.next, s.append [.delayed c], []⟩ :=
  allocate_apply (.delayed c) tr s

/-- What a run does that delays terms one after the other. -/
theorem delayAll_apply (env : Env) (ts : List Term) (tr : Bool) (s : Store) :
    delayAll env ts tr s = ⟨.value (List.range' s.next ts.length),
      s.append ((ts.map fun t => Suspension.term t env).map .delayed), []⟩ := by
  induction ts generalizing s with
  | nil => simp [delayAll, Run.forEach, Store.append]
  | cons t ts ih =>
    have hrest := ih (s.append [.delayed (.term t env)])
    unfold delayAll at hrest ⊢
    rw [Run.forEach, Run.bind_of_value (delay_apply _ tr s), Run.bind_of_value hrest]
    simp [Store.append_append, Store.next_append, List.range'_succ]

theorem occupy_apply (a : Addr) (c : Suspension) (p : Run Value) (tr : Bool) (s : Store) :
    Run.occupy a c p tr s =
      ⟨(p tr (s.set a (.running c))).outcome,
        (p tr (s.set a (.running c))).store.settle a c (p tr (s.set a (.running c))).outcome,
        (p tr (s.set a (.running c))).notes⟩ := by
  unfold Run.occupy
  rcases p tr (s.set a (.running c)) with ⟨outcome, store, notes⟩
  cases outcome with
  | value v => rfl
  | error e => rfl
  | exhausted => rfl

/-! ## Steps -/

theorem bindNames_cons_of_some {entries : Table Addr} {y : String} {a : Addr}
    (h : entries.get? y = some a) (names : List String) (env : Env) :
    bindNames entries (y :: names) env = bindNames entries names (env.insert y a) := by
  unfold bindNames
  rw [List.foldl_cons, h]

theorem bindNames_cons_of_none {entries : Table Addr} {y : String} (h : entries.get? y = none)
    (names : List String) (env : Env) :
    bindNames entries (y :: names) env = bindNames entries names env := by
  unfold bindNames
  rw [List.foldl_cons, h]

/-- What a name is bound to when the names of a dict are bound. -/
theorem get?_bindNames (entries : Table Addr) (names : List String) (env : Env) (x : String) :
    (bindNames entries names env).get? x =
      if x ∈ names then (entries.get? x).or (env.get? x) else env.get? x := by
  induction names generalizing env with
  | nil => simp [bindNames]
  | cons y names ih =>
    cases hy : entries.get? y with
    | none =>
      rw [bindNames_cons_of_none hy, ih]
      by_cases hxy : x = y
      · subst hxy
        simp [hy]
      · simp [hxy]
    | some a =>
      rw [bindNames_cons_of_some hy, ih, Table.get?_insert]
      by_cases hxy : y = x
      · subst hxy
        simp [hy]
      · simp [hxy, Ne.symm hxy]

section

variable {self : Task → Run Value}

theorem evalTerm_var {env : Env} {x : String} {a : Addr} (h : env.get? x = some a) :
    evalTerm self (.var x) env = self (.force a) := by
  simp only [evalTerm, h]

theorem evalTerm_unbound {env : Env} {x : String} (h : env.get? x = none) :
    evalTerm self (.var x) env = Run.fail (.unbound x) := by
  simp only [evalTerm, h]

theorem applyValue_partial {b : Builtin} {arguments : List Addr} {a : Addr}
    (h : b.call? (arguments ++ [a]) = none) :
    applyValue self (.builtin b arguments) a = (return .builtin b (arguments ++ [a])) := by
  simp only [applyValue, h]

theorem applyValue_call {b : Builtin} {arguments : List Addr} {a : Addr} {call : Call}
    (h : b.call? (arguments ++ [a]) = some call) :
    applyValue self (.builtin b arguments) a = (do Run.note (.builtin b); runCall self call) := by
  simp only [applyValue, h]

end

/-! ## Tables of addresses -/

/-- The addresses in the table are those of the first cells, as many as the number says. -/
def Table.Below (size : Nat) (t : Table Addr) : Prop := ∀ x a, t.get? x = some a → a < size

namespace Table.Below

variable {size size' : Nat} {t entries : Table Addr} {env : Env}

theorem mono (h : t.Below size) (hle : size ≤ size') : t.Below size' :=
  fun x a hx => Nat.lt_of_lt_of_le (h x a hx) hle

theorem insert (h : t.Below size) (x : String) {a : Addr} (ha : a < size) :
    (t.insert x a).Below size := by
  intro y c hy
  rw [get?_insert] at hy
  by_cases hxy : x = y
  · rw [if_pos hxy] at hy
    exact Option.some.inj hy ▸ ha
  · rw [if_neg hxy] at hy
    exact h y c hy

/-- The names of a dict. -/
theorem bindNames (henv : env.Below size) (hentries : entries.Below size) (names : List String) :
    (LazyConfig.bindNames entries names env).Below size := by
  intro x a hx
  rw [get?_bindNames] at hx
  split at hx
  · rcases Option.or_eq_some_iff.mp hx with hx | ⟨-, hx⟩
    · exact hentries x a hx
    · exact henv x a hx
  · exact henv x a hx

end Table.Below

end LazyConfig
