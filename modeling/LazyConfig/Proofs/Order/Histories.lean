import LazyConfig.Proofs.Keeping
set_option autoImplicit false

/-!
# Order: histories

A store does not tell how it came about: a cell with a value has forgotten what it was made
for.  A *history* remembers.  It says what each cell was made for, and its log has an entry
for each computation that gave a value, latest first, with the cells that the computation
itself made.  What the computation had forced is in the log before it, so a log is its own
justification: `Gives` is the account of a script that gives a value over a history, and a
log is valid if each entry has such an account over the entries before it.

`Breaks` is the account of a script that gives no value.  It has one computation inside the
other, down to the one that fails, needs a cell that is computed further out, or has no
level left.
-/

namespace LazyConfig

/-! ## Histories -/

/-- What a cell was made for. -/
inductive Origin where
  /-- To be computed. -/
  | suspended (c : Suspension)
  /-- To hold a value from the start. -/
  | ready (v : Value)

/-- A new cell. -/
def Origin.cell : Origin → Cell
  | .suspended c => .delayed c
  | .ready v => .done v

/-- A computation that gave a value. -/
structure Entry where
  /-- The cell that was computed. -/
  cell : Addr
  /-- Its value. -/
  value : Value
  /-- The cells made for it, but not those made for other cells on the way. -/
  own : List Addr

/-- How the cells of a store came about. -/
structure History where
  /-- What each cell was made for. -/
  origin : Addr → Option Origin
  /-- The computations that gave values, latest first. -/
  log : List Entry

namespace History

variable {H K L : History} {a : Addr} {v w : Value}

/-- The later history has all that the earlier one has. -/
structure Le (H K : History) : Prop where
  /-- Cells stay what they were made for. -/
  origin : ∀ a o, H.origin a = some o → K.origin a = some o
  /-- Entries stay in the log. -/
  log : ∀ e ∈ H.log, e ∈ K.log

theorem Le.refl (H : History) : H.Le H := ⟨fun _ _ h => h, fun _ h => h⟩

theorem Le.trans (h : H.Le K) (h' : K.Le L) : H.Le L :=
  ⟨fun a o ho => h'.origin a o (h.origin a o ho), fun e he => h'.log e (h.log e he)⟩

/-- The value of a cell is known: it was made with it, or its computation is in the log. -/
inductive Knows (H : History) (a : Addr) (v : Value) : Prop where
  | ready (h : H.origin a = some (.ready v))
  | computed (e : Entry) (he : e ∈ H.log) (ha : e.cell = a) (hv : e.value = v)

theorem Knows.mono (hle : H.Le K) (h : H.Knows a v) : K.Knows a v := by
  cases h with
  | ready h => exact .ready (hle.origin a _ h)
  | computed e he ha hv => exact .computed e (hle.log e he) ha hv

/-- The history with new cells from an address on. -/
def add (H : History) (base : Addr) (os : List Origin) : History :=
  ⟨fun a => if a < base then H.origin a else os[a - base]?, H.log⟩

theorem add_origin_add (H : History) (base : Addr) (os : List Origin) (i : Nat) :
    (H.add base os).origin (base + i) = os[i]? := by
  simp only [add]
  rw [if_neg (Nat.not_lt.mpr (Nat.le_add_right base i)), Nat.add_sub_cancel_left]

/-- The history with one more computation. -/
def enter (H : History) (e : Entry) : History := ⟨H.origin, e :: H.log⟩

theorem le_enter (H : History) (e : Entry) : H.Le (H.enter e) :=
  ⟨fun _ _ h => h, fun _ h => List.mem_cons_of_mem e h⟩

end History

/-! ## Accounts of scripts -/

/-- The addresses of as many cells from one on hold what a script made there. -/
def History.Made (H : History) (base : Addr) (cs : List Suspension) : Prop :=
  ∀ i c, cs[i]? = some c → H.origin (base + i) = some (.suspended c)

/-- The script gives a value: what it has forced is known, and it makes cells of its own. -/
inductive Gives (H : History) : {α : Type} → Script α → α → List Addr → Prop where
  | done {α : Type} (a : α) : Gives H (.done a) a []
  | note {α : Type} {x : EvalNote} {p : Script α} {a : α} {own : List Addr}
      (h : Gives H p a own) : Gives H (.note x p) a own
  | grow {α : Type} {cs : Addr → List Suspension} {next : Addr → Script α} {a : α} {base : Addr}
      {own : List Addr} (hcs : H.Made base (cs base)) (h : Gives H (next base) a own) :
      Gives H (.grow cs next) a (List.range' base (cs base).length ++ own)
  | store {α : Type} {v : Value} {next : Addr → Script α} {a : α} {base : Addr}
      {own : List Addr} (hv : H.Knows base v) (h : Gives H (next base) a own) :
      Gives H (.store v next) a (base :: own)
  | force {α : Type} {b : Addr} {v : Value} {next : Value → Script α} {a : α} {own : List Addr}
      (hb : H.Knows b v) (h : Gives H (next v) a own) : Gives H (.force b next) a own
  | work {α : Type} {κ : Kind} {j : Job κ} {x : κ.Result} {next : κ.Result → Script α} {a : α}
      {made own : List Addr} (hj : Gives H j.script x made) (h : Gives H (next x) a own) :
      Gives H (.work j next) a (made ++ own)

/-- How a run ends without a value. -/
inductive Halt where
  /-- With a failure. -/
  | failed (e : EvalError)
  /-- With its allowance used up. -/
  | short

/-- The script gives no value with an allowance of levels below it, while some cells are
being computed. -/
inductive Breaks (H : History) :
    {α : Type} → Nat → List Addr → Script α → Halt → List Addr → Prop where
  | fail {α : Type} {n : Nat} {busy : List Addr} (e : EvalError) :
      Breaks H n busy (.fail e : Script α) (.failed e) []
  | note {α : Type} {n : Nat} {busy : List Addr} {x : EvalNote} {p : Script α} {halt : Halt}
      {own : List Addr} (h : Breaks H n busy p halt own) : Breaks H n busy (.note x p) halt own
  | grow {α : Type} {n : Nat} {busy : List Addr} {cs : Addr → List Suspension}
      {next : Addr → Script α} {halt : Halt} {base : Addr} {own : List Addr}
      (hcs : H.Made base (cs base)) (h : Breaks H n busy (next base) halt own) :
      Breaks H n busy (.grow cs next) halt (List.range' base (cs base).length ++ own)
  | store {α : Type} {n : Nat} {busy : List Addr} {v : Value} {next : Addr → Script α}
      {halt : Halt} {base : Addr} {own : List Addr} (hv : H.Knows base v)
      (h : Breaks H n busy (next base) halt own) :
      Breaks H n busy (.store v next) halt (base :: own)
  | force {α : Type} {n : Nat} {busy : List Addr} {b : Addr} {v : Value}
      {next : Value → Script α} {halt : Halt} {own : List Addr} (hb : H.Knows b v)
      (h : Breaks H n busy (next v) halt own) : Breaks H n busy (.force b next) halt own
  | work {α : Type} {n : Nat} {busy : List Addr} {κ : Kind} {j : Job κ} {x : κ.Result}
      {next : κ.Result → Script α} {halt : Halt} {made own : List Addr}
      (hj : Gives H j.script x made) (h : Breaks H n busy (next x) halt own) :
      Breaks H n busy (.work j next) halt (made ++ own)
  /-- A cell is forced that has no value and is not being computed, and its computation
  gives none. -/
  | inForce {α : Type} {n : Nat} {busy : List Addr} {b : Addr} {c : Suspension}
      {next : Value → Script α} {halt : Halt} {own : List Addr}
      (hc : H.origin b = some (.suspended c)) (hlog : ∀ e ∈ H.log, e.cell ≠ b) (hb : b ∉ busy)
      (h : Breaks H n (b :: busy) (Script.resume c) halt own) :
      Breaks H (n + 1) busy (.force b next) halt own
  /-- A job gives no value. -/
  | inWork {α : Type} {n : Nat} {busy : List Addr} {κ : Kind} {j : Job κ}
      {next : κ.Result → Script α} {halt : Halt} {own : List Addr}
      (h : Breaks H n busy j.script halt own) : Breaks H (n + 1) busy (.work j next) halt own
  /-- A cell is forced that is being computed. -/
  | recursion {α : Type} {n : Nat} {busy : List Addr} {b : Addr} {c : Suspension}
      {next : Value → Script α} (hc : H.origin b = some (.suspended c)) (hb : b ∈ busy) :
      Breaks H (n + 1) busy (.force b next) (.failed (.infiniteRecursion c)) []
  /-- A cell is forced that does not exist. -/
  | dangling {α : Type} {n : Nat} {busy : List Addr} {b : Addr} {next : Value → Script α}
      (hb : H.origin b = none) : Breaks H (n + 1) busy (.force b next) (.failed (.dangling b)) []
  /-- No level is left to force a cell on. -/
  | shortForce {α : Type} {busy : List Addr} {b : Addr} {next : Value → Script α} :
      Breaks H 0 busy (.force b next) .short []
  /-- No level is left to do a job on. -/
  | shortWork {α : Type} {busy : List Addr} {κ : Kind} {j : Job κ}
      {next : κ.Result → Script α} : Breaks H 0 busy (.work j next) .short []

section

variable {α β : Type} {H K : History} {n : Nat} {busy : List Addr} {p : Script α}
  {f : α → Script β} {a : α} {b : β} {halt : Halt} {own more : List Addr}

theorem Gives.mono (hle : H.Le K) (h : Gives H p a own) : Gives K p a own := by
  induction h with
  | done a => exact .done a
  | note _ ih => exact .note ih
  | grow hcs _ ih => exact .grow (fun i c hc => hle.origin _ _ (hcs i c hc)) ih
  | store hv _ ih => exact .store (hv.mono hle) ih
  | force hb _ ih => exact .force (hb.mono hle) ih
  | work _ _ ihj ih => exact .work ihj ih

theorem Gives.bind (h : Gives H p a own) (hf : Gives H (f a) b more) :
    Gives H (p >>= f) b (own ++ more) := by
  induction h with
  | done a => exact hf
  | note _ ih => exact .note (ih hf)
  | grow hcs _ ih =>
    rw [List.append_assoc]
    exact .grow hcs (ih hf)
  | store hv _ ih => exact .store hv (ih hf)
  | force hb _ ih => exact .force hb (ih hf)
  | work hj _ _ ih =>
    rw [List.append_assoc]
    exact .work hj (ih hf)

theorem Gives.bind_breaks (h : Gives H p a own) (hf : Breaks H n busy (f a) halt more) :
    Breaks H n busy (p >>= f) halt (own ++ more) := by
  induction h with
  | done a => exact hf
  | note _ ih => exact .note (ih hf)
  | grow hcs _ ih =>
    rw [List.append_assoc]
    exact .grow hcs (ih hf)
  | store hv _ ih => exact .store hv (ih hf)
  | force hb _ ih => exact .force hb (ih hf)
  | work hj _ _ ih =>
    rw [List.append_assoc]
    exact .work hj (ih hf)

theorem Breaks.bind (h : Breaks H n busy p halt own) : Breaks H n busy (p >>= f) halt own := by
  induction h with
  | fail e => exact .fail e
  | note _ ih => exact .note ih
  | grow hcs _ ih => exact .grow hcs ih
  | store hv _ ih => exact .store hv ih
  | force hb _ ih => exact .force hb ih
  | work hj _ ih => exact .work hj ih
  | inForce hc hlog hb h _ => exact .inForce hc hlog hb h
  | inWork h _ => exact .inWork h
  | recursion hc hb => exact .recursion hc hb
  | dangling hb => exact .dangling hb
  | shortForce => exact .shortForce
  | shortWork => exact .shortWork

end

/-! ## Valid logs -/

/-- Each entry of a log has an account over the entries before it. -/
inductive ValidLog (origin : Addr → Option Origin) : List Entry → Prop where
  | nil : ValidLog origin []
  | cons {e : Entry} {log : List Entry} {c : Suspension} (hlog : ValidLog origin log)
      (horigin : origin e.cell = some (.suspended c)) (hcell : ∀ e' ∈ log, e'.cell ≠ e.cell)
      (hgives : Gives ⟨origin, log⟩ (Script.resume c) e.value e.own) (hnodup : e.own.Nodup)
      (hapart : ∀ x ∈ e.own, ∀ e' ∈ log, x ∉ e'.own) : ValidLog origin (e :: log)

namespace ValidLog

variable {origin origin' : Addr → Option Origin} {log : List Entry}

theorem mono (hle : ∀ a o, origin a = some o → origin' a = some o) (h : ValidLog origin log) :
    ValidLog origin' log := by
  induction h with
  | nil => exact .nil
  | @cons _ log _ _ horigin hcell hgives hnodup hapart ih =>
    have hlater : History.Le ⟨origin, log⟩ ⟨origin', log⟩ := ⟨hle, fun _ h => h⟩
    exact .cons ih (hle _ _ horigin) hcell (hgives.mono hlater) hnodup hapart

/-- A cell is computed only once. -/
theorem eq_of_cell (h : ValidLog origin log) {e e' : Entry} (he : e ∈ log) (he' : e' ∈ log)
    (hcell : e.cell = e'.cell) : e = e' := by
  induction h with
  | nil => exact absurd he List.not_mem_nil
  | cons _ _ hfirst _ _ _ ih =>
    rcases List.mem_cons.mp he with rfl | hold <;> rcases List.mem_cons.mp he' with rfl | hold'
    · rfl
    · exact absurd hcell.symm (hfirst e' hold')
    · exact absurd hcell (hfirst e hold)
    · exact ih hold hold'

/-- A cell is made for one computation only. -/
theorem eq_of_own (h : ValidLog origin log) {e e' : Entry} (he : e ∈ log) (he' : e' ∈ log)
    {x : Addr} (hx : x ∈ e.own) (hx' : x ∈ e'.own) : e = e' := by
  induction h with
  | nil => exact absurd he List.not_mem_nil
  | cons _ _ _ _ _ hapart ih =>
    rcases List.mem_cons.mp he with rfl | hold <;> rcases List.mem_cons.mp he' with rfl | hold'
    · rfl
    · exact absurd hx' (hapart x hx e' hold')
    · exact absurd hx (hapart x hx' e hold)
    · exact ih hold hold'

theorem of_suffix {rest : List Entry} (hrest : rest <:+ log) (h : ValidLog origin log) :
    ValidLog origin rest := by
  obtain ⟨front, rfl⟩ := hrest
  induction front with
  | nil => exact h
  | cons e front ih =>
    cases h with
    | cons hlog _ _ _ _ _ => exact ih hlog

/-- A cell in the log was made to be computed. -/
theorem suspended (h : ValidLog origin log) {e : Entry} (he : e ∈ log) :
    ∃ c, origin e.cell = some (.suspended c) := by
  induction h with
  | nil => exact absurd he List.not_mem_nil
  | @cons _ _ c _ horigin _ _ _ _ ih =>
    rcases List.mem_cons.mp he with rfl | he
    · exact ⟨c, horigin⟩
    · exact ih he

/-- Only one value of a cell is known. -/
theorem unique (h : ValidLog origin log) {a : Addr} {v w : Value}
    (hv : History.Knows ⟨origin, log⟩ a v) (hw : History.Knows ⟨origin, log⟩ a w) : v = w := by
  have hready : ∀ {e : Entry} {u : Value}, e ∈ log → e.cell = a → origin a ≠ some (.ready u) := by
    rintro e u he rfl hu
    obtain ⟨c, hc⟩ := h.suspended he
    exact nomatch hc.symm.trans hu
  cases hv with
  | ready hv =>
    cases hw with
    | ready hw => exact Origin.ready.inj (Option.some.inj (hv.symm.trans hw))
    | computed e he ha _ => exact absurd hv (hready he ha)
  | computed e he ha hv =>
    cases hw with
    | ready hw => exact absurd hw (hready he ha)
    | computed e' he' ha' hw => rw [← hv, ← hw, h.eq_of_cell he he' (ha.trans ha'.symm)]

end ValidLog

end LazyConfig
