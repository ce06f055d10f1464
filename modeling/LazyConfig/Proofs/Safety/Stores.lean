import LazyConfig.Eval.ByName
import LazyConfig.Proofs.Safety.Terms
import LazyConfig.Proofs.Stores
import LazyConfig.Proofs.Tables
set_option autoImplicit false

/-!
# Safety: proper stores

A store is proper if whatever its cells hold can be worked with: each address that is needed
has a cell, each term is one that programs have, and each builtin function lacks an argument.
What is inside a cell is said in terms of the number of cells, so it stays proper when the
store grows.
-/

namespace LazyConfig

/-! ## What is proper -/

/-- A value over so many cells.  A builtin function has fewer arguments than it takes. -/
inductive Value.Proper (size : Nat) : Value → Prop where
  | text (s : String) : Proper size (.text s)
  | list {items : List Addr} (h : ∀ a ∈ items, a < size) : Proper size (.list items)
  | dict {entries : Table Addr} (h : entries.Below size) : Proper size (.dict entries)
  | closure (binder : Binder) {body : Term} {env : Env} (hbody : body.Core)
      (henv : env.Below size) : Proper size (.closure binder body env)
  | builtin {f : Builtin} {arguments : List Addr} (hcount : arguments.length < f.arity)
      (h : ∀ a ∈ arguments, a < size) : Proper size (.builtin f arguments)

/-- A computation over so many cells. -/
inductive Suspension.Proper (size : Nat) : Suspension → Prop where
  | term {t : Term} {env : Env} (ht : t.Core) (henv : env.Below size) : Proper size (.term t env)
  | composed {f x : Addr} (hf : f < size) (hx : x < size) : Proper size (.composed f x)

/-- What a cell among so many holds. -/
inductive Cell.Proper (size : Nat) : Cell → Prop where
  | delayed {k : Suspension} (h : k.Proper size) : Proper size (.delayed k)
  | running {k : Suspension} (h : k.Proper size) : Proper size (.running k)
  | done {v : Value} (h : v.Proper size) : Proper size (.done v)

/-- A call whose arguments are among so many cells. -/
def Call.Below (size : Nat) : Call → Prop
  | .identity x => x < size
  | .compose f g x => f < size ∧ g < size ∧ x < size
  | .append a b => a < size ∧ b < size
  | .lookup subject key => subject < size ∧ key < size
  | .mergeLeft a b => a < size ∧ b < size
  | .disallowExtra keys subject => keys < size ∧ subject < size

/-- What the cells of the store hold can be worked with. -/
def Store.Proper (s : Store) : Prop := ∀ a c, s.get? a = some c → c.Proper s.next

/-! ## More cells -/

section

variable {size size' : Nat} (hle : size ≤ size')

include hle

theorem Value.Proper.mono {v : Value} (h : v.Proper size) : v.Proper size' := by
  cases h with
  | text s => exact .text s
  | list h => exact .list fun a ha => Nat.lt_of_lt_of_le (h a ha) hle
  | dict h => exact .dict (h.mono hle)
  | closure binder hbody henv => exact .closure binder hbody (henv.mono hle)
  | builtin hcount h => exact .builtin hcount fun a ha => Nat.lt_of_lt_of_le (h a ha) hle

theorem Suspension.Proper.mono {k : Suspension} (h : k.Proper size) : k.Proper size' := by
  cases h with
  | term ht henv => exact .term ht (henv.mono hle)
  | composed hf hx => exact .composed (Nat.lt_of_lt_of_le hf hle) (Nat.lt_of_lt_of_le hx hle)

theorem Cell.Proper.mono {c : Cell} (h : c.Proper size) : c.Proper size' := by
  cases h with
  | delayed h => exact .delayed (h.mono hle)
  | running h => exact .running (h.mono hle)
  | done h => exact .done (h.mono hle)

end

/-! ## Tables and environments -/

namespace Table

variable {size : Nat}

theorem below_empty (size : Nat) : (empty : Table Addr).Below size := fun _ _ h => nomatch h

theorem Below.foldl_insert {t : Table Addr} (h : t.Below size) {entries : List (String × Addr)}
    (hentries : ∀ e ∈ entries, e.2 < size) :
    (entries.foldl (fun t p => t.insert p.1 p.2) t).Below size := by
  induction entries generalizing t with
  | nil => exact h
  | cons e rest ih =>
    obtain ⟨he, hrest⟩ := List.forall_mem_cons.mp hentries
    exact ih (h.insert e.1 he) hrest

theorem Below.of_mem {t : Table Addr} (h : t.Below size) {e : String × Addr}
    (he : e ∈ t.entries) : e.2 < size :=
  h e.1 e.2 (get?_eq_some_iff.mpr he)

theorem Below.merge {left right : Table Addr} (hleft : left.Below size)
    (hright : right.Below size) : (left.merge right).Below size :=
  hright.foldl_insert fun _ he => hleft.of_mem he

/-- Cells under keys, one for each key. -/
theorem below_zip (keys : List String) {cells : List Addr} (h : ∀ a ∈ cells, a < size) :
    (ofList (keys.zip cells)).Below size :=
  (below_empty size).foldl_insert fun e he => h e.2 (List.of_mem_zip (a := e.1) (b := e.2) he).2

/-- Names with cells one after the other. -/
theorem Below.bindFrom {env : Env} {base : Nat} {names : List String} (henv : env.Below size)
    (hbase : base + names.length ≤ size) :
    (LazyConfig.bindFrom base names env).Below size := by
  induction names generalizing base env with
  | nil => exact henv
  | cons x names ih =>
    have hfirst : base < size :=
      Nat.lt_of_lt_of_le (Nat.lt_add_of_pos_right (Nat.succ_pos _)) hbase
    rw [List.length_cons, Nat.add_comm names.length, ← Nat.add_assoc] at hbase
    exact ih (henv.insert x hfirst) hbase

end Table

/-! ## Stores -/

namespace Store

variable {s : Store}

/-- New cells may refer to each other. -/
theorem Proper.append (hs : s.Proper) {cs : List Cell}
    (hcs : ∀ c ∈ cs, c.Proper (s.next + cs.length)) : (s.append cs).Proper := by
  intro a c hc
  rw [next_append]
  rw [get?_append] at hc
  split at hc
  · exact (hs a c hc).mono (Nat.le_add_right _ _)
  · exact hcs c (List.mem_of_getElem? hc)

theorem Proper.set (hs : s.Proper) (a : Addr) {c : Cell} (hc : c.Proper s.next) :
    (s.set a c).Proper := by
  intro b d hd
  rw [next_set]
  rw [get?_set] at hd
  by_cases hab : a = b
  · rw [if_pos hab] at hd
    split at hd
    · exact Option.some.inj hd ▸ hc
    · exact nomatch hd
  · rw [if_neg hab] at hd
    exact hs b d hd

end Store

/-! ## Plain data -/

/-- Every cell of the store holds plain data, ready and complete. -/
def Store.IsPlain (s : Store) : Prop := ∀ a, a < s.next → ∃ d, s.Holds a d

namespace Store

variable {s : Store}

theorem ItemsAre.lt_next {ds : List Plain} {items : List Addr} (h : s.ItemsAre ds items) :
    ∀ a ∈ items, a < s.next := by
  induction ds generalizing items with
  | nil =>
    obtain rfl : items = [] := h
    exact fun a ha => absurd ha List.not_mem_nil
  | cons d ds ih =>
    obtain ⟨a, v, rest, rfl, ha, -, hrest⟩ := h
    exact List.forall_mem_cons.mpr ⟨lt_next_of_get? ha, ih hrest⟩

theorem EntriesAre.lt_next {ds : List (String × Plain)} {entries : List (String × Addr)}
    (h : s.EntriesAre ds entries) : ∀ e ∈ entries, e.2 < s.next := by
  induction ds generalizing entries with
  | nil =>
    obtain rfl : entries = [] := h
    exact fun e he => absurd he List.not_mem_nil
  | cons d ds ih =>
    obtain ⟨a, v, rest, rfl, ha, -, hrest⟩ := h
    exact List.forall_mem_cons.mpr ⟨lt_next_of_get? ha, ih hrest⟩

theorem ValueIs.proper {d : Plain} {v : Value} (h : s.ValueIs d v) : v.Proper s.next := by
  cases d with
  | text text =>
    obtain rfl : v = .text text := h
    exact .text text
  | list ds =>
    obtain ⟨items, rfl, hitems⟩ := h
    exact .list hitems.lt_next
  | dict ds =>
    obtain ⟨entries, rfl, hentries⟩ := h
    exact .dict fun x a hx => hentries.lt_next (x, a) (Table.get?_eq_some_iff.mp hx)
  | function f => exact nomatch f

theorem IsPlain.proper (h : s.IsPlain) : s.Proper := by
  intro a c hc
  obtain ⟨d, v, hv, hd⟩ := h a (lt_next_of_get? hc)
  obtain rfl : c = .done v := Option.some.inj (hc.symm.trans hv)
  exact .done hd.proper

theorem IsReady.below {env : Env} (h : s.IsReady env) : env.Below s.next := by
  intro x a hx
  obtain ⟨d, v, hv, -⟩ := h x a hx
  exact lt_next_of_get? hv

end Store

end LazyConfig
