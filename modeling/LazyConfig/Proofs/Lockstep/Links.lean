import LazyConfig.Eval.Step
import LazyConfig.Term.Free
import LazyConfig.Proofs.Tables
import LazyConfig.Proofs.Stores
set_option autoImplicit false

/-!
# Lockstep: linked stores

Two runs may do the same although they keep their cells at other addresses, and although
their environments differ in names that no term needs.  A link says which cells stand
for each other.  What is inside values and suspended computations is compared through
it, and two stores are linked if the cells that stand for each other are alike.

The first store may have further cells, which the second one lacks.  A frame says what
some of them hold; a run that goes through linked cells only leaves them alone.
-/

namespace LazyConfig

/-- Which cell of the second store stands for a cell of the first. -/
abbrev Link := Addr → Addr → Prop

namespace Link

/-- The later link has all pairs of the earlier one. -/
def Le (β γ : Link) : Prop := ∀ a c, β a c → γ a c

theorem Le.refl (β : Link) : β.Le β := fun _ _ h => h

theorem Le.trans {β γ ζ : Link} (h : β.Le γ) (h' : γ.Le ζ) : β.Le ζ :=
  fun a c hac => h' a c (h a c hac)

/-- The link that also pairs as many new cells of both stores, in order. -/
def extend (β : Link) (base base' count : Nat) : Link := fun a c =>
  β a c ∨ ∃ i, i < count ∧ a = base + i ∧ c = base' + i

theorem le_extend (β : Link) (base base' count : Nat) : β.Le (β.extend base base' count) :=
  fun _ _ h => Or.inl h

theorem extend_add (β : Link) (base base' : Nat) {count i : Nat} (hi : i < count) :
    β.extend base base' count (base + i) (base' + i) :=
  Or.inr ⟨i, hi, rfl, rfl⟩

theorem extend_range' (β : Link) (base base' count : Nat) :
    List.Forall₂ (β.extend base base' count) (List.range' base count)
      (List.range' base' count) := by
  refine List.forall₂_iff_get.mpr ⟨by simp, fun i hi hi' => ?_⟩
  rw [List.length_range'] at hi
  simpa using β.extend_add base base' hi

end Link

/-! ## What is alike -/

/-- Each name that is free in the term is bound to linked cells, or to none. -/
def EnvAlike (β : Link) (t : Term) (env env' : Env) : Prop :=
  ∀ x, t.hasFree x = true → Paired β (env.get? x) (env'.get? x)

/-- Values with linked cells inside. -/
inductive ValueAlike (β : Link) : Value → Value → Prop where
  | text (s : String) : ValueAlike β (.text s) (.text s)
  | list {items items' : List Addr} (h : List.Forall₂ β items items') :
      ValueAlike β (.list items) (.list items')
  | dict {entries entries' : Table Addr} (h : Keyed β entries.entries entries'.entries) :
      ValueAlike β (.dict entries) (.dict entries')
  | closure {binder : Binder} {body : Term} {env env' : Env}
      (h : EnvAlike β (.lam binder body) env env') :
      ValueAlike β (.closure binder body env) (.closure binder body env')
  | builtin {b : Builtin} {arguments arguments' : List Addr}
      (h : List.Forall₂ β arguments arguments') :
      ValueAlike β (.builtin b arguments) (.builtin b arguments')

/-- Suspended computations of the same kind over linked cells. -/
inductive SuspensionAlike (β : Link) : Suspension → Suspension → Prop where
  | term {t : Term} {env env' : Env} (h : EnvAlike β t env env') :
      SuspensionAlike β (.term t env) (.term t env')
  | composed {f x g y : Addr} (hf : β f g) (hx : β x y) :
      SuspensionAlike β (.composed f x) (.composed g y)

/-- Cells in the same state. -/
inductive CellAlike (β : Link) : Cell → Cell → Prop where
  | delayed {c d : Suspension} (h : SuspensionAlike β c d) : CellAlike β (.delayed c) (.delayed d)
  | running {c d : Suspension} (h : SuspensionAlike β c d) : CellAlike β (.running c) (.running d)
  | done {v w : Value} (h : ValueAlike β v w) : CellAlike β (.done v) (.done w)

/-- Calls of one builtin function with linked arguments. -/
inductive CallAlike (β : Link) : Call → Call → Prop where
  | identity {x x' : Addr} (hx : β x x') : CallAlike β (.identity x) (.identity x')
  | compose {f g x f' g' x' : Addr} (hf : β f f') (hg : β g g') (hx : β x x') :
      CallAlike β (.compose f g x) (.compose f' g' x')
  | append {a b a' b' : Addr} (ha : β a a') (hb : β b b') :
      CallAlike β (.append a b) (.append a' b')
  | lookup {d k d' k' : Addr} (hd : β d d') (hk : β k k') :
      CallAlike β (.lookup d k) (.lookup d' k')
  | mergeLeft {a b a' b' : Addr} (ha : β a a') (hb : β b b') :
      CallAlike β (.mergeLeft a b) (.mergeLeft a' b')
  | disallowExtra {ks d ks' d' : Addr} (hks : β ks ks') (hd : β d d') :
      CallAlike β (.disallowExtra ks d) (.disallowExtra ks' d')

/-- Tasks over linked cells. -/
inductive TaskAlike (β : Link) : Task → Task → Prop where
  | eval {t : Term} {env env' : Env} (h : EnvAlike β t env env') :
      TaskAlike β (.eval t env) (.eval t env')
  | apply {v w : Value} {a c : Addr} (hv : ValueAlike β v w) (ha : β a c) :
      TaskAlike β (.apply v a) (.apply w c)
  | force {a c : Addr} (ha : β a c) : TaskAlike β (.force a) (.force c)

/-- The same failure; a computation that needs its own value is named by its cell. -/
inductive ErrorAlike (β : Link) : EvalError → EvalError → Prop where
  | same (e : EvalError) : ErrorAlike β e e
  | recursion {c d : Suspension} (h : SuspensionAlike β c d) :
      ErrorAlike β (.infiniteRecursion c) (.infiniteRecursion d)

/-! ## What is alike stays alike -/

section

variable {β γ : Link} (h : β.Le γ)

include h

theorem EnvAlike.mono {t : Term} {env env' : Env} (he : EnvAlike β t env env') :
    EnvAlike γ t env env' := by
  intro x hx
  exact (he x hx).imp h

theorem ValueAlike.mono {v w : Value} (hv : ValueAlike β v w) : ValueAlike γ v w := by
  cases hv with
  | text s => exact .text s
  | list hi => exact .list (hi.imp h)
  | dict he => exact .dict (he.imp h)
  | closure he => exact .closure (he.mono h)
  | builtin hi => exact .builtin (hi.imp h)

theorem SuspensionAlike.mono {c d : Suspension} (hc : SuspensionAlike β c d) :
    SuspensionAlike γ c d := by
  cases hc with
  | term he => exact .term (he.mono h)
  | composed hf hx => exact .composed (h _ _ hf) (h _ _ hx)

theorem CellAlike.mono {c d : Cell} (hc : CellAlike β c d) : CellAlike γ c d := by
  cases hc with
  | delayed hs => exact .delayed (hs.mono h)
  | running hs => exact .running (hs.mono h)
  | done hv => exact .done (hv.mono h)

end

/-- Environments that are alike for a term are alike for its parts. -/
theorem EnvAlike.of_hasFree {β : Link} {t u : Term} {env env' : Env} (he : EnvAlike β t env env')
    (h : ∀ x, u.hasFree x = true → t.hasFree x = true) : EnvAlike β u env env' := by
  intro x hx
  exact he x (h x hx)

/-- A builtin function with linked arguments is called on both sides, or on none. -/
theorem call?_alike {β : Link} (b : Builtin) {arguments arguments' : List Addr}
    (h : List.Forall₂ β arguments arguments') :
    Paired (CallAlike β) (b.call? arguments) (b.call? arguments') := by
  rcases h with _ | ⟨hx, _ | ⟨hy, _ | ⟨hz, _ | ⟨hw, hrest⟩⟩⟩⟩ <;> cases b
  all_goals try exact Or.inr ⟨rfl, rfl⟩
  · exact .some (.identity hx)
  · exact .some (.append hx hy)
  · exact .some (.lookup hx hy)
  · exact .some (.mergeLeft hx hy)
  · exact .some (.disallowExtra hx hy)
  · exact .some (.compose hx hy hz)

theorem ValueAlike.summary_eq {β : Link} {v w : Value} (h : ValueAlike β v w) :
    v.summary = w.summary := by
  cases h with
  | text s => rfl
  | list hi => exact congrArg Summary.list hi.length_eq
  | dict he => exact congrArg Summary.dict he.keys_eq
  | closure he => rfl
  | builtin hi => rfl

/-- Failures that are alike are reported in the same words. -/
theorem ErrorAlike.message_eq {β : Link} {e e' : EvalError} (h : ErrorAlike β e e')
    (labelled : Bool) : e.message labelled = e'.message labelled := by
  cases h with
  | same => rfl
  | recursion hc =>
    cases hc with
    | term he => rfl
    | composed hf hx => rfl

/-! ## Linked stores -/

/-- What is known of the cells of the first store besides the linked ones. -/
structure Frame where
  /-- Cells that nothing stands for, with what they hold. -/
  held : Addr → Cell → Prop
  /-- There are no such cells. -/
  whole : Prop

/-- The frame that says nothing. -/
def Frame.silent : Frame := ⟨fun _ _ => False, False⟩

/-- Cells that stand for each other are alike. -/
structure Linked (β : Link) (φ : Frame) (s s' : Store) : Prop where
  /-- Linked cells exist and are alike. -/
  cells : ∀ a c, β a c → ∃ d d', s.get? a = some d ∧ s'.get? c = some d' ∧ CellAlike β d d'
  /-- No cell has two that stand for it. -/
  forth : ∀ a c c', β a c → β a c' → c = c'
  /-- No cell stands for two. -/
  back : ∀ a a' c, β a c → β a' c → a = a'
  /-- The cells of the frame hold what it says. -/
  held : ∀ a d, φ.held a d → s.get? a = some d ∧ ∀ c, ¬ β a c
  /-- Each cell has one that stands for it, if the frame says so. -/
  whole : φ.whole → ∀ a, a < s.next → ∃ c, β a c

namespace Linked

variable {β : Link} {φ : Frame} {s s' : Store} {a c : Addr}

theorem lt_next (h : Linked β φ s s') (hac : β a c) : a < s.next ∧ c < s'.next := by
  obtain ⟨d, d', hd, hd', -⟩ := h.cells a c hac
  exact ⟨Store.lt_next_of_get? hd, Store.lt_next_of_get? hd'⟩

theorem ne_new (h : Linked β φ s s') (hac : β a c) (i : Nat) :
    a ≠ s.next + i ∧ c ≠ s'.next + i := by
  obtain ⟨d, d', hd, hd', -⟩ := h.cells a c hac
  exact ⟨Store.ne_new_of_get? hd i, Store.ne_new_of_get? hd' i⟩

/-- New cells may refer to each other, so they are linked all at once. -/
theorem append (h : Linked β φ s s') {cs ds : List Cell} {count : Nat} (hcount : cs.length = count)
    (hcells : List.Forall₂ (CellAlike (β.extend s.next s'.next count)) cs ds) :
    Linked (β.extend s.next s'.next count) φ (s.append cs) (s'.append ds) where
  cells := by
    rintro a c (hac | ⟨i, hi, rfl, rfl⟩)
    · obtain ⟨d, d', hd, hd', halike⟩ := h.cells a c hac
      exact ⟨d, d', Store.get?_append_of_some hd cs, Store.get?_append_of_some hd' ds,
        halike.mono (β.le_extend _ _ _)⟩
    · have hi : i < cs.length := hcount ▸ hi
      have hi' : i < ds.length := hcells.length_eq ▸ hi
      refine ⟨cs[i], ds[i], ?_, ?_, hcells.get hi hi'⟩
      · rw [Store.get?_append_add, List.getElem?_eq_getElem hi]
      · rw [Store.get?_append_add, List.getElem?_eq_getElem hi']
  forth := by
    rintro a c c' (hac | ⟨i, hi, ha, hc⟩) (hac' | ⟨j, hj, ha', hc'⟩)
    · exact h.forth a c c' hac hac'
    · exact absurd ha' (h.ne_new hac j).1
    · exact absurd ha (h.ne_new hac' i).1
    · obtain rfl : i = j := Nat.add_left_cancel (ha.symm.trans ha')
      exact hc.trans hc'.symm
  back := by
    rintro a a' c (hac | ⟨i, hi, ha, hc⟩) (hac' | ⟨j, hj, ha', hc'⟩)
    · exact h.back a a' c hac hac'
    · exact absurd hc' (h.ne_new hac j).2
    · exact absurd hc (h.ne_new hac' i).2
    · obtain rfl : i = j := Nat.add_left_cancel (hc.symm.trans hc')
      exact ha.trans ha'.symm
  held := by
    intro a d hd
    obtain ⟨hget, hfree⟩ := h.held a d hd
    refine ⟨Store.get?_append_of_some hget cs, ?_⟩
    rintro c (hac | ⟨i, -, ha, -⟩)
    · exact hfree c hac
    · exact Store.ne_new_of_get? hget i ha
  whole := by
    intro hw a ha
    rw [Store.next_append] at ha
    by_cases hlt : a < s.next
    · obtain ⟨c, hac⟩ := h.whole hw a hlt
      exact ⟨c, Or.inl hac⟩
    · have hle : s.next ≤ a := Nat.not_lt.mp hlt
      have hi : a - s.next < cs.length := Nat.sub_lt_left_of_lt_add hle ha
      have hsum : s.next + (a - s.next) = a := Nat.add_sub_cancel' hle
      exact ⟨s'.next + (a - s.next), Or.inr ⟨a - s.next, hcount ▸ hi, hsum.symm, rfl⟩⟩

/-- Linked cells may change together. -/
theorem set (h : Linked β φ s s') (hac : β a c) {d d' : Cell} (halike : CellAlike β d d') :
    Linked β φ (s.set a d) (s'.set c d') where
  cells := by
    intro b b' hb
    obtain ⟨e, e', he, he', hold⟩ := h.cells b b' hb
    by_cases hab : a = b
    · subst hab
      obtain rfl := h.forth a c b' hac hb
      refine ⟨d, d', ?_, ?_, halike⟩
      · rw [Store.get?_set, if_pos rfl, if_pos (h.lt_next hac).1]
      · rw [Store.get?_set, if_pos rfl, if_pos (h.lt_next hac).2]
    · have hcb : c ≠ b' := by
        rintro rfl
        exact hab (h.back a b c hac hb)
      refine ⟨e, e', ?_, ?_, hold⟩
      · rw [Store.get?_set, if_neg hab, he]
      · rw [Store.get?_set, if_neg hcb, he']
  forth := h.forth
  back := h.back
  held := by
    intro b e hb
    obtain ⟨hget, hfree⟩ := h.held b e hb
    refine ⟨?_, hfree⟩
    have hab : a ≠ b := by
      rintro rfl
      exact hfree c hac
    rw [Store.get?_set, if_neg hab, hget]
  whole := by
    intro hw b hb
    rw [Store.next_set] at hb
    exact h.whole hw b hb

/-- The first store may change in cells that nothing stands for. -/
theorem left (h : Linked β φ s s') {ψ : Frame} {t : Store}
    (hsame : ∀ a c, β a c → t.get? a = s.get? a)
    (hheld : ∀ a d, ψ.held a d → t.get? a = some d ∧ ∀ c, ¬ β a c) (hwhole : ¬ ψ.whole) :
    Linked β ψ t s' where
  cells := by
    intro a c hac
    obtain ⟨d, d', hd, hd', halike⟩ := h.cells a c hac
    exact ⟨d, d', by rw [hsame a c hac, hd], hd', halike⟩
  forth := h.forth
  back := h.back
  held := hheld
  whole := fun hw => absurd hw hwhole

/-- What the frame says may be forgotten. -/
theorem silent (h : Linked β φ s s') : Linked β .silent s s' :=
  h.left (fun _ _ _ => rfl) (fun _ _ hd => hd.elim) id

/-- A cell that nothing stands for may be linked to a new one. -/
theorem adopt (h : Linked β .silent s s') {d d' : Cell} (ha : s.get? a = some d)
    (hfree : ∀ c, ¬ β a c) (halike : CellAlike β d d') :
    Linked (β.extend a s'.next 1) .silent s (s'.append [d']) where
  cells := by
    rintro b c (hbc | ⟨i, hi, rfl, rfl⟩)
    · obtain ⟨e, e', he, he', hold⟩ := h.cells b c hbc
      exact ⟨e, e', he, Store.get?_append_of_some he' _, hold.mono (β.le_extend _ _ _)⟩
    · obtain rfl : i = 0 := Nat.lt_one_iff.mp hi
      exact ⟨d, d', ha, Store.get?_append_next s' d' [], halike.mono (β.le_extend _ _ _)⟩
  forth := by
    rintro b c c' (hbc | ⟨i, hi, hb, hc⟩) (hbc' | ⟨j, hj, hb', hc'⟩)
    · exact h.forth b c c' hbc hbc'
    · obtain rfl : j = 0 := Nat.lt_one_iff.mp hj
      subst hb'
      exact absurd hbc (hfree c)
    · obtain rfl : i = 0 := Nat.lt_one_iff.mp hi
      subst hb
      exact absurd hbc' (hfree c')
    · obtain rfl : i = j := Nat.add_left_cancel (hb.symm.trans hb')
      exact hc.trans hc'.symm
  back := by
    rintro b b' c (hbc | ⟨i, hi, hb, hc⟩) (hbc' | ⟨j, hj, hb', hc'⟩)
    · exact h.back b b' c hbc hbc'
    · exact absurd hc' (h.ne_new hbc j).2
    · exact absurd hc (h.ne_new hbc' i).2
    · obtain rfl : i = j := Nat.add_left_cancel (hc.symm.trans hc')
      exact hb.trans hb'.symm
  held := fun b e hb => hb.elim
  whole := fun hw => hw.elim

end Linked

end LazyConfig
