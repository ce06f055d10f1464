import LazyConfig.Proofs.Keeping
set_option autoImplicit false

/-!
# Safety: entries that are read

A pattern reads the entries of a dict under its names, and a lookup reads one under a key.  If
they come to an end, the entries were there: no name is passed over.
-/

namespace LazyConfig

namespace Run.Ends

variable {tr : Bool} {n : Nat} {s t : Store}

/-- A cell that was forced has its value. -/
theorem get?_force {a : Addr} {v : Value}
    (h : (perform n (.force a)).Ends tr s (.value v) t) : t.get? a = some (.done v) := by
  cases n with
  | zero => cases h.1
  | succ n =>
    have hforce : (forceCell (perform n) a).Ends tr s (.value v) t := h
    cases ha : s.get? a with
    | none =>
      have hpeek : Run.peek a tr s = ⟨.error (.dangling a), s, []⟩ := by
        unfold Run.peek
        rw [ha]
      rw [Run.Ends, forceCell, Run.bind_of_error hpeek] at hforce
      cases hforce.1
    | some c =>
      cases c with
      | delayed k =>
        have hsettled := (forceCell_delayed (perform_keeps n) tr ha).2
        rw [hforce.1, hforce.2] at hsettled
        exact hsettled
      | running k =>
        rw [Run.Ends, forceCell, Run.bind_of_value (peek_apply ha)] at hforce
        cases hforce.1
      | done w =>
        rw [Run.Ends, forceCell, Run.bind_of_value (peek_apply ha)] at hforce
        obtain ⟨hvalue, rfl⟩ := hforce
        obtain rfl : w = v := Outcome.value.inj hvalue
        exact ha

/-- A dict that was needed is in its cell. -/
theorem get?_forceDict {caller : Builtin} {a : Addr} {entries : Table Addr}
    (h : (LazyConfig.forceDict (perform n) caller a).Ends tr s (.value entries) t) :
    t.get? a = some (.done (.dict entries)) := by
  obtain ⟨v, u, hv, h⟩ := h.value_of_bind
  cases v with
  | dict found =>
    obtain ⟨hvalue, rfl⟩ := h
    obtain rfl : found = entries := Outcome.value.inj hvalue
    exact hv.get?_force
  | text text => exact nomatch h.1
  | list items => exact nomatch h.1
  | closure binder body env => exact nomatch h.1
  | builtin f arguments => exact nomatch h.1

/-- A text that was needed is in its cell. -/
theorem get?_forceText {caller : Builtin} {a : Addr} {text : String}
    (h : (LazyConfig.forceText (perform n) caller a).Ends tr s (.value text) t) :
    t.get? a = some (.done (.text text)) := by
  obtain ⟨v, u, hv, h⟩ := h.value_of_bind
  cases v with
  | text found =>
    obtain ⟨hvalue, rfl⟩ := h
    obtain rfl : found = text := Outcome.value.inj hvalue
    exact hv.get?_force
  | dict entries => exact nomatch h.1
  | list items => exact nomatch h.1
  | closure binder body env => exact nomatch h.1
  | builtin f arguments => exact nomatch h.1

/-- A function that takes a dict apart has each of its names bound to the entry of the dict. -/
theorem bound_of_bindArgument {names : List String} {ellipsis : Bool} {a : Addr}
    {env inner : Env}
    (h : (bindArgument (perform n) (.keys names ellipsis) a env).Ends tr s (.value inner) t) :
    ∃ entries, t.get? a = some (.done (.dict entries)) ∧
      ∀ x ∈ names, ∃ c, entries.get? x = some c ∧ inner.get? x = some c := by
  obtain ⟨v, u, hv, h⟩ := h.value_of_bind
  cases v with
  | dict entries =>
    dsimp only at h
    cases hmissing : names.filter fun x => !entries.contains x with
    | cons x missing =>
      rw [hmissing] at h
      exact nomatch h.1
    | nil =>
      rw [hmissing] at h
      have hend : inner = bindNames entries names env ∧ t = u := by
        cases hextra : entries.keys.filter fun k => !names.contains k with
        | nil =>
          rw [hextra] at h
          exact ⟨(Outcome.value.inj h.1).symm, h.2.symm⟩
        | cons k extra =>
          rw [hextra] at h
          cases ellipsis with
          | false => exact nomatch h.1
          | true => exact ⟨(Outcome.value.inj h.1).symm, h.2.symm⟩
      obtain ⟨rfl, rfl⟩ := hend
      refine ⟨entries, hv.get?_force, fun x hx => ?_⟩
      have hcontains : entries.contains x = true := by
        simpa using List.filter_eq_nil_iff.mp hmissing x hx
      obtain ⟨c, hc⟩ := Option.isSome_iff_exists.mp hcontains
      refine ⟨c, hc, ?_⟩
      rw [get?_bindNames, if_pos hx, hc, Option.some_or]
  | text text => exact nomatch h.1
  | list items => exact nomatch h.1
  | closure binder body env => exact nomatch h.1
  | builtin f arguments => exact nomatch h.1

/-- A lookup gives the value of the entry that the dict has under the key. -/
theorem entry_of_lookup {subject key : Addr} {v : Value}
    (h : (runCall (perform n) (.lookup subject key)).Ends tr s (.value v) t) :
    ∃ entries k c, t.get? subject = some (.done (.dict entries)) ∧
      t.get? key = some (.done (.text k)) ∧ entries.get? k = some c ∧
      t.get? c = some (.done v) := by
  obtain ⟨entries, u, hentries, h⟩ := h.value_of_bind
  obtain ⟨k, u', hk, h⟩ := h.value_of_bind
  have hdict := hentries.get?_forceDict
  have htext := hk.get?_forceText
  cases hc : entries.get? k with
  | none =>
    rw [hc] at h
    exact nomatch h.1
  | some c =>
    rw [hc] at h
    have hlater : u'.Keeps t := h.2 ▸ perform_keeps n (.force c) tr u'
    have hbetween : u.Keeps u' := by
      have hkeeps := (Script.forceText .lookup key).run_keeps n tr u
      rw [Script.run_forceText] at hkeeps
      exact hk.2 ▸ hkeeps
    exact ⟨entries, k, c, hlater.done (hbetween.done hdict), hlater.done htext, hc, h.get?_force⟩

end Run.Ends

end LazyConfig
