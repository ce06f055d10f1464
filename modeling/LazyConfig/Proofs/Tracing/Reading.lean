import LazyConfig.Proofs.Parsing.Composition
set_option autoImplicit false

/-!
# Tracing: reading

A trace of the reader shows which alternatives were given up.  Nothing reads the record back,
so with a trace and without one a parser gives the same answer and raises the same failures in
the same order.  That holds of the steps and passes to everything that is put together from
them.
-/

namespace LazyConfig

/-- The failure that an event is, if it is one. -/
def Event.raised? : Event → Option Failure
  | .raised f => some f
  | .abandoned _ _ _ => none

/-- The failures that a run raised, in order. -/
def raisedFailures (events : List Event) : List Failure := events.filterMap Event.raised?

theorem raisedFailures_append (events later : List Event) :
    raisedFailures (events ++ later) = raisedFailures events ++ raisedFailures later :=
  List.filterMap_append

/-- Only the failures that were raised count for the furthest one. -/
theorem furthest?_eq_foldl (events : List Event) :
    furthest? events = ((raisedFailures events).map Event.raised).foldl further none := by
  unfold furthest?
  generalize (none : Option Failure) = best
  induction events generalizing best with
  | nil => rfl
  | cons event rest ih =>
    cases event with
    | raised f => exact ih _
    | abandoned branch start f => exact ih _

theorem furthest?_congr {events events' : List Event}
    (h : raisedFailures events = raisedFailures events') :
    furthest? events = furthest? events' := by
  rw [furthest?_eq_foldl, furthest?_eq_foldl, h]

theorem Verdict.ofReply_congr (reply : Reply Expr) {events events' : List Event}
    (h : raisedFailures events = raisedFailures events') :
    Verdict.ofReply reply events = Verdict.ofReply reply events' := by
  cases reply with
  | failed f => simp only [Verdict.ofReply, furthest?_congr h]
  | _ => rfl

namespace Parser

variable {α β : Type}

/-- With a trace and without one, the parser gives the same answer and raises the same
failures. -/
def TraceBlind (p : Parser α) : Prop :=
  ∀ (lexicon : Lexicon) (c : Cursor), (p ⟨lexicon, true⟩ c).1 = (p ⟨lexicon, false⟩ c).1 ∧
    raisedFailures (p ⟨lexicon, true⟩ c).2 = raisedFailures (p ⟨lexicon, false⟩ c).2

namespace TraceBlind

theorem bind {p : Parser α} {k : α → Parser β} (hp : p.TraceBlind) (hk : ∀ a, (k a).TraceBlind) :
    (p >>= k).TraceBlind := by
  intro lexicon c
  obtain ⟨hreply, hraised⟩ := hp lexicon c
  rw [bind_apply, bind_apply]
  rcases hon : p ⟨lexicon, true⟩ c with ⟨on, eventsOn⟩
  rcases hoff : p ⟨lexicon, false⟩ c with ⟨off, eventsOff⟩
  rw [hon, hoff] at hreply hraised
  obtain rfl : on = off := hreply
  cases on with
  | ok a after =>
    obtain ⟨hreply', hraised'⟩ := hk a lexicon after
    refine ⟨hreply', ?_⟩
    show raisedFailures (eventsOn ++ _) = raisedFailures (eventsOff ++ _)
    rw [raisedFailures_append, raisedFailures_append, hraised']
    exact congrArg (· ++ _) hraised
  | failed f => exact ⟨rfl, hraised⟩
  | exhausted => exact ⟨rfl, hraised⟩

/-- An alternative that is given up leaves the parser where it was, noted or not. -/
theorem attempt {p : Parser α} (branch : Branch) (hp : p.TraceBlind) :
    (attempt branch p).TraceBlind := by
  intro lexicon c
  obtain ⟨hreply, hraised⟩ := hp lexicon c
  unfold Parser.attempt
  rcases hon : p ⟨lexicon, true⟩ c with ⟨on, eventsOn⟩
  rcases hoff : p ⟨lexicon, false⟩ c with ⟨off, eventsOff⟩
  rw [hon, hoff] at hreply hraised
  obtain rfl : on = off := hreply
  cases on with
  | ok a after => exact ⟨rfl, hraised⟩
  | failed f =>
    refine ⟨rfl, ?_⟩
    show raisedFailures (eventsOn ++ [.abandoned branch c.offset f]) =
      raisedFailures (eventsOff ++ [])
    rw [raisedFailures_append, List.append_nil]
    exact (List.append_nil _).trans hraised
  | exhausted => exact ⟨rfl, hraised⟩

/-- Nothing but giving up an alternative looks at whether there is a trace. -/
theorem compositional : Compositional TraceBlind where
  value _ _ _ := ⟨rfl, rfl⟩
  sequence := bind
  exhausted _ _ := ⟨rfl, rfl⟩
  failAt _ _ _ _ := ⟨rfl, rfl⟩
  cursor _ _ := ⟨rfl, rfl⟩
  seek _ _ _ := ⟨rfl, rfl⟩
  ahead _ _ _ := ⟨rfl, rfl⟩
  advance _ _ _ := ⟨rfl, rfl⟩
  attempt := attempt
  measured _ h lexicon c := h _ lexicon c

end TraceBlind

end Parser

open LazyConfig.Parser

/-- A text is accepted as the same tree or refused for the same failure, whether the run is
traced or not, and the same failures are raised on the way. -/
theorem readTraced_traceBlind (lexicon : Lexicon) (text : String) :
    (readTraced ⟨lexicon, true⟩ text).1 = (readTraced ⟨lexicon, false⟩ text).1 ∧
      raisedFailures (readTraced ⟨lexicon, true⟩ text).2 =
        raisedFailures (readTraced ⟨lexicon, false⟩ text).2 := by
  have hrules := TraceBlind.compositional.ofDepth (text.toList.length + 1)
  obtain ⟨hreply, hraised⟩ := TraceBlind.compositional.program hrules lexicon ⟨0, text.toList⟩
  refine ⟨?_, hraised⟩
  refine Eq.trans (Verdict.ofReply_congr _ hraised) ?_
  exact congrArg (Verdict.ofReply · _) hreply

end LazyConfig
