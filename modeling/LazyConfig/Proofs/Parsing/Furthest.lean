import LazyConfig.Proofs.Parsing.Termination
set_option autoImplicit false

/-!
# Parsing: the failure that is reported

A text is refused for one failure, although its run may have raised many and recovered from
most of them.  Every failure that a run meets is in its record, so the one that is reported can
be compared with all of them: none is further into the text, and behind it in the record all are
less far.  A reader is told its line and column, and no other place of the text has these two.
-/

namespace LazyConfig

/-! ## Lines and columns -/

namespace Text

/-- The number of newlines in front of an offset. -/
def newlinesBefore (text : List Char) (offset : Nat) : Nat := (text.take offset).count '\n'

/-- The distance of an offset from the last newline in front of it, or from the start. -/
def sinceNewline (text : List Char) (offset : Nat) : Nat :=
  ((text.take offset).reverse.takeWhile (· != '\n')).length

theorem Position.foldl_next_start (cs : List Char) :
    cs.foldl Position.next Position.start =
      ⟨1 + cs.count '\n', 1 + (cs.reverse.takeWhile (· != '\n')).length⟩ := by
  rw [List.foldl_eq_foldr_reverse, ← List.count_reverse]
  -- The last character decides whether a line starts, so the induction takes it off first.
  induction cs.reverse with
  | nil => rfl
  | cons c rest ih =>
    rw [List.foldr_cons, ih]
    by_cases hc : c = '\n'
    · subst hc
      simp [Position.next, Nat.add_assoc]
    · simp [Position.next, hc, Nat.add_assoc]

theorem Position.ofOffset_eq (text : List Char) (offset : Nat) :
    Position.ofOffset text offset =
      ⟨1 + newlinesBefore text offset, 1 + sinceNewline text offset⟩ :=
  Position.foldl_next_start _

/-- In a line, what is added counts for the distance from its start. -/
theorem length_takeWhile_reverse_append {front back : List Char} (h : '\n' ∉ back) :
    ((front ++ back).reverse.takeWhile (· != '\n')).length =
      (front.reverse.takeWhile (· != '\n')).length + back.length := by
  rw [List.reverse_append, List.takeWhile_append_of_pos, List.length_append, List.length_reverse,
    Nat.add_comm]
  intro c hc
  refine bne_iff_ne.mpr ?_
  rintro rfl
  exact h (List.mem_reverse.mp hc)

/-- Further on in the same line the distance from its start is greater. -/
theorem sinceNewline_lt {text : List Char} {o p : Nat} (hlt : o < p) (hp : p ≤ text.length)
    (h : newlinesBefore text o = newlinesBefore text p) :
    sinceNewline text o < sinceNewline text p := by
  obtain ⟨n, rfl⟩ : ∃ n, p = o + n := ⟨p - o, by omega⟩
  have htake : text.take (o + n) = text.take o ++ (text.drop o).take n := List.take_add
  have hnone : '\n' ∉ (text.drop o).take n := by
    unfold newlinesBefore at h
    rw [htake, List.count_append] at h
    exact List.count_eq_zero.mp (by omega)
  unfold sinceNewline
  rw [htake, length_takeWhile_reverse_append hnone]
  simp only [List.length_take, List.length_drop]
  omega

/-- A place of a text is known by its line and its column. -/
theorem offset_eq_of_line_of_column {text : List Char} {o p : Nat} (ho : o ≤ text.length)
    (hp : p ≤ text.length) (hline : newlinesBefore text o = newlinesBefore text p)
    (hcolumn : sinceNewline text o = sinceNewline text p) : o = p := by
  rcases Nat.lt_trichotomy o p with hlt | heq | hlt
  · exact absurd hcolumn (Nat.ne_of_lt (sinceNewline_lt hlt hp hline))
  · exact heq
  · exact absurd hcolumn.symm (Nat.ne_of_lt (sinceNewline_lt hlt ho hline.symm))

end Text

/-! ## The furthest failure of a record -/

/-- None of the failures is further than the given one, and those behind it are less far. -/
def Failure.IsLastFurthest (f : Failure) (failures : List Failure) : Prop :=
  ∃ before after, failures = before ++ f :: after ∧ (∀ g ∈ before, g.offset ≤ f.offset) ∧
    ∀ g ∈ after, g.offset < f.offset

namespace Failure.IsLastFurthest

variable {f g b : Failure} {failures : List Failure}

theorem mem (h : f.IsLastFurthest failures) : f ∈ failures := by
  obtain ⟨before, after, rfl, -⟩ := h
  simp

theorem offset_le (h : f.IsLastFurthest failures) (hg : g ∈ failures) : g.offset ≤ f.offset := by
  obtain ⟨before, after, rfl, hbefore, hafter⟩ := h
  rcases List.mem_append.mp hg with hg | hg
  · exact hbefore g hg
  · rcases List.mem_cons.mp hg with rfl | hg
    · exact Nat.le_refl _
    · exact Nat.le_of_lt (hafter g hg)

theorem cons (h : f.IsLastFurthest failures) (hg : g.offset ≤ f.offset) :
    f.IsLastFurthest (g :: failures) := by
  obtain ⟨before, after, rfl, hbefore, hafter⟩ := h
  exact ⟨g :: before, after, rfl, List.forall_mem_cons.mpr ⟨hg, hbefore⟩, hafter⟩

/-- A failure that is less far than the one in front changes nothing. -/
theorem insert_second (h : f.IsLastFurthest (b :: failures)) (hg : g.offset < b.offset) :
    f.IsLastFurthest (b :: g :: failures) := by
  obtain ⟨before, after, heq, hbefore, hafter⟩ := h
  cases before with
  | nil =>
    obtain ⟨rfl, rfl⟩ := List.cons.inj heq
    exact ⟨[], g :: failures, rfl, hbefore, List.forall_mem_cons.mpr ⟨hg, hafter⟩⟩
  | cons b' before =>
    obtain ⟨rfl, rfl⟩ := List.cons.inj heq
    obtain ⟨hb, hbefore⟩ := List.forall_mem_cons.mp hbefore
    exact (cons ⟨before, after, rfl, hbefore, hafter⟩ (Nat.le_trans (Nat.le_of_lt hg) hb)).cons hb

end Failure.IsLastFurthest

/-- What the record is searched for, with the best failure so far in front. -/
theorem isLastFurthest_of_foldl {best : Option Failure} {events : List Event} {f : Failure}
    (h : events.foldl further best = some f) :
    f.IsLastFurthest (best.toList ++ raisedFailures events) := by
  induction events generalizing best with
  | nil =>
    obtain rfl : best = some f := h
    exact ⟨[], [], rfl, nofun, nofun⟩
  | cons event rest ih =>
    have hrest := ih h
    cases event with
    | abandoned branch start g => exact hrest
    | raised g =>
      cases best with
      | none => exact hrest
      | some b =>
        by_cases hle : b.offset ≤ g.offset
        · simp only [further, if_pos hle] at hrest
          exact hrest.cons (Nat.le_trans hle (hrest.offset_le (by simp)))
        · simp only [further, if_neg hle] at hrest
          exact hrest.insert_second (Nat.lt_of_not_le hle)

theorem isSome_foldl_further {best : Option Failure} {events : List Event}
    (h : best.isSome ∨ raisedFailures events ≠ []) : (events.foldl further best).isSome := by
  induction events generalizing best with
  | nil => exact h.resolve_right fun hne => hne rfl
  | cons event rest ih =>
    refine ih ?_
    cases event with
    | abandoned branch start g => exact h
    | raised g =>
      left
      cases best with
      | none => rfl
      | some b =>
        simp only [further]
        split <;> rfl

/-- If a failure was raised, the furthest one is found. -/
theorem exists_furthest?_of_mem {events : List Event} {g : Failure}
    (hg : g ∈ raisedFailures events) :
    ∃ f, furthest? events = some f ∧ f.IsLastFurthest (raisedFailures events) := by
  have hsome : (furthest? events).isSome := isSome_foldl_further (.inr (List.ne_nil_of_mem hg))
  obtain ⟨f, hf⟩ := Option.isSome_iff_exists.mp hsome
  exact ⟨f, hf, isLastFurthest_of_foldl hf⟩

/-! ## What a run meets is in its record -/

namespace Parser

variable {α β : Type}

/-- A run that fails has raised its failure, and so has every alternative that was given up. -/
def Records (p : Parser α) : Prop :=
  ∀ (s : Settings) (c : Cursor), (∀ f, (p s c).1 = .failed f → f ∈ raisedFailures (p s c).2) ∧
    ∀ branch start f, .abandoned branch start f ∈ (p s c).2 → f ∈ raisedFailures (p s c).2

namespace Records

theorem bind {p : Parser α} {k : α → Parser β} (hp : p.Records) (hk : ∀ a, (k a).Records) :
    (p >>= k).Records := by
  intro s c
  obtain ⟨hfailed, habandoned⟩ := hp s c
  rcases hr : p s c with ⟨reply, events⟩
  rw [hr] at hfailed habandoned
  cases reply with
  | ok a after =>
    obtain ⟨hfailed', habandoned'⟩ := hk a s after
    rw [bind_of_ok hr, raisedFailures_append]
    refine ⟨fun f hf => List.mem_append_right _ (hfailed' f hf), fun branch start f hmem => ?_⟩
    rcases List.mem_append.mp hmem with hmem | hmem
    · exact List.mem_append_left _ (habandoned branch start f hmem)
    · exact List.mem_append_right _ (habandoned' branch start f hmem)
  | failed f =>
    rw [bind_of_failed hr]
    exact ⟨fun g hg => hfailed g (by rw [Reply.failed.inj hg]), habandoned⟩
  | exhausted =>
    rw [bind_apply, hr]
    exact ⟨nofun, habandoned⟩

theorem attempt {p : Parser α} (branch : Branch) (hp : p.Records) : (attempt branch p).Records := by
  intro s c
  obtain ⟨hfailed, habandoned⟩ := hp s c
  unfold Parser.attempt
  rcases hr : p s c with ⟨reply, events⟩
  rw [hr] at hfailed habandoned
  cases reply with
  | ok a after => exact ⟨nofun, habandoned⟩
  | failed f =>
    refine ⟨nofun, fun branch' start g hmem => ?_⟩
    rw [raisedFailures_append]
    refine List.mem_append_left _ ?_
    rcases List.mem_append.mp hmem with hmem | hmem
    · exact habandoned branch' start g hmem
    · cases htracing : s.tracing with
      | true =>
        rw [htracing] at hmem
        cases List.mem_singleton.mp hmem
        exact hfailed f rfl
      | false =>
        rw [htracing] at hmem
        exact absurd hmem List.not_mem_nil
  | exhausted => exact ⟨nofun, habandoned⟩

/-- Failures are raised in one place only. -/
theorem compositional : Compositional Records where
  value _ _ _ := ⟨nofun, nofun⟩
  sequence := bind
  exhausted _ _ := ⟨nofun, nofun⟩
  failAt cause offset _ _ := ⟨fun f hf => by
    obtain rfl := Reply.failed.inj hf
    exact List.mem_singleton.mpr rfl, by simp [failAt]⟩
  cursor _ _ := ⟨nofun, nofun⟩
  seek _ _ _ := ⟨nofun, nofun⟩
  ahead _ _ _ := ⟨nofun, nofun⟩
  advance _ _ _ := ⟨nofun, nofun⟩
  attempt := attempt
  measured _ h s c := h _ s c

end Records

end Parser

/-! ## The failure of a text -/

open LazyConfig.Parser

theorem records_program (s : Settings) (text : String) :
    (∀ g, (Parser.run program s text).1 = .failed g → g ∈ raisedFailures (readTraced s text).2) ∧
      ∀ branch start g, .abandoned branch start g ∈ (readTraced s text).2 →
        g ∈ raisedFailures (readTraced s text).2 :=
  Records.compositional.program (Records.compositional.ofDepth _) s ⟨0, text.toList⟩

/-- What a text is refused for is the furthest failure of its record. -/
theorem isLastFurthest_of_refused {s : Settings} {text : String} {f : Failure}
    (h : (readTraced s text).1 = .refused f) :
    f.IsLastFurthest (raisedFailures (readTraced s text).2) := by
  have hverdict : Verdict.ofReply (Parser.run program s text).1 (readTraced s text).2 =
      .refused f := h
  cases hr : (Parser.run program s text).1 with
  | ok e d =>
    rw [hr] at hverdict
    cases hverdict
  | exhausted =>
    rw [hr] at hverdict
    cases hverdict
  | failed g =>
    obtain ⟨f', hfurthest, hlast⟩ := exists_furthest?_of_mem ((records_program s text).1 g hr)
    rw [hr, Verdict.ofReply, hfurthest] at hverdict
    obtain rfl : f' = f := Verdict.refused.inj hverdict
    exact hlast

/-- With a trace or without, the same failures are raised. -/
theorem raisedFailures_readTraced (s : Settings) (text : String) :
    raisedFailures (readTraced ⟨s.lexicon, true⟩ text).2 =
      raisedFailures (readTraced s text).2 := by
  obtain ⟨lexicon, tracing⟩ := s
  cases tracing with
  | true => rfl
  | false => exact (readTraced_traceBlind lexicon text).2

/-- A text is refused for the furthest failure, and its line and column are those of no other
place.  The failure lies in the text; no failure that was raised on the way is further, be it
the one that ended the run or one for which an alternative was given up, and those raised later
are less far. -/
theorem refused_furthest (s : Settings) (text : String) (f : Failure)
    (h : (readTraced s text).1 = .refused f) :
    f.offset ≤ text.length ∧
      f.IsLastFurthest (raisedFailures (readTraced s text).2) ∧
      (∀ g, (Parser.run program s text).1 = .failed g → g.offset ≤ f.offset) ∧
      (∀ branch start g, .abandoned branch start g ∈ (readTraced ⟨s.lexicon, true⟩ text).2 →
        g.offset ≤ f.offset) ∧
      f.message text = f.cause.words ++
        " at line " ++ toString (1 + Text.newlinesBefore text.toList f.offset) ++
        ", column " ++ toString (1 + Text.sinceNewline text.toList f.offset) ∧
      ∀ o ≤ text.length,
        Text.newlinesBefore text.toList o = Text.newlinesBefore text.toList f.offset →
        Text.sinceNewline text.toList o = Text.sinceNewline text.toList f.offset →
        o = f.offset := by
  have hlast := isLastFurthest_of_refused h
  have hin : f.offset ≤ text.toList.length := (proceeds_program s text.toList).raised f hlast.mem
  have hlength : text.toList.length = text.length := String.length_toList
  refine ⟨hlength ▸ hin, hlast, fun g hg => ?_, fun branch start g hg => ?_, ?_,
    fun o ho => Text.offset_eq_of_line_of_column (hlength ▸ ho) hin⟩
  · exact hlast.offset_le ((records_program s text).1 g hg)
  · have hraised := (records_program ⟨s.lexicon, true⟩ text).2 branch start g hg
    rw [raisedFailures_readTraced] at hraised
    exact hlast.offset_le hraised
  · simp only [Failure.message, Text.Position.ofOffset_eq, Text.Position.describe,
      String.append_assoc]

/-- The run ends where a second argument does not, but it has come further in an alternative
that it gave up: behind the question mark a default is missing. -/
theorem refused_furthest_default :
    (readTraced (Settings.standard false) "x\n\x7b a ? \x7d").1 = .refused ⟨.noIdentifier, 8⟩ ∧
      Failure.IsLastFurthest ⟨.noIdentifier, 8⟩
        (raisedFailures (readTraced (Settings.standard false) "x\n\x7b a ? \x7d").2) ∧
      Failure.message "x\n\x7b a ? \x7d" ⟨.noIdentifier, 8⟩ =
        "expected identifier at line 2, column 7" := by
  have h : (readTraced (Settings.standard false) "x\n\x7b a ? \x7d").1 =
      .refused ⟨.noIdentifier, 8⟩ := by decide +kernel
  obtain ⟨-, hlast, -, -, hmessage, -⟩ := refused_furthest _ _ _ h
  exact ⟨h, hlast, hmessage.trans (by decide +kernel)⟩

end LazyConfig
