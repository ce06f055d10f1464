import LazyConfig.Proofs.Parsing.Lexemes
import LazyConfig.Proofs.Tracing.Reading
set_option autoImplicit false

/-!
# Parsing: progress

A run that starts within a text stays within it: every failure that it raises lies in the text,
and it ends with a failure or behind what was read.  Rules refer back to rules, so a statement
about a rule presupposes one about the rules it uses, and these are used further on in the text
only.  How often rules may be nested then makes no difference, as long as it is often enough for
the rest of the text.  So the statements are about two runs at once, which use different rules
and do the same.
-/

namespace LazyConfig

/-! ## Cursors in a text -/

/-- The cursor stands within the text or at its end. -/
structure Cursor.In (text : List Char) (c : Cursor) : Prop where
  /-- It is not behind the end. -/
  le_length : c.offset ≤ text.length
  /-- What is ahead is what the text has there. -/
  rest_eq : c.rest = text.drop c.offset

namespace Cursor

variable {text : List Char} {c : Cursor}

theorem in_start (text : List Char) : In text ⟨0, text⟩ := ⟨Nat.zero_le _, rfl⟩

/-- Every cursor stands in some text. -/
theorem in_replicate (c : Cursor) : In (List.replicate c.offset ' ' ++ c.rest) c := by
  constructor
  · simp
  · exact (List.drop_left' (List.length_replicate ..)).symm

theorem In.offset_add_length (h : In text c) : c.offset + c.rest.length = text.length := by
  have hle := h.le_length
  rw [h.rest_eq, List.length_drop]
  omega

theorem In.advance (h : In text c) {n : Nat} (hn : n ≤ c.rest.length) : In text (c.advance n) := by
  have hlength := h.offset_add_length
  constructor
  · show c.offset + n ≤ text.length
    omega
  · show c.rest.drop n = text.drop (c.offset + n)
    rw [h.rest_eq, List.drop_drop]

theorem In.skip (h : In text c) : In text c.skip := h.advance (blankLength_le false c.rest)

theorem offset_le_skip (c : Cursor) : c.offset ≤ c.skip.offset := Nat.le_add_right _ _

end Cursor

namespace Parser

variable {α β σ : Type} {text : List Char} {s : Settings} {c : Cursor}

/-! ## Two runs through a text -/

/-- The answer keeps within the text, and a value with the cursor behind it has a property. -/
def Reply.Within (text : List Char) (Q : α → Cursor → Prop) : Reply α → Prop
  | .ok a d => d.In text ∧ Q a d
  | .failed f => f.offset ≤ text.length
  | .exhausted => False

/-- From a cursor on two parsers do the same and keep within the text. -/
structure Proceeds (text : List Char) (p q : Parser α) (s : Settings) (c : Cursor)
    (Q : α → Cursor → Prop) : Prop where
  /-- The answers are the same, and so are the records. -/
  same : p s c = q s c
  /-- What fails, fails within the text. -/
  raised : ∀ f ∈ raisedFailures (p s c).2, f.offset ≤ text.length
  /-- There is an answer. -/
  answer : Reply.Within text Q (p s c).1

/-- The parsers proceed, and behind what they read stand at least so many characters. -/
def Reaches (text : List Char) (p q : Parser α) (s : Settings) (c : Cursor) (o : Nat) : Prop :=
  Proceeds text p q s c fun _ d => o ≤ d.offset

/-- A round of a loop passes over a character or is the last one. -/
def Round.Moves (c : Cursor) : Round σ α → Cursor → Prop
  | .again _, d => c.offset < d.offset
  | .done _, d => c.offset ≤ d.offset

theorem Proceeds.imp {p q : Parser α} {P Q : α → Cursor → Prop} (h : Proceeds text p q s c P)
    (hPQ : ∀ a d, P a d → Q a d) : Proceeds text p q s c Q := by
  refine ⟨h.same, h.raised, ?_⟩
  have hanswer := h.answer
  cases hr : (p s c).1 with
  | ok a d =>
    rw [hr] at hanswer
    exact ⟨hanswer.1, hPQ a d hanswer.2⟩
  | failed f => rwa [hr] at hanswer
  | exhausted => rwa [hr] at hanswer

/-- Each of the two parsers proceeds like itself. -/
theorem Proceeds.right {p q : Parser α} {Q : α → Cursor → Prop} (h : Proceeds text p q s c Q) :
    Proceeds text q q s c Q :=
  ⟨rfl, h.same ▸ h.raised, h.same ▸ h.answer⟩

theorem Reaches.mono {p q : Parser α} {o m : Nat} (h : Reaches text p q s c o) (hle : m ≤ o) :
    Reaches text p q s c m :=
  h.imp fun _ _ hd => Nat.le_trans hle hd

namespace Proceeds

variable {p q : Parser α} {P Q : α → Cursor → Prop}

theorem pure (hc : c.In text) {a : α} (h : Q a c) :
    Proceeds text (pure a : Parser α) (pure a : Parser α) s c Q :=
  ⟨rfl, fun _ hf => absurd hf List.not_mem_nil, hc, h⟩

theorem failAt (cause : Cause) {offset : Nat} (h : offset ≤ text.length) :
    Proceeds text (failAt cause offset : Parser α) (failAt cause offset : Parser α) s c Q := by
  refine ⟨rfl, fun f hf => ?_, h⟩
  obtain rfl := List.mem_singleton.mp hf
  exact h

theorem fail (cause : Cause) (hc : c.In text) :
    Proceeds text (fail cause : Parser α) (fail cause : Parser α) s c Q := by
  obtain ⟨hsame, hraised, hanswer⟩ := failAt (s := s) (c := c) (Q := Q) cause hc.le_length
  exact ⟨hsame, hraised, hanswer⟩

theorem bind {k l : α → Parser β} {Q : β → Cursor → Prop} (hp : Proceeds text p q s c P)
    (hk : ∀ a d, d.In text → P a d → Proceeds text (k a) (l a) s d Q) :
    Proceeds text (p >>= k) (q >>= l) s c Q := by
  obtain ⟨hsame, hraised, hanswer⟩ := hp
  rcases hr : p s c with ⟨reply, events⟩
  have hq : q s c = (reply, events) := hsame ▸ hr
  rw [hr] at hraised hanswer
  cases reply with
  | ok a d =>
    obtain ⟨hd, hP⟩ := hanswer
    have hlater := hk a d hd hP
    constructor
    · rw [bind_of_ok hr, bind_of_ok hq, hlater.same]
    · rw [bind_of_ok hr, raisedFailures_append]
      intro f hf
      exact (List.mem_append.mp hf).elim (hraised f) (hlater.raised f)
    · rw [bind_of_ok hr]
      exact hlater.answer
  | failed f =>
    constructor
    · rw [bind_of_failed hr, bind_of_failed hq]
    · rwa [bind_of_failed hr]
    · rwa [bind_of_failed hr]
  | exhausted => exact hanswer.elim

/-- The alternative is taken, or the parser stands where it stood. -/
theorem attempt (hc : c.In text) (branch : Branch) (h : Proceeds text p q s c Q) :
    Proceeds text (attempt branch p) (attempt branch q) s c fun
      | some a, d => Q a d
      | none, d => c = d := by
  have hsame : Parser.attempt branch p s c = Parser.attempt branch q s c := by
    unfold Parser.attempt
    rw [h.same]
  obtain ⟨-, hraised, hanswer⟩ := h
  refine and_imp.mpr (Proceeds.mk hsame) ?_
  unfold Parser.attempt
  rcases hr : p s c with ⟨reply, events⟩
  rw [hr] at hraised hanswer
  cases reply with
  | ok a d => exact ⟨hraised, hanswer⟩
  | failed f =>
    refine ⟨fun g hg => ?_, hc, rfl⟩
    rw [raisedFailures_append] at hg
    rcases List.mem_append.mp hg with hg | hg
    · exact hraised g hg
    · cases htracing : s.tracing <;> simp [htracing, raisedFailures, Event.raised?] at hg
  | exhausted => exact hanswer.elim

theorem cursor (hc : c.In text) : Proceeds text cursor cursor s c fun d e => c = d ∧ c = e :=
  ⟨rfl, fun _ hf => absurd hf List.not_mem_nil, hc, rfl, rfl⟩

theorem seek {d : Cursor} (hd : d.In text) : Proceeds text (seek d) (seek d) s c fun _ e => d = e :=
  ⟨rfl, fun _ hf => absurd hf List.not_mem_nil, hd, rfl⟩

theorem ahead (hc : c.In text) (f : Lexicon → List Char → α) :
    Proceeds text (ahead f) (ahead f) s c fun a d => f s.lexicon c.rest = a ∧ c = d :=
  ⟨rfl, fun _ hf => absurd hf List.not_mem_nil, hc, rfl, rfl⟩

theorem advance (hc : c.In text) {n : Nat} (hn : c.offset + n ≤ text.length) :
    Reaches text (advance n) (advance n) s c (c.offset + n) := by
  have hlength := hc.offset_add_length
  exact ⟨rfl, fun _ hf => absurd hf List.not_mem_nil, hc.advance (by omega), (Nat.le_refl _)⟩

theorem skipBlank (hc : c.In text) :
    Proceeds text skipBlank skipBlank s c fun _ d => c.skip = d :=
  ⟨rfl, fun _ hf => absurd hf List.not_mem_nil, hc.skip, rfl⟩

theorem choice {b : Prop} [Decidable b] {p' q' : Parser α} (hyes : b → Proceeds text p q s c Q)
    (hno : ¬ b → Proceeds text p' q' s c Q) :
    Proceeds text (if b then p else p') (if b then q else q') s c Q := by
  by_cases h : b
  · simpa only [if_pos h] using hyes h
  · simpa only [if_neg h] using hno h

/-! ## Loops -/

/-- A loop ends, for its rounds pass over characters and there are no more rounds than
characters. -/
theorem repeated {body body' : σ → Parser (Round σ α)} (hc : c.In text)
    (hbody : ∀ state d, d.In text → c.offset ≤ d.offset →
      Proceeds text (body state) (body' state) s d (Round.Moves d)) (state : σ) :
    Reaches text (repeated body state) (repeated body' state) s c c.offset := by
  have hrounds : ∀ n state d, d.In text → c.offset ≤ d.offset → d.rest.length < n →
      Reaches text (rounds body n state) (rounds body' n state) s d c.offset := by
    intro n
    induction n with
    | zero => exact fun _ _ _ _ hn => absurd hn (Nat.not_lt_zero _)
    | succ n ih =>
      intro state d hd hle hn
      refine bind (hbody state d hd hle) fun round e he hround => ?_
      cases round with
      | again next =>
        have hmoved : d.offset < e.offset := hround
        have hlength := hd.offset_add_length
        have hlength' := he.offset_add_length
        exact ih next e he (by omega) (by omega)
      | done a => exact pure he (Nat.le_trans hle hround)
  obtain ⟨hsame, hraised, hanswer⟩ :=
    hrounds (c.rest.length + 1) state c hc (Nat.le_refl _) (Nat.lt_succ_self _)
  exact ⟨hsame, hraised, hanswer⟩

/-! ## Lexemes -/

/-- A delimiter that is ahead ends within the text. -/
theorem peekDelimiter (d : String) (hc : c.In text) :
    Proceeds text (peekDelimiter d) (peekDelimiter d) s c fun b e =>
      c.offset ≤ e.offset ∧ (b = true → e.offset + d.length ≤ text.length) := by
  refine bind (skipBlank hc) fun _ e he hskip => bind (ahead he _) fun found e' he' hfound => ?_
  subst hskip
  obtain ⟨rfl, rfl⟩ := hfound
  refine pure he ⟨c.offset_le_skip, fun hd => ?_⟩
  have hprefix : d.toList <+: c.skip.rest := by
    have hfound := List.find?_some (beq_iff_eq.mp hd)
    exact List.isPrefixOf_iff_prefix.mp hfound
  have hlength := he.offset_add_length
  have hle := hprefix.length_le
  rw [String.length_toList] at hle
  omega

theorem ifDelimiter {d : String} {yes yes' no no' : Parser α} (hc : c.In text)
    (hyes : ∀ e, e.In text → c.offset ≤ e.offset → e.offset + d.length ≤ text.length →
      Proceeds text yes yes' s e Q)
    (hno : ∀ e, e.In text → c.offset ≤ e.offset → Proceeds text no no' s e Q) :
    Proceeds text (do if ← Parser.peekDelimiter d then yes else no)
      (do if ← Parser.peekDelimiter d then yes' else no') s c Q :=
  bind (peekDelimiter d hc) fun _ e he hfound =>
    choice (fun hb => hyes e he hfound.1 (hfound.2 hb)) fun _ => hno e he hfound.1

/-- What follows a delimiter that may be ahead starts behind it. -/
theorem overDelimiter {d : String} {n : Nat} {yes yes' no no' : Parser α} (hd : d.length = n)
    (hc : c.In text)
    (hyes : ∀ e, e.In text → c.offset + n ≤ e.offset → Proceeds text yes yes' s e Q)
    (hno : ∀ e, e.In text → c.offset ≤ e.offset → Proceeds text no no' s e Q) :
    Proceeds text (do if ← Parser.peekDelimiter d then Parser.advance n; yes else no)
      (do if ← Parser.peekDelimiter d then Parser.advance n; yes' else no') s c Q :=
  ifDelimiter hc (fun _ he hle hend => bind (advance he (hd ▸ hend)) fun _ e' he' hle' =>
    hyes e' he' (Nat.le_trans (Nat.add_le_add_right hle n) hle')) hno

theorem delimiter {d : String} (hd : 0 < d.length) (hc : c.In text) :
    Reaches text (delimiter d) (delimiter d) s c (c.offset + 1) :=
  ifDelimiter hc (fun _ he hle hend => (advance he hend).mono (by omega)) fun _ he _ => fail _ he

/-- A keyword that is ahead ends within the text. -/
theorem peekKeyword (k : String) (hc : c.In text) :
    Proceeds text (peekKeyword k) (peekKeyword k) s c fun b e =>
      c.offset ≤ e.offset ∧ (b = true → e.offset + k.length ≤ text.length) := by
  refine bind (skipBlank hc) fun _ e he hskip => bind (ahead he _) fun word e' he' hword => ?_
  subst hskip
  obtain ⟨rfl, rfl⟩ := hword
  refine (ahead he _).imp fun b e hb => ?_
  obtain ⟨rfl, rfl⟩ := hb
  refine ⟨c.offset_le_skip, fun hk => ?_⟩
  obtain ⟨hword, -⟩ := Bool.and_eq_true_iff.mp hk
  have hlength := he.offset_add_length
  have hle := (List.takeWhile_prefix (l := c.skip.rest) isNameChar).length_le
  have hk : k.length = (wordPart c.skip.rest).length := by
    rw [← beq_iff_eq.mp hword, String.length_ofList]
  unfold wordPart at hk
  omega

theorem ifKeyword {k : String} {yes yes' no no' : Parser α} (hc : c.In text)
    (hyes : ∀ e, e.In text → c.offset ≤ e.offset → e.offset + k.length ≤ text.length →
      Proceeds text yes yes' s e Q)
    (hno : ∀ e, e.In text → c.offset ≤ e.offset → Proceeds text no no' s e Q) :
    Proceeds text (do if ← Parser.peekKeyword k then yes else no)
      (do if ← Parser.peekKeyword k then yes' else no') s c Q :=
  bind (peekKeyword k hc) fun _ e he hfound =>
    choice (fun hb => hyes e he hfound.1 (hfound.2 hb)) fun _ => hno e he hfound.1

theorem keyword {k : String} (hk : 0 < k.length) (hc : c.In text) :
    Reaches text (keyword k) (keyword k) s c (c.offset + 1) :=
  ifKeyword hc (fun _ he hle hend => (advance he hend).mono (by omega)) fun _ he _ => fail _ he

theorem identifier (hc : c.In text) :
    Reaches text identifier identifier s c (c.offset + 1) := by
  refine bind (skipBlank hc) fun _ e he hskip => bind (ahead he _) fun word e' he' hword => ?_
  subst hskip
  obtain ⟨rfl, rfl⟩ := hword
  refine choice (fun _ => fail _ he) fun hne => bind (ahead he _) fun name e hname hfound => ?_
  obtain ⟨-, rfl⟩ := hfound
  cases name with
  | none => exact fail _ he
  | some name =>
    have hskip := c.offset_le_skip
    have hlength := he.offset_add_length
    have hle := (List.takeWhile_prefix (l := c.skip.rest) isNameChar).length_le
    have hpos : 0 < (String.ofList (wordPart c.skip.rest)).length :=
      Nat.pos_of_ne_zero fun h => hne (String.length_eq_zero_iff.mp h)
    have hword := String.length_ofList (l := wordPart c.skip.rest)
    refine bind (advance he ?_) fun _ d hd hreach => pure hd ?_
    · unfold wordPart at hword ⊢
      omega
    · omega

end Proceeds

end Parser

end LazyConfig
