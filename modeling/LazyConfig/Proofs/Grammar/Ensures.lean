import LazyConfig.Proofs.Grammar.Lexemes
set_option autoImplicit false

/-!
# The grammar: what a parser ensures

A statement about a parser at the start of a text says three things at once: the parser
does not use up its allowance, a value and the text left behind it have a property, and if
the parser fails then a given statement is true.  A parser that may fail at any time has
`True` there, and one that must not fail has `False`.  So soundness and completeness are
statements of one kind, and they go through sequences, alternatives and loops by the same
rules.
-/

namespace LazyConfig.Parser

open Grammar

variable {α β σ : Type} {s : Settings} {t u : List Char} {refusal : Prop}

/-- What an answer must be. -/
def Reply.Meets (refusal : Prop) (Q : α → List Char → Prop) : Reply α → Prop
  | .ok a c => Q a c.rest
  | .failed _ => refusal
  | .exhausted => False

/-- At the start of the text the parser comes to an end; a value and what is left have
a property, and a failure means that a statement is true. -/
def Ensures (refusal : Prop) (p : Parser α) (s : Settings) (t : List Char)
    (Q : α → List Char → Prop) : Prop :=
  ∀ o, Reply.Meets refusal Q (p s ⟨o, t⟩).1

namespace Ensures

variable {p : Parser α} {P Q : α → List Char → Prop}

theorem imp (h : Ensures refusal p s t P) (hPQ : ∀ a u, P a u → Q a u) :
    Ensures refusal p s t Q := by
  intro o
  have ho := h o
  cases hr : (p s ⟨o, t⟩).1 with
  | ok a c => exact hPQ a c.rest (by rwa [hr] at ho)
  | failed f => rwa [hr] at ho
  | exhausted => rwa [hr] at ho

/-- A failure may mean more. -/
theorem refuse {refusal' : Prop} (h : Ensures refusal p s t Q) (himp : refusal → refusal') :
    Ensures refusal' p s t Q := by
  intro o
  have ho := h o
  cases hr : (p s ⟨o, t⟩).1 with
  | ok a c => rwa [hr] at ho
  | failed f => exact himp (by rwa [hr] at ho)
  | exhausted => rwa [hr] at ho

theorem pure {a : α} (h : Q a t) : Ensures refusal (pure a : Parser α) s t Q := fun _ => h

theorem fail (cause : Cause) (h : refusal) : Ensures refusal (fail cause : Parser α) s t Q :=
  fun _ => h

theorem failAt (cause : Cause) (offset : Nat) (h : refusal) :
    Ensures refusal (failAt cause offset : Parser α) s t Q :=
  fun _ => h

theorem bind {k : α → Parser β} {Q : β → List Char → Prop} (hp : Ensures refusal p s t P)
    (hk : ∀ a u, P a u → Ensures refusal (k a) s u Q) : Ensures refusal (p >>= k) s t Q := by
  intro o
  have ho := hp o
  rcases hr : p s ⟨o, t⟩ with ⟨reply, events⟩
  rw [hr] at ho
  cases reply with
  | ok a c =>
    rw [bind_of_ok hr]
    exact hk a c.rest ho c.offset
  | failed f =>
    rw [bind_of_failed hr]
    exact ho
  | exhausted => exact ho.elim

/-- The alternative is taken, or it has failed and nothing has been read. -/
theorem attempt {refusal' : Prop} (branch : Branch) (h : Ensures refusal p s t Q) :
    Ensures refusal' (attempt branch p) s t fun
      | some a, u => Q a u
      | none, u => refusal ∧ t = u := by
  intro o
  have ho := h o
  unfold Parser.attempt
  rcases hr : p s ⟨o, t⟩ with ⟨reply, events⟩
  rw [hr] at ho
  cases reply with
  | ok a c => exact ho
  | failed f => exact ⟨ho, rfl⟩
  | exhausted => exact ho.elim

theorem cursor : Ensures refusal cursor s t fun c u => c.rest = t ∧ t = u :=
  fun _ => ⟨rfl, rfl⟩

theorem seek {c : Cursor} {Q : Unit → List Char → Prop} (h : Q () c.rest) :
    Ensures refusal (seek c) s t Q :=
  fun _ => h

theorem ahead (f : Lexicon → List Char → α) :
    Ensures refusal (ahead f) s t fun a u => f s.lexicon t = a ∧ t = u :=
  fun _ => ⟨rfl, rfl⟩

theorem advance (n : Nat) : Ensures refusal (Parser.advance n) s t fun _ u => t.drop n = u :=
  fun _ => rfl

theorem skipBlank : Ensures refusal Parser.skipBlank s t fun _ u => afterBlank t = u :=
  fun _ => rfl

/-! ## Loops -/

/-- What a round of a loop ensures: the invariant again and less to read, or the property of
the value. -/
def Around (I : σ → List Char → Prop) (Q : α → List Char → Prop) (size : List Char → Nat)
    (t : List Char) : Round σ α → List Char → Prop
  | .again state, u => I state u ∧ size u < size t
  | .done a, u => Q a u

/-- A loop ensures what its last round does, if its rounds keep an invariant.  The measure
that every other round lowers is at most the length of the text, so the allowance of rounds
is not used up. -/
theorem repeated {body : σ → Parser (Round σ α)} {I : σ → List Char → Prop} {state : σ}
    (size : List Char → Nat) (hsize : ∀ t, size t ≤ t.length)
    (hbody : ∀ state t, I state t → Ensures refusal (body state) s t (Around I Q size t))
    (h : I state t) : Ensures refusal (repeated body state) s t Q := by
  have hrounds : ∀ n state t, I state t → size t < n →
      Ensures refusal (rounds body n state) s t Q := by
    intro n
    induction n with
    | zero => exact fun _ _ _ hn => absurd hn (Nat.not_lt_zero _)
    | succ n ih =>
      intro state t hI hn
      refine bind (hbody state t hI) fun round u hround => ?_
      cases round with
      | again next => exact ih next u hround.1 (by have := hround.2; omega)
      | done a => exact pure hround
  exact fun o => hrounds _ state t h (Nat.lt_succ_of_le (hsize t)) o

end Ensures

/-! ## Texts behind blanks

The lexemes pass over the blank in front of them, and the tests do so whatever they find.  So
a rule of the grammar is about the text behind the blank, and where it leaves off does not
matter as long as it is inside a blank. -/

/-- What the parser ensures wherever the text is ahead behind a blank, about what is left
behind a blank. -/
def Passes (refusal : Prop) (p : Parser α) (s : Settings) (w : List Char)
    (Q : α → List Char → Prop) : Prop :=
  ∀ t, afterBlank t = w → Ensures refusal p s t fun a u => Q a (afterBlank u)

namespace Passes

variable {p : Parser α} {P Q : α → List Char → Prop} {w : List Char}

theorem imp (h : Passes refusal p s w P) (hPQ : ∀ a u, P a u → Q a u) :
    Passes refusal p s w Q :=
  fun t ht => (h t ht).imp fun a _ hP => hPQ a _ hP

theorem refuse {refusal' : Prop} (h : Passes refusal p s w Q) (himp : refusal → refusal') :
    Passes refusal' p s w Q :=
  fun t ht => (h t ht).refuse himp

theorem pure {a : α} (h : Q a w) : Passes refusal (pure a : Parser α) s w Q :=
  fun _ ht => Ensures.pure (by rwa [ht])

theorem fail (cause : Cause) (h : refusal) : Passes refusal (fail cause : Parser α) s w Q :=
  fun _ _ => Ensures.fail cause h

theorem failAt (cause : Cause) (offset : Nat) (h : refusal) :
    Passes refusal (failAt cause offset : Parser α) s w Q :=
  fun _ _ => Ensures.failAt cause offset h

theorem cursor : Passes refusal cursor s w fun _ u => w = u :=
  fun _ ht => Ensures.cursor.imp fun _ _ h => by rw [← h.2, ht]

theorem bind {k : α → Parser β} {Q : β → List Char → Prop} (hp : Passes refusal p s w P)
    (hk : ∀ a u, P a u → Passes refusal (k a) s u Q) : Passes refusal (p >>= k) s w Q :=
  fun t ht => (hp t ht).bind fun a u hP => hk a _ hP u rfl

/-- The alternative is taken, or it has failed and nothing has been read. -/
theorem attempt {refusal' : Prop} (branch : Branch) (h : Passes refusal p s w Q) :
    Passes refusal' (Parser.attempt branch p) s w fun
      | some a, u => Q a u
      | none, u => refusal ∧ w = u := by
  refine fun t ht => ((h t ht).attempt branch).imp fun o u ho => ?_
  cases o with
  | some a => exact ho
  | none => exact ⟨ho.1, by rw [← ho.2, ht]⟩

/-- A loop whose rounds each pass over something solid. -/
theorem repeated {body : σ → Parser (Round σ α)} {I : σ → List Char → Prop} {state : σ}
    (hbody : ∀ state v, I state v →
      Passes refusal (body state) s v (Ensures.Around I Q List.length v)) (h : I state w) :
    Passes refusal (Parser.repeated body state) s w Q := by
  refine fun t ht => Ensures.repeated (I := fun state t => I state (afterBlank t))
    (fun t => (afterBlank t).length) length_afterBlank_le (fun state v hI => ?_) (by rwa [ht])
  refine (hbody state _ hI v rfl).imp fun round u hround => ?_
  cases round with
  | again next => exact hround
  | done a => exact hround

/-- A test that stops behind the blank. -/
theorem test {found : Parser Bool} {b : List Char → Bool} {yes no : Parser α}
    (hfound : ∀ t, Ensures refusal found s t fun a u => b (afterBlank t) = a ∧ afterBlank t = u)
    (hyes : b w = true → afterBlank w = w →
      Ensures refusal yes s w fun a u => Q a (afterBlank u))
    (hno : b w = false → Passes refusal no s w Q) :
    Passes refusal (do if ← found then yes else no) s w Q := by
  rintro t rfl
  refine Ensures.bind (hfound t) ?_
  rintro a _ ⟨rfl, rfl⟩
  cases hb : b (afterBlank t) with
  | true => exact hyes hb (afterBlank_afterBlank t)
  | false => exact hno hb _ (afterBlank_afterBlank t)

end Passes

/-! ## Delimiters -/

variable {w : List Char} {Q : β → List Char → Prop}

/-- A delimiter is the longest one at the start of the text. -/
def HasDelimiter (s : Settings) (d : String) (w : List Char) : Prop :=
  ∃ u, Delimiter s.lexicon d w u

theorem hasDelimiter_iff {d : String} :
    HasDelimiter s d w ↔ s.lexicon.delimiterAt? w = some d :=
  ⟨fun ⟨_, h⟩ => h.delimiterAt?_eq.1, fun h => ⟨_, delimiter_of_delimiterAt? h⟩⟩

/-- A test for a delimiter. -/
theorem Passes.ifDelimiter {d : String} {yes no : Parser β}
    (hyes : HasDelimiter s d w → Passes refusal yes s w Q)
    (hno : ¬ HasDelimiter s d w → Passes refusal no s w Q) :
    Passes refusal (do if ← peekDelimiter d then yes else no) s w Q := by
  refine Passes.test (b := fun v => s.lexicon.delimiterAt? v == some d)
    (fun _ _ => ⟨rfl, rfl⟩) (fun hb hsolid => ?_) fun hb => ?_
  · exact hyes (hasDelimiter_iff.mpr (by simpa using hb)) w hsolid
  · exact hno fun h => by simp [hasDelimiter_iff.mp h] at hb

/-- A test for a delimiter that is passed over by its length if it is there. -/
theorem Passes.overDelimiter {d : String} {n : Nat} {k : Unit → Parser β} {no : Parser β}
    (hn : d.length = n)
    (hyes : ∀ u, Delimiter s.lexicon d w u → Passes refusal (k ()) s u Q)
    (hno : ¬ HasDelimiter s d w → Passes refusal no s w Q) :
    Passes refusal (do if ← peekDelimiter d then Parser.advance n >>= k else no) s w Q := by
  refine Passes.test (b := fun v => s.lexicon.delimiterAt? v == some d)
    (fun _ _ => ⟨rfl, rfl⟩) (fun hb _ => ?_) fun hb => ?_
  · refine Ensures.bind (Ensures.advance n) ?_
    rintro _ _ rfl
    refine hyes _ ?_ _ rfl
    rw [← hn]
    exact delimiter_of_delimiterAt? (by simpa using hb)
  · exact hno fun h => by simp [hasDelimiter_iff.mp h] at hb

/-- A delimiter is read if it is there, and otherwise that is the failure. -/
theorem ensures_delimiter (d : String) (t : List Char) :
    Ensures (¬ HasDelimiter s d (afterBlank t)) (delimiter d) s t fun _ u =>
      DelimiterAt s.lexicon d (afterBlank t) u := by
  have hpeek : Ensures (¬ HasDelimiter s d (afterBlank t)) (peekDelimiter d) s t fun b u =>
      (s.lexicon.delimiterAt? (afterBlank t) == some d) = b ∧ afterBlank t = u :=
    fun _ => ⟨rfl, rfl⟩
  refine Ensures.bind hpeek ?_
  rintro b _ ⟨rfl, rfl⟩
  split
  · next hb =>
    refine (Ensures.advance d.length).imp ?_
    rintro _ _ rfl
    exact delimiterAt_of_delimiterAt? (by simpa using hb)
  · next hb => exact Ensures.fail _ fun h => hb (by simp [hasDelimiter_iff.mp h])

theorem passes_delimiter (d : String) :
    Passes (¬ HasDelimiter s d w) (delimiter d) s w fun _ u => Delimiter s.lexicon d w u := by
  rintro t rfl
  exact (ensures_delimiter d t).imp fun _ u h => ⟨u, h, blank_iff.mpr rfl⟩

/-! ## Words -/

/-- The keyword is the word at the start of the text. -/
def HasKeyword (s : Settings) (k : String) (t : List Char) : Prop :=
  ∃ u, Keyword s.lexicon k t u

theorem keyword_of_wordPart {k : String} (hk : k ≠ "") (hmem : k ∈ s.lexicon.keywords)
    (hword : String.ofList (wordPart t) = k) :
    Keyword s.lexicon k t (afterBlank (t.drop k.length)) := by
  have hlist : wordPart t = k.toList := by rw [← hword, String.toList_ofList]
  have hne : wordPart t ≠ [] := by
    rw [hlist]
    exact fun hnil => hk (String.toList_eq_nil_iff.mp hnil)
  refine ⟨hmem, t.drop k.length, ?_, blank_iff.mpr rfl⟩
  have hat := wordAt_wordPart hne
  rwa [hlist, String.length_toList] at hat

theorem hasKeyword_iff {k : String} (hk : k ≠ "") :
    HasKeyword s k t ↔ String.ofList (wordPart t) = k ∧ k ∈ s.lexicon.keywords := by
  constructor
  · rintro ⟨u, hmem, v, hword, -⟩
    exact ⟨by rw [hword.wordPart_eq, String.ofList_toList], hmem⟩
  · rintro ⟨hword, hmem⟩
    exact ⟨_, keyword_of_wordPart hk hmem hword⟩

/-- A test for a keyword. -/
theorem Passes.ifKeyword {k : String} (hk : k ≠ "") {yes no : Parser β}
    (hyes : HasKeyword s k w → Passes refusal yes s w Q)
    (hno : ¬ HasKeyword s k w → Passes refusal no s w Q) :
    Passes refusal (do if ← peekKeyword k then yes else no) s w Q := by
  refine Passes.test (b := fun v => String.ofList (wordPart v) == k &&
    s.lexicon.keywords.contains (String.ofList (wordPart v)))
    (fun _ _ => ⟨rfl, rfl⟩) (fun hb hsolid => ?_) fun hb => ?_
  · simp only [Bool.and_eq_true, beq_iff_eq, List.contains_iff_mem] at hb
    exact hyes ((hasKeyword_iff hk).mpr ⟨hb.1, hb.1 ▸ hb.2⟩) w hsolid
  · refine hno fun h => ?_
    obtain ⟨hword, hmem⟩ := (hasKeyword_iff hk).mp h
    simp [hword, hmem] at hb

/-- A keyword is read if it is there, and otherwise that is the failure. -/
theorem passes_keyword {k : String} (hk : k ≠ "") :
    Passes (¬ HasKeyword s k w) (keyword k) s w fun _ u => Keyword s.lexicon k w u := by
  refine Passes.test (b := fun v => String.ofList (wordPart v) == k &&
    s.lexicon.keywords.contains (String.ofList (wordPart v)))
    (fun _ _ => ⟨rfl, rfl⟩) (fun hb _ => ?_) fun hb => ?_
  · simp only [Bool.and_eq_true, beq_iff_eq, List.contains_iff_mem] at hb
    refine (Ensures.advance k.length).imp ?_
    rintro _ _ rfl
    exact keyword_of_wordPart hk (hb.1 ▸ hb.2) hb.1
  · refine Passes.fail _ fun h => ?_
    obtain ⟨hword, hmem⟩ := (hasKeyword_iff hk).mp h
    simp [hword, hmem] at hb

/-- A name is read if there is one, and otherwise that is the failure. -/
theorem passes_identifier :
    Passes (¬ ∃ x u, Identifier s.lexicon x w u) identifier s w fun x u =>
      Identifier s.lexicon x w u := by
  rintro t rfl
  refine Ensures.bind Ensures.skipBlank ?_
  rintro _ _ rfl
  refine Ensures.bind (Ensures.ahead _) ?_
  rintro _ _ ⟨rfl, rfl⟩
  have hcases : ∀ x u, Identifier s.lexicon x (afterBlank t) u →
      String.ofList (wordPart (afterBlank t)) = x.text ∧
        usableName? s.lexicon x.text = some x := by
    rintro x u ⟨hmem, v, hword, -⟩
    refine ⟨by rw [hword.wordPart_eq, String.ofList_toList], ?_⟩
    rw [usableName?, if_neg (by simpa using hmem), Name.ofText?_text]
  split
  · next hempty =>
    refine Ensures.fail _ ?_
    rintro ⟨x, u, hx⟩
    have hne : x.text ≠ "" := ((NameFault.of?_eq_none_iff x.text).mp x.bare).1
    exact hne ((hcases x u hx).1.symm.trans hempty)
  · next hne =>
    refine Ensures.bind (Ensures.ahead _) ?_
    rintro _ _ ⟨rfl, rfl⟩
    split
    · next hnone =>
      refine Ensures.fail _ ?_
      rintro ⟨x, u, hx⟩
      obtain ⟨hword, hname⟩ := hcases x u hx
      rw [hword, hname] at hnone
      exact absurd hnone (by simp)
    · next x hname =>
      refine Ensures.bind (Ensures.advance _) ?_
      rintro _ _ rfl
      refine Ensures.pure ?_
      have husable : String.ofList (wordPart (afterBlank t)) ∉ s.lexicon.keywords ∧
          x.text = String.ofList (wordPart (afterBlank t)) := by
        unfold usableName? at hname
        split at hname
        · exact absurd hname (by simp)
        · next hmem => exact ⟨by simpa using hmem, Name.text_of_ofText? hname⟩
      have hword : x.text.toList = wordPart (afterBlank t) := by
        rw [husable.2, String.toList_ofList]
      have hnonempty : wordPart (afterBlank t) ≠ [] := fun hnil => hne (by rw [hnil])
      refine ⟨husable.2 ▸ husable.1, _, ?_, blank_iff.mpr rfl⟩
      have hat := wordAt_wordPart hnonempty
      rw [hword, String.length_ofList]
      exact hat

/-! ## Openings of strings -/

theorem openingMark_of_opening? {o : Opening} (h : opening? t = some o) :
    ∃ u, OpeningMark o t u := by
  unfold opening? at h
  split at h
  · cases h
    exact ⟨_, .quoted _⟩
  · cases h
    exact ⟨_, .indented _⟩
  · exact absurd h (by simp)

theorem opening?_of_openingMark {o : Opening} (h : OpeningMark o t u) : opening? t = some o := by
  cases h <;> rfl

/-- A string starts at the start of the text. -/
def HasString (t : List Char) : Prop := ∃ o u, OpeningMark o t u

theorem hasString_iff : HasString t ↔ (opening? t).isSome = true := by
  rw [Option.isSome_iff_exists]
  exact ⟨fun ⟨o, _, h⟩ => ⟨o, opening?_of_openingMark h⟩,
    fun ⟨o, h⟩ => ⟨o, openingMark_of_opening? h⟩⟩

/-- A test for a string. -/
theorem Passes.ifString {yes no : Parser β}
    (hyes : HasString w → Passes refusal yes s w Q)
    (hno : ¬ HasString w → Passes refusal no s w Q) :
    Passes refusal (do if ← peekString then yes else no) s w Q := by
  refine Passes.test (b := fun v => (opening? v).isSome)
    (fun _ _ => ⟨rfl, rfl⟩) (fun hb hsolid => ?_) fun hb => ?_
  · exact hyes (hasString_iff.mpr hb) w hsolid
  · refine hno fun h => ?_
    rw [hasString_iff.mp h] at hb
    exact absurd hb (by decide)

end LazyConfig.Parser
