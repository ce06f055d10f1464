import LazyConfig.Proofs.Parsing.RoundTrip
import LazyConfig.Proofs.Tokens.Partition
import Mathlib.Tactic.TFAE
set_option autoImplicit false

/-!
# Names: one notion of a bare name

What a name is gets decided in five places: by the condition on its characters, by making a
`Name`, by cutting a text into tokens, by reading a program and by rendering a text where a name
stands.  They agree on every text.  A text that is no name is rendered in quotes, and the rule for
names reads it back from there.
-/

namespace LazyConfig

open LazyConfig.Parser Grammar

theorem isBareName_iff {text : String} :
    isBareName text = true ↔
      text ≠ "" ∧ (∀ x ∈ text.toList, isNameChar x = true) ∧ text ∉ keywords := by
  rw [isBareName, Option.isNone_iff_eq_none, NameFault.of?_eq_none_iff]

theorem exists_name_iff {text : String} :
    (∃ x : Name, x.text = text) ↔ isBareName text = true := by
  rw [isBareName, Option.isNone_iff_eq_none]
  constructor
  · rintro ⟨x, rfl⟩
    exact x.bare
  · intro h
    exact ⟨⟨text, h⟩, rfl⟩

/-! ## Making a name -/

theorem Name.ofText_eq_ok_iff {text : String} {x : Name} :
    Name.ofText text = .ok x ↔ x.text = text := by
  unfold Name.ofText
  split
  · next hfault =>
    rw [Except.ok.injEq, ← Name.text_injective]
    exact eq_comm
  · next fault hfault =>
    refine iff_of_false nofun ?_
    rintro rfl
    rw [x.bare] at hfault
    cases hfault

/-! ## Cutting a text -/

/-- A text is one identifier to its end if it is a name. -/
theorem tokenize_eq_identifier_iff {text : String} :
    tokenize Lexicon.standard text = [⟨.identifier, text⟩] ↔ isBareName text = true := by
  rw [eq_comm, ← tokenized_iff, isBareName_iff]
  constructor
  · intro h
    obtain _ | ⟨hfirst, hnil⟩ := h
    -- No token follows, so the word goes on to the end of the text.
    cases hnil
    cases hfirst with
    | identifier h unlisted => exact ⟨fun he => h.nonempty (he ▸ rfl), h.chars, unlisted⟩
  · rintro ⟨hne, hchars, hkeyword⟩
    refine .cons (.identifier ⟨?_, ?_, hchars, ?_⟩ hkeyword) .nil
    · simp
    · simpa using hne
    · simp

/-! ## Rendering a text -/

/-- Quotes make a text longer, so only a name is rendered as it is. -/
theorem renderName_eq_self_iff {text : String} :
    renderName text = text ↔ isBareName text = true := by
  refine ⟨fun h => ?_, fun h => if_pos h⟩
  by_contra hbare
  have hquoted : renderQuoted text = text := by rwa [renderName, if_neg hbare] at h
  have hlength := congrArg (fun s => s.toList.length) hquoted
  have hle := length_le_escapeChars text.toList
  simp only [renderQuoted, String.toList_append, toList_escape, List.length_append] at hlength
  have hmark : "\"".toList.length = 1 := rfl
  omega

/-- The rule for names reads a text back from where it is rendered as a name. -/
theorem run_staticName_renderName (text : String) (tracing : Bool) :
    (Parser.run staticName (Settings.standard tracing) (renderName text)).1 =
      .ok text ⟨(renderName text).toList.length, []⟩ := by
  have hstart : Cursor.skip ⟨0, (renderName text).toList⟩ =
      ⟨0, (renderName text).toList ++ []⟩ := by
    rw [List.append_nil]
    exact (keyText_renderName text).startsKey.skip 0
  have hbelow : (Rules.ofDepth ((renderName text).toList.length + 1)).ReadBelow tracing
      ((renderName text).toList.length + 1) := readBelow_ofDepth _
  have hread := reads_staticName hbelow text (Nat.le_succ _) nameEnds_nil _ _ hstart
  rw [Nat.zero_add] at hread
  exact hread

/-! ## All of them agree -/

/-- On every text it is the same to ask whether it satisfies the condition on names, whether a
name can be made of it, whether it is cut into one identifier, whether it is read as the variable
of that name, and whether it is rendered as it is where a name stands.  Rendered there it is read
back by the rule for names, whether it is a name or not. -/
theorem bareName_tfae (text : String) :
    [isBareName text = true,
      ∃ x, Name.ofText text = .ok x,
      tokenize Lexicon.standard text = [⟨.identifier, text⟩],
      ∃ x : Name, readProgram Lexicon.standard text = .accepted (.var x) ∧ x.text = text,
      renderName text = text].TFAE ∧
    (Parser.run staticName ⟨Lexicon.standard, false⟩ (renderName text)).1 =
      .ok text ⟨(renderName text).toList.length, []⟩ := by
  refine ⟨?_, run_staticName_renderName text false⟩
  tfae_have 2 ↔ 1 := by
    simp only [Name.ofText_eq_ok_iff, exists_name_iff]
  tfae_have 3 ↔ 1 := tokenize_eq_identifier_iff
  tfae_have 4 ↔ 1 := by
    rw [← exists_name_iff]
    refine exists_congr fun x => ⟨And.right, fun h => ⟨?_, h⟩⟩
    -- A variable is rendered as its name, and what is rendered is read back.
    have hread := readTraced_render (.var x) rfl .normal false
    rwa [show (Expr.var x).render .normal = text from h] at hread
  tfae_have 5 ↔ 1 := renderName_eq_self_iff
  tfae_finish

end LazyConfig
