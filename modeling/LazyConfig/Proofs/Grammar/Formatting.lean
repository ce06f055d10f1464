import LazyConfig.Proofs.Grammar.Sound
import LazyConfig.Proofs.Parsing.RoundTrip
set_option autoImplicit false

/-!
# The grammar: formatting

Whatever a reader accepts is derived, whatever is derived is canonical, and what is canonical
is read back from its rendering.  So a program may be read with any keywords and delimiters:
its rendering is a program of the language, and rendering that one changes nothing.
-/

namespace LazyConfig

open LazyConfig.Parser Grammar

/-- A program as it is rendered after it was read. -/
def format? (lexicon : Lexicon) (text : String) : Option String :=
  match readProgram lexicon text with
  | .accepted e => some (e.render .normal)
  | _ => none

theorem Name.isBareName_text (x : Name) : isBareName x.text = true := by
  rw [isBareName, x.bare]
  rfl

/-- Everything that is read is in the domain of the round trip, whatever the keywords and the
delimiters are: the names in the tree are bare, as every `Name` is, no pattern names a field
twice, and no string has an empty literal or two literals in a row.  So its rendering is read
as the same tree by the language, and a text that was formatted once stays as it is. -/
theorem formatting_stable (lexicon : Lexicon) (text : String) (e : Expr)
    (h : readProgram lexicon text = .accepted e) :
    ((∀ x : Name, isBareName x.text = true) ∧ e.isCanonical = true) ∧
      readProgram Lexicon.standard (e.render .normal) = .accepted e ∧
      ∀ formatted, format? lexicon text = some formatted →
        format? Lexicon.standard formatted = some formatted := by
  obtain ⟨t, -, he⟩ := program_of_readProgram h
  have hcanonical : e.isCanonical = true := he.isCanonical
  have hread : readProgram Lexicon.standard (e.render .normal) = .accepted e :=
    readTraced_render e hcanonical .normal false
  refine ⟨⟨Name.isBareName_text, hcanonical⟩, hread, fun formatted hformat => ?_⟩
  obtain rfl : e.render .normal = formatted := by simpa [format?, h] using hformat
  rw [format?, hread]

/-- A list of strings in both ways of writing, read without the comma and the colon, where
every word but one of the reserved ones is a name. -/
theorem formatting_stable_indented :
    let lexicon := Lexicon.ofLists ["in"] ["[", "]", "$\x7b", "\x7b", "\x7d"]
    let text := "[ ''\n   a\n  $\x7bx\x7d'' \"\" # end\n]"
    let e : Expr := .list [.str [.literal " a\n", .antiquote (.var ⟨"x", by decide⟩)], .str []]
    readProgram lexicon text = .accepted e ∧ e.isCanonical = true ∧
      readProgram Lexicon.standard (e.render .normal) = .accepted e := by
  intro lexicon text e
  have h : readProgram lexicon text = .accepted e := by decide +kernel
  have hstable := formatting_stable lexicon text e h
  exact ⟨h, hstable.1.2, hstable.2.1⟩

end LazyConfig
