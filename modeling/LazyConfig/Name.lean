import LazyConfig.Text.Letter
import LazyConfig.Text.Quote
set_option autoImplicit false

/-!
# Names

A name is a text that may stand in a program without quotes: letters, hyphens and
underscores, at least one of them, and not one of the four words that the grammar
reserves.  The condition is part of the type, so whatever holds a `Name` can print
it bare.  A text that is no name has a first reason why, `NameFault`, and that
reason is what the constructor `Name.ofText` reports.
-/

namespace LazyConfig

/-- The words that the grammar reserves. -/
def keywords : List String := ["rec", "let", "in", "inherit"]

/-- The characters that names are made of. -/
def isNameChar (c : Char) : Bool := Text.isLetter c || c == '-' || c == '_'

/-- Why a text is no name. -/
inductive NameFault where
  /-- The text has no character. -/
  | empty
  /-- The first character that no name may hold. -/
  | illegalCharacter (c : Char)
  /-- The text is a word of the grammar. -/
  | reserved
  deriving DecidableEq, Repr

namespace NameFault

/-- The first reason why a text is no name, in the order empty, illegal, reserved. -/
def of? (text : String) : Option NameFault :=
  if text = "" then some .empty
  else match text.toList.find? (fun c => !isNameChar c) with
    | some c => some (.illegalCharacter c)
    | none => if keywords.contains text then some .reserved else none

/-- The reason in words. -/
def reason : NameFault → String
  | .empty => "empty"
  | .illegalCharacter c => "illegal character " ++ Text.quote (String.singleton c)
  | .reserved => "reserved keyword"

/-- A text has no fault exactly when it is nonempty, made of name characters and not
reserved. -/
theorem of?_eq_none_iff (text : String) :
    of? text = none ↔
      text ≠ "" ∧ (∀ c ∈ text.toList, isNameChar c = true) ∧ text ∉ keywords := by
  unfold of?
  by_cases he : text = ""
  · simp [he]
  · simp only [he, if_false, ne_eq, not_false_eq_true, true_and]
    cases hf : text.toList.find? (fun c => !isNameChar c) with
    | some c =>
      have hc := List.find?_some hf
      have hm := List.mem_of_find?_eq_some hf
      simp only [reduceCtorEq, false_iff, not_and]
      intro hall
      simp [hall c hm] at hc
    | none =>
      have hall : ∀ c ∈ text.toList, isNameChar c = true := by
        simpa using List.find?_eq_none.mp hf
      by_cases hk : text ∈ keywords
      · simp [hk]
      · simp only [List.contains_iff_mem, hk, if_false, not_false_eq_true, and_true, true_iff]
        exact hall

end NameFault

/-- Whether a text may stand without quotes. -/
def isBareName (text : String) : Bool := (NameFault.of? text).isNone

/-- A text that may stand without quotes. -/
structure Name where
  /-- The characters of the name. -/
  text : String
  /-- They have no fault. -/
  bare : NameFault.of? text = none

/-- A text that was offered as a name and is none. -/
structure NameError where
  /-- The text. -/
  text : String
  /-- Its first fault. -/
  fault : NameFault
  deriving DecidableEq, Repr

/-- The refusal in words. -/
def NameError.message (e : NameError) : String :=
  Text.quote e.text ++ " cannot be unquoted: " ++ e.fault.reason

namespace Name

@[ext] theorem ext_text {m n : Name} (h : m.text = n.text) : m = n := by
  cases m; cases n; cases h; rfl

theorem text_injective {m n : Name} : m.text = n.text ↔ m = n :=
  ⟨ext_text, fun h => h ▸ rfl⟩

instance : DecidableEq Name := fun m n => decidable_of_iff _ (text_injective (m := m) (n := n))

/-- The name with the given characters, or the reason why there is none. -/
def ofText (text : String) : Except NameError Name :=
  match h : NameFault.of? text with
  | none => .ok ⟨text, h⟩
  | some fault => .error ⟨text, fault⟩

/-- The name with the given characters, if there is one. -/
def ofText? (text : String) : Option Name :=
  if h : NameFault.of? text = none then some ⟨text, h⟩ else none

theorem ofText?_text (n : Name) : ofText? n.text = some n := by
  simp [ofText?, n.bare]

theorem text_of_ofText? {text : String} {n : Name} (h : ofText? text = some n) :
    n.text = text := by
  unfold ofText? at h
  split at h
  · injection h with h; rw [← h]
  · simp at h

end Name

end LazyConfig
