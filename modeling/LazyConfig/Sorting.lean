set_option autoImplicit false

/-!
# Sorting

Keys and names are listed in the order of their characters' code points, and
delimiters are tried in the order of their lengths.  The sort here is the stable
insertion sort: it is structural, so closed instances evaluate inside a proof, and
entries that the order does not tell apart keep the order they came in.
-/

namespace LazyConfig

section

variable {α : Type}

/-- An entry put in front of the first entry that it may precede. -/
def insertOrdered (le : α → α → Bool) (x : α) : List α → List α
  | [] => [x]
  | y :: rest => if le x y then x :: y :: rest else y :: insertOrdered le x rest

/-- The entries in order; entries that may precede each other keep their order. -/
def sortOrdered (le : α → α → Bool) : List α → List α
  | [] => []
  | x :: rest => insertOrdered le x (sortOrdered le rest)

theorem insertOrdered_perm (le : α → α → Bool) (x : α) (xs : List α) :
    (insertOrdered le x xs).Perm (x :: xs) := by
  induction xs with
  | nil => exact List.Perm.refl _
  | cons y rest ih =>
    unfold insertOrdered
    split
    · exact List.Perm.refl _
    · exact (List.Perm.cons y ih).trans (List.Perm.swap x y rest)

/-- Sorting only reorders. -/
theorem sortOrdered_perm (le : α → α → Bool) (xs : List α) : (sortOrdered le xs).Perm xs := by
  induction xs with
  | nil => exact List.Perm.refl _
  | cons x rest ih => exact (insertOrdered_perm le x _).trans (List.Perm.cons x ih)

theorem mem_sortOrdered {le : α → α → Bool} {xs : List α} {x : α} :
    x ∈ sortOrdered le xs ↔ x ∈ xs :=
  (sortOrdered_perm le xs).mem_iff

theorem insertOrdered_pairwise {le : α → α → Bool}
    (trans : ∀ a b c, le a b = true → le b c = true → le a c = true)
    (total : ∀ a b, le a b = false → le b a = true) (x : α) {xs : List α}
    (h : xs.Pairwise (fun a b => le a b = true)) :
    (insertOrdered le x xs).Pairwise (fun a b => le a b = true) := by
  induction xs with
  | nil => simp [insertOrdered]
  | cons y rest ih =>
    have hy := List.pairwise_cons.mp h
    unfold insertOrdered
    split
    · next hle =>
      refine List.pairwise_cons.mpr ⟨?_, h⟩
      intro z hz
      rcases List.mem_cons.mp hz with rfl | hz
      · exact hle
      · exact trans _ _ _ hle (hy.1 z hz)
    · next hgt =>
      refine List.pairwise_cons.mpr ⟨?_, ih hy.2⟩
      intro z hz
      rcases List.mem_cons.mp ((insertOrdered_perm le x rest).mem_iff.mp hz) with rfl | hz
      · exact total _ _ (by simpa using hgt)
      · exact hy.1 z hz

/-- A sorted list is in order. -/
theorem sortOrdered_pairwise {le : α → α → Bool}
    (trans : ∀ a b c, le a b = true → le b c = true → le a c = true)
    (total : ∀ a b, le a b = false → le b a = true) (xs : List α) :
    (sortOrdered le xs).Pairwise (fun a b => le a b = true) := by
  induction xs with
  | nil => exact List.Pairwise.nil
  | cons x rest ih => exact insertOrdered_pairwise trans total x ih

/-- The entries in ascending order of their keys; equal keys keep their order. -/
def sortBy (key : α → String) (xs : List α) : List α :=
  sortOrdered (fun a b => decide (key a ≤ key b)) xs

/-- Sorting by a key only reorders. -/
theorem sortBy_perm (key : α → String) (xs : List α) : (sortBy key xs).Perm xs :=
  sortOrdered_perm _ xs

theorem sortBy_pairwise (key : α → String) (xs : List α) :
    (sortBy key xs).Pairwise (fun a b => key a ≤ key b) := by
  have h := @sortOrdered_pairwise _ (fun a b => decide (key a ≤ key b))
    (fun a b c hab hbc => by
      simp only [decide_eq_true_eq] at hab hbc ⊢; exact String.le_trans hab hbc)
    (fun a b hab => by
      simp only [decide_eq_false_iff_not, decide_eq_true_eq] at hab ⊢
      exact String.lt_asymm (String.not_le.mp hab)) xs
  simpa [sortBy] using h

end

/-- Texts in ascending order. -/
def sortTexts (texts : List String) : List String := sortBy id texts

/-- Texts with the longer ones first. -/
def sortLongestFirst (texts : List String) : List String :=
  sortOrdered (fun a b => decide (b.length ≤ a.length)) texts

theorem sortLongestFirst_pairwise (texts : List String) :
    (sortLongestFirst texts).Pairwise (fun a b => b.length ≤ a.length) := by
  have h := @sortOrdered_pairwise _ (fun a b : String => decide (b.length ≤ a.length))
    (fun a b c hab hbc => by simp only [decide_eq_true_eq] at hab hbc ⊢; omega)
    (fun a b hab => by simp only [decide_eq_false_iff_not, decide_eq_true_eq] at hab ⊢; omega)
    texts
  simpa [sortLongestFirst] using h

theorem mem_sortLongestFirst {texts : List String} {text : String} :
    text ∈ sortLongestFirst texts ↔ text ∈ texts :=
  mem_sortOrdered

end LazyConfig
