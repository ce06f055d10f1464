import LazyConfig.Expr.Basic
set_option autoImplicit false

/-!
# Expressions: equality

Two programs are equal if they are the same tree.  `Expr.same` decides this by
recursion on both trees, and `Expr.same_iff` says that it does, which makes equality
of expressions decidable.
-/

namespace LazyConfig

mutual

/-- Whether two expressions are the same tree. -/
def Expr.same : Expr → Expr → Bool
  | .var x, .var y => decide (x = y)
  | .str s, .str t => samePieces s t
  | .list xs, .list ys => sameItems xs ys
  | .dict r bs, .dict q cs => r == q && sameEntries bs cs
  | .dot a k, .dot b l => a.same b && k.same l
  | .lambda (.name x) a, .lambda (.name y) b => decide (x = y) && a.same b
  | .lambda (.pattern ⟨fs, e⟩) a, .lambda (.pattern ⟨gs, d⟩) b =>
      sameFields fs gs && e == d && a.same b
  | .lambda (.both x ⟨fs, e⟩) a, .lambda (.both y ⟨gs, d⟩) b =>
      decide (x = y) && (sameFields fs gs && e == d && a.same b)
  | .apply f a, .apply g b => f.same g && a.same b
  | .letIn bs a, .letIn cs b => sameDefinitions bs cs && a.same b
  | _, _ => false

/-- Whether two templates are the same. -/
def samePieces : List (Piece Expr) → List (Piece Expr) → Bool
  | [], [] => true
  | .literal s :: ps, .literal t :: qs => s == t && samePieces ps qs
  | .antiquote a :: ps, .antiquote b :: qs => a.same b && samePieces ps qs
  | _, _ => false

/-- Whether two lists of expressions are the same. -/
def sameItems : List Expr → List Expr → Bool
  | [], [] => true
  | a :: as, b :: bs => a.same b && sameItems as bs
  | _, _ => false

/-- Whether two lists of dict bindings are the same. -/
def sameEntries : List (Binding Expr Expr) → List (Binding Expr Expr) → Bool
  | [], [] => true
  | .equation k a :: bs, .equation l b :: cs => k.same l && (a.same b && sameEntries bs cs)
  | .inherit none xs :: bs, .inherit none ys :: cs => xs == ys && sameEntries bs cs
  | .inherit (some a) xs :: bs, .inherit (some b) ys :: cs =>
      a.same b && (xs == ys && sameEntries bs cs)
  | _, _ => false

/-- Whether two lists of `let` bindings are the same. -/
def sameDefinitions : List (Binding String Expr) → List (Binding String Expr) → Bool
  | [], [] => true
  | .equation k a :: bs, .equation l b :: cs => k == l && (a.same b && sameDefinitions bs cs)
  | .inherit none xs :: bs, .inherit none ys :: cs => xs == ys && sameDefinitions bs cs
  | .inherit (some a) xs :: bs, .inherit (some b) ys :: cs =>
      a.same b && (xs == ys && sameDefinitions bs cs)
  | _, _ => false

/-- Whether two lists of pattern fields are the same. -/
def sameFields : List (Field Expr) → List (Field Expr) → Bool
  | [], [] => true
  | ⟨x, none⟩ :: fs, ⟨y, none⟩ :: gs => decide (x = y) && sameFields fs gs
  | ⟨x, some a⟩ :: fs, ⟨y, some b⟩ :: gs => decide (x = y) && (a.same b && sameFields fs gs)
  | _, _ => false

end

mutual

/-- The decision is right. -/
theorem Expr.same_iff : ∀ a b : Expr, a.same b = true ↔ a = b
  | .var x, b => by cases b <;> simp [Expr.same]
  | .str s, b => by
    cases b with
    | str t => simp [Expr.same, samePieces_iff s t]
    | _ => simp [Expr.same]
  | .list xs, b => by
    cases b with
    | list ys => simp [Expr.same, sameItems_iff xs ys]
    | _ => simp [Expr.same]
  | .dict r bs, b => by
    cases b with
    | dict q cs => simp [Expr.same, sameEntries_iff bs cs]
    | _ => simp [Expr.same]
  | .dot a k, b => by
    cases b with
    | dot c l => simp [Expr.same, a.same_iff c, k.same_iff l]
    | _ => simp [Expr.same]
  | .lambda (.name x) a, b => by
    cases b with
    | lambda q c => cases q <;> simp [Expr.same, a.same_iff c]
    | _ => simp [Expr.same]
  | .lambda (.pattern ⟨fs, e⟩) a, b => by
    cases b with
    | lambda q c =>
      cases q with
      | pattern p => cases p; simp [Expr.same, a.same_iff c, sameFields_iff fs]
      | _ => simp [Expr.same]
    | _ => simp [Expr.same]
  | .lambda (.both x ⟨fs, e⟩) a, b => by
    cases b with
    | lambda q c =>
      cases q with
      | both y p => cases p; simp [Expr.same, a.same_iff c, sameFields_iff fs, and_assoc]
      | _ => simp [Expr.same]
    | _ => simp [Expr.same]
  | .apply f a, b => by
    cases b with
    | apply g c => simp [Expr.same, f.same_iff g, a.same_iff c]
    | _ => simp [Expr.same]
  | .letIn bs a, b => by
    cases b with
    | letIn cs c => simp [Expr.same, sameDefinitions_iff bs cs, a.same_iff c]
    | _ => simp [Expr.same]

theorem samePieces_iff : ∀ ps qs : List (Piece Expr), samePieces ps qs = true ↔ ps = qs
  | [], qs => by cases qs <;> simp [samePieces]
  | .literal s :: ps, qs => by
    cases qs with
    | nil => simp [samePieces]
    | cons q qs => cases q <;> simp [samePieces, samePieces_iff ps qs]
  | .antiquote a :: ps, qs => by
    cases qs with
    | nil => simp [samePieces]
    | cons q qs =>
      cases q with
      | literal t => simp [samePieces]
      | antiquote b => simp [samePieces, a.same_iff b, samePieces_iff ps qs]

theorem sameItems_iff : ∀ as bs : List Expr, sameItems as bs = true ↔ as = bs
  | [], bs => by cases bs <;> simp [sameItems]
  | a :: as, bs => by
    cases bs with
    | nil => simp [sameItems]
    | cons b bs => simp [sameItems, a.same_iff b, sameItems_iff as bs]

theorem sameEntries_iff :
    ∀ bs cs : List (Binding Expr Expr), sameEntries bs cs = true ↔ bs = cs
  | [], cs => by cases cs <;> simp [sameEntries]
  | .equation k a :: bs, cs => by
    cases cs with
    | nil => simp [sameEntries]
    | cons c cs =>
      cases c with
      | equation l b =>
        simp [sameEntries, k.same_iff l, a.same_iff b, sameEntries_iff bs cs, and_assoc]
      | inherit s ys => simp [sameEntries]
  | .inherit none xs :: bs, cs => by
    cases cs with
    | nil => simp [sameEntries]
    | cons c cs =>
      cases c with
      | equation l b => simp [sameEntries]
      | inherit s ys => cases s <;> simp [sameEntries, sameEntries_iff bs cs]
  | .inherit (some a) xs :: bs, cs => by
    cases cs with
    | nil => simp [sameEntries]
    | cons c cs =>
      cases c with
      | equation l b => simp [sameEntries]
      | inherit s ys =>
        cases s with
        | none => simp [sameEntries]
        | some b => simp [sameEntries, a.same_iff b, sameEntries_iff bs cs, and_assoc]

theorem sameDefinitions_iff :
    ∀ bs cs : List (Binding String Expr), sameDefinitions bs cs = true ↔ bs = cs
  | [], cs => by cases cs <;> simp [sameDefinitions]
  | .equation k a :: bs, cs => by
    cases cs with
    | nil => simp [sameDefinitions]
    | cons c cs =>
      cases c with
      | equation l b =>
        simp [sameDefinitions, a.same_iff b, sameDefinitions_iff bs cs, and_assoc]
      | inherit s ys => simp [sameDefinitions]
  | .inherit none xs :: bs, cs => by
    cases cs with
    | nil => simp [sameDefinitions]
    | cons c cs =>
      cases c with
      | equation l b => simp [sameDefinitions]
      | inherit s ys => cases s <;> simp [sameDefinitions, sameDefinitions_iff bs cs]
  | .inherit (some a) xs :: bs, cs => by
    cases cs with
    | nil => simp [sameDefinitions]
    | cons c cs =>
      cases c with
      | equation l b => simp [sameDefinitions]
      | inherit s ys =>
        cases s with
        | none => simp [sameDefinitions]
        | some b =>
          simp [sameDefinitions, a.same_iff b, sameDefinitions_iff bs cs, and_assoc]

theorem sameFields_iff : ∀ fs gs : List (Field Expr), sameFields fs gs = true ↔ fs = gs
  | [], gs => by cases gs <;> simp [sameFields]
  | ⟨x, none⟩ :: fs, gs => by
    cases gs with
    | nil => simp [sameFields]
    | cons g gs =>
      obtain ⟨y, d⟩ := g
      cases d <;> simp [sameFields, sameFields_iff fs gs]
  | ⟨x, some a⟩ :: fs, gs => by
    cases gs with
    | nil => simp [sameFields]
    | cons g gs =>
      obtain ⟨y, d⟩ := g
      cases d with
      | none => simp [sameFields]
      | some b => simp [sameFields, a.same_iff b, sameFields_iff fs gs, and_assoc]

end

instance : DecidableEq Expr := fun a b => decidable_of_iff _ (a.same_iff b)

end LazyConfig
