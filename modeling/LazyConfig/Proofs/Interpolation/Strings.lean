import LazyConfig.Proofs.Interpolation.Concatenation
import LazyConfig.Proofs.Lowering
import LazyConfig.Proofs.Scope
set_option autoImplicit false

/-!
# Interpolation: strings

A string with at least two pieces has the joined texts of its pieces, which are evaluated from
the left.  A string with one piece has the value of the piece, whatever it is, and a string
without pieces is empty.  Merging neighbouring literals changes none of this.
-/

namespace LazyConfig

open Run.Ends

/-- The value of the joined texts of terms. -/
def joined (n : Nat) (env : Env) (ts : List Term) : Run Value := do
  return .text (← concatenate n env ts)

section

variable (tr : Bool) (s : Store) (env : Env)

/-- The term comes to the joined texts of terms.  It takes so many levels more, and if it ends
then the terms in sequence do. -/
def Joins (x : Term) (ts : List Term) : Prop :=
  ∃ d, (∀ n m, n + d ≤ m → (concatenate n env ts tr s).outcome ≠ .exhausted →
      Alike s.self .silent ValueAlike (perform m (.eval x env) tr s) (joined n env ts tr s)) ∧
    ∀ n, (perform n (.eval x env) tr s).outcome ≠ .exhausted →
      (concatenate (n + d) env ts tr s).outcome ≠ .exhausted

/-- If the first term ends, then the second one has the same result with so many levels
more. -/
def Follows (x y : Term) : Prop :=
  ∃ d, ∀ n m, n + d ≤ m → (perform n (.eval x env) tr s).outcome ≠ .exhausted →
    SameResult tr s (perform m (.eval y env)) (perform n (.eval x env))

end

variable {tr : Bool} {s : Store} {env : Env}

/-! ## Chains of calls -/

theorem OutcomeAlike.ne_exhausted {α α' : Type} {γ : Link} {R : α → α' → Prop} {o : Outcome α}
    {o' : Outcome α'} (h : OutcomeAlike γ R o o') (ho : o ≠ .exhausted) : o' ≠ .exhausted := by
  cases h with
  | value _ | error _ => exact fun hout => nomatch hout
  | exhausted => exact absurd rfl ho

theorem Run.ne_exhausted_of_bind {α β : Type} {p : Run α} {k : α → Run β}
    (h : ((p >>= k) tr s).outcome ≠ .exhausted) : (p tr s).outcome ≠ .exhausted := by
  intro hout
  rcases hp : p tr s with ⟨outcome, t, notes⟩
  obtain rfl : outcome = .exhausted := by rw [← hout, hp]
  exact h (by rw [Run.bind_of_exhausted hp])

/-- A chain of calls joins the texts of its terms. -/
theorem joins_appendTerms (hs : s.Closed) (henv : s.Binds env) (t next : Term)
    (rest : List Term) :
    Joins tr s env (appendTerms (t :: next :: rest)) (t :: next :: rest) := by
  let d := 3 * (next :: rest).length
  have halike : ∀ n, Alike s.self .silent ValueAlike
      (perform (n + d) (.eval (appendTerms (t :: next :: rest)) env) tr s)
      ((concatenateBy (chained n) env (t :: next :: rest) >>= fun a => pure (.text a)) tr s) := by
    intro n
    rw [← chain_cons_cons]
    exact chain_alike n t (next :: rest) id hs.silent fun x => henv.paired x
  refine ⟨d, fun n m hm hout => ?_, fun n hout => ?_⟩
  · obtain ⟨k, rfl⟩ := Nat.exists_eq_add_of_le hm
    have hle : (concatenate n env (t :: next :: rest)).Le
        (concatenateBy (chained (n + k)) env (t :: next :: rest)) :=
      concatenateBy_le env fun j _ => Nat.le_add_right_of_le (Nat.le_add_right n k)
    have hsame := halike (n + k)
    rw [Run.bind_apply, hle.eq_of_ne hout, ← Run.bind_apply, Nat.add_right_comm] at hsame
    exact hsame
  · have hlater : (perform (n + d) (.eval (appendTerms (t :: next :: rest)) env) tr s).outcome ≠
        .exhausted := by
      rw [(perform_eval_le (Nat.le_add_right n d) _ env).eq_of_ne hout]
      exact hout
    obtain ⟨γ, -, -, ho⟩ := halike n
    have hchained := Run.ne_exhausted_of_bind (ho.ne_exhausted hlater)
    have hle : (concatenateBy (chained n) env (t :: next :: rest)).Le
        (concatenate (n + d) env (t :: next :: rest)) := by
      refine concatenateBy_le env fun j hj => Nat.add_le_add_left (Nat.mul_le_mul_left 3 ?_) n
      exact Nat.le_trans (Nat.sub_le j 1) (Nat.le_of_lt_succ hj)
    rw [concatenate] at hle ⊢
    rw [hle.eq_of_ne hchained]
    exact hchained

/-- A text is its own joined text. -/
theorem joins_text (hs : s.Closed) (a : String) : Joins tr s env (.text a) [.text a] := by
  have hconcatenate : ∀ n, concatenate n env [.text a] = evalText n (.text a) env := fun n =>
    concatenateBy_singleton (fun _ => n) (.text a) env
  refine ⟨0, fun n m hm hout => ?_, fun n hout => ?_⟩
  · cases n with
    | zero =>
      rw [hconcatenate] at hout
      exact absurd rfl hout
    | succ n =>
      obtain ⟨k, rfl⟩ := Nat.exists_eq_add_of_le hm
      have hjoined : (joined (n + 1) env [.text a]).Ends tr s (.value (.text a)) s := by
        rw [joined, hconcatenate]
        exact (Run.Ends.pure a tr s).bind (Run.Ends.pure _ tr s)
      rw [Nat.add_zero, Nat.add_right_comm]
      exact Alike.of_ends (eval_text a env) hjoined (Link.Le.refl _) hs.silent
        (.value (ValueAlike.text a))
  · rw [Nat.add_zero, hconcatenate]
    cases n with
    | zero => exact absurd rfl hout
    | succ n => exact fun h => nomatch h

/-- Terms that join to the same have the same results. -/
theorem follows_of_joins {x y : Term} {ts us : List Term} (hx : Joins tr s env x ts)
    (hy : Joins tr s env y us)
    (h : ∀ n, concatenate (n + 1) env ts = concatenate (n + 1) env us) :
    Follows tr s env x y := by
  obtain ⟨d, hreach, hends⟩ := hx
  obtain ⟨d', hreach', -⟩ := hy
  refine ⟨d + d', fun n m hm hout => ?_⟩
  cases n with
  | zero => exact absurd rfl hout
  | succ n =>
    have hts := hends (n + 1) hout
    have heq : joined (n + 1 + d) env ts = joined (n + 1 + d) env us := by
      rw [joined, joined, Nat.add_right_comm, h]
    have hus : (concatenate (n + 1 + d) env us tr s).outcome ≠ .exhausted := by
      rw [Nat.add_right_comm, ← h, Nat.add_right_comm]
      exact hts
    have hxs := hreach (n + 1 + d) (n + 1 + d + d) (Nat.le_refl _) hts
    have hys := hreach' (n + 1 + d) m (by omega) hus
    have hle : n + 1 ≤ n + 1 + d + d := by omega
    rw [(perform_eval_le hle x env).eq_of_ne hout, heq] at hxs
    exact (SameResult.of_alike hys).trans (SameResult.of_alike hxs).symm

/-! ## Merged literals -/

theorem Piece.Lowers.eq {piece : Piece Expr} {t u : Term} (ht : piece.Lowers t)
    (hu : piece.Lowers u) : t = u := by
  cases piece with
  | literal a => exact ht.trans hu.symm
  | antiquote e => exact Except.ok.inj (ht.symm.trans hu)

/-- Merging literals does not change the joined texts. -/
theorem concatenate_normalize (n : Nat) (env : Env) {t : List (Piece Expr)} {ts us : List Term}
    (ht : List.Forall₂ Piece.Lowers t ts)
    (hu : List.Forall₂ Piece.Lowers (Template.normalize t) us) :
    concatenate (n + 1) env ts = concatenate (n + 1) env us := by
  have hcons : ∀ u us, concatenate (n + 1) env (u :: us) =
      evalText (n + 1) u env >>= fun a => concatenate (n + 1) env us >>= fun b => pure (a ++ b) :=
    fun _ _ => rfl
  have htext : ∀ a us, concatenate (n + 1) env (.text a :: us) =
      concatenate (n + 1) env us >>= fun b => pure (a ++ b) := fun _ _ => rfl
  induction ht generalizing us with
  | nil =>
    cases hu
    rfl
  | @cons piece u rest ts hpiece hrest ih =>
    rw [Template.normalize] at hu
    unfold Template.prepend at hu
    split at hu
    · next a b later hnormal =>
      obtain rfl : u = .text a := hpiece
      obtain ⟨v, vs, rfl, hlater, rfl⟩ := List.forall₂_cons_left_iff.mp hu
      have hmerged : concatenate (n + 1) env ts = concatenate (n + 1) env (.text b :: vs) := by
        refine ih ?_
        rw [hnormal]
        exact .cons rfl hlater
      rw [htext, hmerged, htext, htext, Run.bind_assoc]
      simp only [Run.pure_bind, String.append_assoc]
    · obtain ⟨v, vs, hv, hlater, rfl⟩ := List.forall₂_cons_left_iff.mp hu
      obtain rfl := hpiece.eq hv
      rw [hcons, ih hlater, hcons]

/-- Merging literals leaves no piece out. -/
theorem normalize_ne_nil {ε : Type} {t : Template ε} (h : t ≠ []) : Template.normalize t ≠ [] := by
  cases t with
  | nil => exact absurd rfl h
  | cons piece rest =>
    rw [Template.normalize]
    unfold Template.prepend
    split <;> exact List.cons_ne_nil _ _

/-- Merging literals gives a lone hole only where it stands alone. -/
theorem eq_of_normalize_eq_hole {ε : Type} {t : Template ε} {e : ε}
    (h : Template.normalize t = [.antiquote e]) : t = [.antiquote e] := by
  cases t with
  | nil => exact absurd h.symm (List.cons_ne_nil _ _)
  | cons piece rest =>
    rw [Template.normalize] at h
    unfold Template.prepend at h
    split at h
    · cases h
    · obtain ⟨rfl, hrest⟩ := List.cons.inj h
      by_cases hnil : rest = []
      · rw [hnil]
      · exact absurd hrest (normalize_ne_nil hnil)

/-! ## Lowering -/

variable {t : List (Piece Expr)} {x y : Term} {err : LoweringError}

theorem lower_str_eq_ok_iff :
    (Expr.str t).lower = .ok x ↔ ∃ ts, List.Forall₂ Piece.Lowers t ts ∧ appendTerms ts = x := by
  rw [Expr.lower, Expr.toTerm, Lowering.bind_eq_ok_iff]
  constructor
  · rintro ⟨ts, hts, h⟩
    exact ⟨ts, pieceTerms_eq_ok_iff.mp hts, Except.ok.inj h⟩
  · rintro ⟨ts, hts, rfl⟩
    exact ⟨ts, pieceTerms_eq_ok_iff.mpr hts, rfl⟩

theorem lower_str_eq_error_iff :
    (Expr.str t).lower = .error err ↔ (pieceTerms t false).1 = .error err := by
  rw [Expr.lower, Expr.toTerm, Lowering.bind_pure_eq_error_iff]

theorem literalTerms_eq_error_iff {a : String} {rest : List (Piece Expr)} :
    (pieceTerms (.literal a :: rest) false).1 = .error err ↔
      (pieceTerms rest false).1 = .error err := by
  rw [pieceTerms, Lowering.bind_pure_eq_error_iff]

theorem antiquoteTerms_eq_error_iff {e : Expr} {rest : List (Piece Expr)} :
    (pieceTerms (.antiquote e :: rest) false).1 = .error err ↔
      e.lower = .error err ∨
        (∃ u, e.lower = .ok u) ∧ (pieceTerms rest false).1 = .error err := by
  rw [pieceTerms, Lowering.bind_eq_error_iff]
  simp only [Lowering.bind_pure_eq_error_iff, exists_and_right]
  rfl

/-- Merging literals does not change how a string is refused. -/
theorem refused_normalize_iff :
    (pieceTerms (Template.normalize t) false).1 = .error err ↔
      (pieceTerms t false).1 = .error err := by
  induction t with
  | nil => rfl
  | cons piece rest ih =>
    rw [Template.normalize]
    cases piece with
    | literal a =>
      rw [literalTerms_eq_error_iff, ← ih]
      cases hnormal : Template.normalize rest with
      | nil => exact literalTerms_eq_error_iff
      | cons next later =>
        cases next with
        | literal b =>
          exact literalTerms_eq_error_iff.trans literalTerms_eq_error_iff.symm
        | antiquote e => exact literalTerms_eq_error_iff
    | antiquote e =>
      rw [Template.prepend, antiquoteTerms_eq_error_iff, antiquoteTerms_eq_error_iff, ih]
      intro a b later ha
      cases ha

/-! ## Strings -/

/-- A string joins the texts of its pieces, unless it is empty or a lone hole. -/
theorem joins_of_pieces (hs : s.Closed) (henv : s.Binds env) {ts : List Term}
    (hts : List.Forall₂ Piece.Lowers t ts) (hempty : t ≠ []) (hhole : ∀ e, t ≠ [.antiquote e]) :
    Joins tr s env (appendTerms ts) ts := by
  cases hts with
  | nil => exact absurd rfl hempty
  | @cons piece u rest us hpiece hrest =>
    cases hrest with
    | nil =>
      cases piece with
      | literal a =>
        obtain rfl : u = .text a := hpiece
        exact joins_text hs a
      | antiquote e => exact absurd rfl (hhole e)
    | cons _ _ => exact joins_appendTerms hs henv _ _ _

theorem follows_self (hs : s.Closed) (henv : s.Binds env) (x : Term) : Follows tr s env x x := by
  refine ⟨0, fun n m hm hout => SameResult.of_alike (β := s.self) ?_⟩
  rw [(perform_eval_le hm x env).eq_of_ne hout]
  exact perform_alike .silent tr tr n _ _ _ _ _ hs.silent (.eval (henv.alike x))

/-- Merging literals does not change what a string comes to. -/
theorem follows_normalize (hs : s.Closed) (henv : s.Binds env) (hx : (Expr.str t).lower = .ok x)
    (hy : (Expr.str (Template.normalize t)).lower = .ok y) :
    Follows tr s env x y ∧ Follows tr s env y x := by
  by_cases hsame : Template.normalize t = t
  · rw [hsame] at hy
    obtain rfl := Except.ok.inj (hx.symm.trans hy)
    exact ⟨follows_self hs henv x, follows_self hs henv x⟩
  · have hempty : t ≠ [] := by
      rintro rfl
      exact hsame rfl
    have hhole : ∀ e, Template.normalize t ≠ [.antiquote e] := by
      intro e he
      exact hsame (he.trans (eq_of_normalize_eq_hole he).symm)
    have hhole' : ∀ e, t ≠ [.antiquote e] := by
      rintro e rfl
      exact hsame rfl
    obtain ⟨ts, hts, rfl⟩ := lower_str_eq_ok_iff.mp hx
    obtain ⟨us, hus, rfl⟩ := lower_str_eq_ok_iff.mp hy
    have hjoins : Joins tr s env _ ts := joins_of_pieces hs henv hts hempty hhole'
    have hjoins' : Joins tr s env _ us :=
      joins_of_pieces hs henv hus (normalize_ne_nil hempty) hhole
    have hjoined := fun n => concatenate_normalize n env hts hus
    exact ⟨follows_of_joins hjoins hjoins' hjoined,
      follows_of_joins hjoins' hjoins fun n => (hjoined n).symm⟩

/-- In every environment a string joins the texts of its pieces from the left if it has at
least two, it is its piece if it has one, and it is empty if it has none.  Merging neighbouring
literals changes neither how a string is refused nor what it comes to. -/
theorem strings_in_environment (tr : Bool) (s : Store) (env : Env) (hs : s.Closed)
    (henv : s.Binds env) :
    (∀ t x, 2 ≤ t.length → (Expr.str t).lower = .ok x →
      ∃ ts, List.Forall₂ Piece.Lowers t ts ∧ Joins tr s env x ts) ∧
    (∀ piece x, (Expr.str [piece]).lower = .ok x → piece.Lowers x) ∧
    (∀ x, (Expr.str []).lower = .ok x → ∀ n,
      (perform (n + 1) (.eval x env)).Ends tr s (.value (.text "")) s) ∧
    ∀ t, (∀ err, (Expr.str (Template.normalize t)).lower = .error err ↔
        (Expr.str t).lower = .error err) ∧
      ∀ x y, (Expr.str t).lower = .ok x → (Expr.str (Template.normalize t)).lower = .ok y →
        Follows tr s env x y ∧ Follows tr s env y x := by
  refine ⟨?_, ?_, ?_, ?_⟩
  · intro t x hlength hx
    obtain ⟨ts, hts, rfl⟩ := lower_str_eq_ok_iff.mp hx
    refine ⟨ts, hts, joins_of_pieces hs henv hts ?_ ?_⟩
    · rintro rfl
      exact absurd hlength (by decide)
    · rintro e rfl
      exact absurd hlength (Nat.lt_irrefl 1)
  · intro piece x hx
    obtain ⟨ts, hts, rfl⟩ := lower_str_eq_ok_iff.mp hx
    obtain ⟨u, us, hu, hrest, rfl⟩ := List.forall₂_cons_left_iff.mp hts
    obtain rfl := List.forall₂_nil_left_iff.mp hrest
    exact hu
  · intro x hx n
    obtain rfl : Term.text "" = x := Except.ok.inj hx
    exact eval_text "" env
  · intro t
    refine ⟨fun err => ?_, fun x y hx hy => follows_normalize hs henv hx hy⟩
    rw [lower_str_eq_error_iff, lower_str_eq_error_iff]
    exact refused_normalize_iff

/-- A literal and a hole with a text in it, where nothing is bound. -/
theorem strings_in_environment_pair :
    let t : List (Piece Expr) := [.literal "a", .antiquote (.text "b")]
    let x : Term := .app (.app (.function .append) (.text "a")) (.text "b")
    Store.empty.Closed ∧ Store.empty.Binds Table.empty ∧ 2 ≤ t.length ∧
      (Expr.str t).lower = .ok x ∧
      ∃ ts, List.Forall₂ Piece.Lowers t ts ∧ Joins false Store.empty Table.empty x ts := by
  have hempty : Store.empty.Binds Table.empty := fun x a hx => nomatch hx
  exact ⟨closed_empty, hempty, Nat.le_refl 2, rfl,
    (strings_in_environment false Store.empty Table.empty closed_empty hempty).1 _ _
      (Nat.le_refl 2) rfl⟩

end LazyConfig
