import LazyConfig.Expr.ToTerm
set_option autoImplicit false

/-!
# Tracing: lowering

With a trace the way to a core term leaves notes of recursive dicts and patterns.  The term,
or the reason why there is none, is the same without them.
-/

namespace LazyConfig

namespace Lowering

variable {α β : Type}

/-- With a trace and without one, the step gives the same term or the same refusal. -/
def TraceBlind (p : Lowering α) : Prop := (p true).1 = (p false).1

namespace TraceBlind

theorem pure (a : α) : (pure a : Lowering α).TraceBlind := rfl

theorem refuse (e : LoweringError) : (refuse e : Lowering α).TraceBlind := rfl

theorem note (n : LoweringNote) : (note n).TraceBlind := rfl

theorem bind {p : Lowering α} {k : α → Lowering β} (hp : p.TraceBlind)
    (hk : ∀ a, (k a).TraceBlind) : (p >>= k).TraceBlind := by
  unfold TraceBlind at hp ⊢
  rw [bind_apply, bind_apply]
  rcases hon : p true with ⟨on, notesOn⟩
  rcases hoff : p false with ⟨off, notesOff⟩
  rw [hon, hoff] at hp
  obtain rfl : on = off := hp
  cases on with
  | ok a => exact hk a
  | error e => rfl

/-! ## Names of a scope -/

theorem staticKey (e : Expr) : (staticKey e).TraceBlind := by
  cases e with
  | str t =>
    unfold LazyConfig.staticKey
    dsimp only
    cases Template.static? (Template.normalize t) with
    | some text => exact pure text
    | none => exact refuse _
  | _ => exact refuse _

theorem claim (scope : Scope) (claimed : List String) (name : String) :
    (claim scope claimed name).TraceBlind := by
  unfold LazyConfig.claim
  split
  · exact refuse _
  · exact pure _

theorem claimAll (scope : Scope) (claimed names : List String) :
    (claimAll scope claimed names).TraceBlind := by
  induction names generalizing claimed with
  | nil => exact pure claimed
  | cons name rest ih => exact (claim scope claimed name).bind ih

end TraceBlind

end Lowering

/-! ## Programs -/

open Lowering

mutual

/-- A program has the same core term with a trace and without one. -/
theorem Expr.traceBlind_toTerm : ∀ e : Expr, e.toTerm.TraceBlind
  | .var _ => .pure _
  | .str t => (traceBlind_pieceTerms t).bind fun _ => .pure _
  | .list items => (traceBlind_itemTerms items).bind fun _ => .pure _
  | .dict recursive bindings => by
    have hentries := traceBlind_entryTerms bindings []
    cases recursive with
    | false => exact hentries.bind fun _ => .pure _
    | true => exact hentries.bind fun _ => (TraceBlind.note _).bind fun _ => .pure _
  | .dot subject key =>
    (Expr.traceBlind_toTerm subject).bind fun _ =>
      (Expr.traceBlind_toTerm key).bind fun _ => .pure _
  | .lambda (.name _) body => (Expr.traceBlind_toTerm body).bind fun _ => .pure _
  | .lambda (.pattern ⟨fields, _⟩) body =>
    (Expr.traceBlind_toTerm body).bind fun _ => (traceBlind_defaultTerms fields).bind fun _ =>
      (TraceBlind.note _).bind fun _ => .pure _
  | .lambda (.both _ ⟨fields, _⟩) body =>
    (Expr.traceBlind_toTerm body).bind fun _ => (traceBlind_defaultTerms fields).bind fun _ =>
      TraceBlind.bind ((TraceBlind.note _).bind fun _ => .pure _) fun _ => .pure _
  | .apply f a =>
    (Expr.traceBlind_toTerm f).bind fun _ => (Expr.traceBlind_toTerm a).bind fun _ => .pure _
  | .letIn bindings body =>
    (traceBlind_definitionTerms bindings []).bind fun _ =>
      (Expr.traceBlind_toTerm body).bind fun _ => .pure _

theorem traceBlind_pieceTerms : ∀ pieces : List (Piece Expr), (pieceTerms pieces).TraceBlind
  | [] => .pure _
  | .literal _ :: rest => (traceBlind_pieceTerms rest).bind fun _ => .pure _
  | .antiquote e :: rest =>
    (Expr.traceBlind_toTerm e).bind fun _ => (traceBlind_pieceTerms rest).bind fun _ => .pure _

theorem traceBlind_itemTerms : ∀ items : List Expr, (itemTerms items).TraceBlind
  | [] => .pure _
  | e :: rest =>
    (Expr.traceBlind_toTerm e).bind fun _ => (traceBlind_itemTerms rest).bind fun _ => .pure _

theorem traceBlind_entryTerms : ∀ (bindings : List (Binding Expr Expr)) (claimed : List String),
    (entryTerms claimed bindings).TraceBlind
  | [], _ => .pure _
  | .equation key value :: rest, claimed =>
    (TraceBlind.staticKey key).bind fun name => (TraceBlind.claim .dict claimed name).bind fun _ =>
      (Expr.traceBlind_toTerm value).bind fun _ =>
        (traceBlind_entryTerms rest _).bind fun _ => .pure _
  | .inherit none names :: rest, claimed =>
    (TraceBlind.claimAll .dict claimed names).bind fun _ =>
      (traceBlind_entryTerms rest _).bind fun _ => .pure _
  | .inherit (some e) names :: rest, claimed =>
    (Expr.traceBlind_toTerm e).bind fun _ =>
      (TraceBlind.claimAll .dict claimed names).bind fun _ =>
        (traceBlind_entryTerms rest _).bind fun _ => .pure _

theorem traceBlind_definitionTerms :
    ∀ (bindings : List (Binding String Expr)) (claimed : List String),
      (definitionTerms claimed bindings).TraceBlind
  | [], _ => .pure _
  | .equation name value :: rest, claimed =>
    (TraceBlind.claim .letIn claimed name).bind fun _ =>
      (Expr.traceBlind_toTerm value).bind fun _ =>
        (traceBlind_definitionTerms rest _).bind fun _ => .pure _
  | .inherit none names :: rest, claimed =>
    (TraceBlind.claimAll .letIn claimed names).bind fun _ =>
      (traceBlind_definitionTerms rest _).bind fun _ => .pure _
  | .inherit (some e) names :: rest, claimed =>
    (Expr.traceBlind_toTerm e).bind fun _ =>
      (TraceBlind.claimAll .letIn claimed names).bind fun _ =>
        (traceBlind_definitionTerms rest _).bind fun _ => .pure _

theorem traceBlind_defaultTerms : ∀ fields : List (Field Expr), (defaultTerms fields).TraceBlind
  | [] => .pure _
  | ⟨_, none⟩ :: rest => traceBlind_defaultTerms rest
  | ⟨_, some e⟩ :: rest =>
    (Expr.traceBlind_toTerm e).bind fun _ => (traceBlind_defaultTerms rest).bind fun _ => .pure _

end

end LazyConfig
