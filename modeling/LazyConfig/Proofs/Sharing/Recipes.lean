import LazyConfig.Eval.ByName
import LazyConfig.Proofs.Tables
import LazyConfig.Proofs.Ends
set_option autoImplicit false

/-!
# Sharing: evaluation without a store

What a cell is for can be written down in full: a term with frames, which say the same
of every name.  Such a *recipe* has no address and no state.  Recursive bindings need no
cycle either, as a frame may keep them as terms and hand out recipes that mention the
frame itself.

`answer` evaluates recipes.  It repeats the evaluator line by line, with recipes in the
place of cells, and a larger allowance never changes an answer that a smaller one has
given.
-/

namespace LazyConfig

/-! ## Outcomes in sequence -/

namespace Outcome

variable {α β γ : Type}

/-- One outcome after the other for the members of a list. -/
def forEach (f : α → Outcome β) : List α → Outcome (List β)
  | [] => pure []
  | x :: rest => do
      let y ← f x
      let ys ← forEach f rest
      return y :: ys

/-- The second outcome is the first one, unless the first ran out of its allowance. -/
def Le (p q : Outcome α) : Prop := p = .exhausted ∨ p = q

theorem Le.refl (p : Outcome α) : p.Le p := Or.inr rfl

theorem Le.bind {p q : Outcome α} {k l : α → Outcome β} (h : p.Le q)
    (hk : ∀ a, (k a).Le (l a)) : (p >>= k).Le (q >>= l) := by
  rcases h with rfl | rfl
  · exact Or.inl rfl
  · cases p with
    | value a => exact hk a
    | error e => exact Or.inr rfl
    | exhausted => exact Or.inl rfl

theorem Le.forEach {f g : α → Outcome β} (h : ∀ a, (f a).Le (g a)) (xs : List α) :
    (Outcome.forEach f xs).Le (Outcome.forEach g xs) := by
  induction xs with
  | nil => exact Le.refl _
  | cons x rest ih => exact Le.bind (h x) fun y => Le.bind ih fun ys => Le.refl _

theorem Le.eq_of_ne {p q : Outcome α} (h : p.Le q) (hp : p ≠ .exhausted) : q = p := by
  rcases h with h | h
  · exact absurd h hp
  · exact h.symm

end Outcome

/-! ## Recipes and frames -/

mutual

/-- What a cell is for. -/
inductive Recipe where
  /-- The value of a term under frames. -/
  | term (t : Term) (frames : Frames)
  /-- The value of a function applied to an argument. -/
  | composed (function argument : Recipe)
  /-- Plain data. -/
  | ready (d : Plain)

/-- What the names of a term stand for. -/
inductive Frames where
  /-- No name stands for anything. -/
  | empty
  /-- One more name. -/
  | bind (x : String) (r : Recipe) (frames : Frames)
  /-- Names that stand for terms which see these names. -/
  | recursive (bindings : List (String × Term)) (frames : Frames)

end

/-- The last term that bindings give to a name. -/
def lastTerm (x : String) : List (String × Term) → Option Term
  | [] => none
  | (y, t) :: rest =>
      match lastTerm x rest with
      | some u => some u
      | none => if y = x then some t else none

/-- What a name stands for. -/
def Frames.find? (x : String) : Frames → Option Recipe
  | .empty => none
  | .bind y r frames => if y = x then some r else frames.find? x
  | .recursive bindings frames =>
      match lastTerm x bindings with
      | some t => some (.term t (.recursive bindings frames))
      | none => frames.find? x

/-- A value, with recipes where a `Value` has cells. -/
inductive Form where
  /-- A text. -/
  | text (s : String)
  /-- A list. -/
  | list (items : List Recipe)
  /-- A dict. -/
  | dict (entries : List (String × Recipe))
  /-- A function with the frames it was made under. -/
  | closure (binder : Binder) (body : Term) (frames : Frames)
  /-- A builtin function with the arguments so far. -/
  | builtin (b : Builtin) (arguments : List Recipe)

/-- What messages may say about a form. -/
def Form.summary : Form → Summary
  | .text s => .text s
  | .list items => .list items.length
  | .dict entries => .dict (entries.map Prod.fst)
  | .closure _ _ _ => .function .lambda
  | .builtin b _ => .function (.builtin b)

/-- Plain data as a form. -/
def Form.ofPlain : Plain → Form
  | .text s => .text s
  | .list ds => .list (ds.map .ready)
  | .dict ds => .dict (ds.map fun e => (e.1, .ready e.2))
  | .function f => nomatch f

/-- What can be asked for. -/
inductive Demand where
  /-- The value of a term under frames. -/
  | eval (t : Term) (frames : Frames)
  /-- A form applied to an argument. -/
  | apply (w : Form) (argument : Recipe)
  /-- The value of a recipe. -/
  | force (r : Recipe)

/-! ## Answers -/

section

variable (self : Demand → Outcome Form)

/-- The text that a recipe gives. -/
def askText (caller : Builtin) (r : Recipe) : Outcome String := do
  match ← self (.force r) with
  | .text s => return s
  | w => .error (.notAString caller w.summary)

/-- The dict that a recipe gives. -/
def askDict (caller : Builtin) (r : Recipe) : Outcome (List (String × Recipe)) := do
  match ← self (.force r) with
  | .dict entries => return entries
  | w => .error (.notADict caller w.summary)

/-- The texts of the list that a recipe gives. -/
def askKeys (caller : Builtin) (r : Recipe) : Outcome (List String) := do
  match ← self (.force r) with
  | .list items => Outcome.forEach (askText self caller) items
  | w => .error (.notAKeyList caller w.summary)

/-- A builtin function with arguments, called if there are enough of them. -/
def answerBuiltin : Builtin → List Recipe → Outcome Form
  | .identity, [x] => self (.force x)
  | .compose, [f, g, x] => do
      let w ← self (.force f)
      self (.apply w (.composed g x))
  | .append, [a, b] => do
      let s ← askText self .append a
      let t ← askText self .append b
      return .text (s ++ t)
  | .lookup, [subject, key] => do
      let entries ← askDict self .lookup subject
      let k ← askText self .lookup key
      match Table.findEntry k entries with
      | some r => self (.force r)
      | none => .error (.keyNotFound k)
  | .mergeLeft, [a, b] => do
      let left ← askDict self .mergeLeft a
      let right ← askDict self .mergeLeft b
      return .dict (insertAll left right)
  | .disallowExtra, [keys, subject] => do
      let allowed ← askKeys self .disallowExtra keys
      let entries ← askDict self .disallowExtra subject
      match (entries.map Prod.fst).filter fun k => !allowed.contains k with
      | [] => return .dict entries
      | extra => .error (.unexpectedKeys extra)
  | b, arguments => return .builtin b arguments

/-- Frames by which each name stands for the entry that a dict has under it. -/
def bindRecipes (entries : List (String × Recipe)) (names : List String) (frames : Frames) :
    Frames :=
  names.foldl (fun frames x =>
    match Table.findEntry x entries with
    | some r => .bind x r frames
    | none => frames) frames

/-- The frames of a function's body. -/
def askBinder (binder : Binder) (argument : Recipe) (frames : Frames) : Outcome Frames :=
  match binder with
  | .name x => return .bind x argument frames
  | .keys names ellipsis => do
      match ← self (.force argument) with
      | .dict entries =>
          match names.filter fun x => !(Table.findEntry x entries).isSome with
          | [] =>
              match (entries.map Prod.fst).filter fun k => !names.contains k, ellipsis with
              | extra@(_ :: _), false => .error (.unexpectedKeys extra)
              | _, _ => return bindRecipes entries names frames
          | missing => .error (.missingKeys missing)
      | w => .error (.argumentNotADict w.summary)

/-- A form applied to an argument. -/
def answerApply (w : Form) (argument : Recipe) : Outcome Form :=
  match w with
  | .closure binder body frames => do
      let inner ← askBinder self binder argument frames
      self (.eval body inner)
  | .builtin b arguments => answerBuiltin self b (arguments ++ [argument])
  | w => .error (.notAFunction w.summary)

/-- A term under frames. -/
def answerTerm (t : Term) (frames : Frames) : Outcome Form :=
  match t with
  | .var x =>
      match frames.find? x with
      | some r => self (.force r)
      | none => .error (.unbound x)
  | .text s => return .text s
  | .data type _ => .error (.unknownType type)
  | .list items => return .list (items.map fun t => .term t frames)
  | .dict entries => return .dict (insertAll (entries.map fun e => (e.1, .term e.2 frames)) [])
  | .lam binder body => return .closure binder body frames
  | .builtin name =>
      match Builtin.ofName? name with
      | some b => return .builtin b []
      | none => .error (.unknownBuiltin name)
  | .letrec bindings body => self (.eval body (.recursive bindings frames))
  | .app f a => do
      let w ← self (.eval f frames)
      self (.apply w (.term a frames))

/-- The value of a recipe. -/
def answerRecipe : Recipe → Outcome Form
  | .term t frames => self (.eval t frames)
  | .composed f x => do
      let w ← self (.force f)
      self (.apply w x)
  | .ready d => return Form.ofPlain d

/-- One answer, with the help of answers one level deeper. -/
def answer : Demand → Outcome Form
  | .eval t frames => answerTerm self t frames
  | .apply w argument => answerApply self w argument
  | .force r => answerRecipe self r

end

/-- An answer with an allowance of nested levels. -/
def answerWithin : Nat → Demand → Outcome Form
  | 0, _ => .exhausted
  | n + 1, demand => answer (answerWithin n) demand

/-- The data of a form. -/
def deepForm : Nat → Form → Outcome (Data FunctionKind)
  | 0, _ => .exhausted
  | _ + 1, .text s => return .text s
  | n + 1, .list items => do
      let ds ← Outcome.forEach (fun r => do deepForm n (← answerWithin n (.force r))) items
      return .list ds
  | n + 1, .dict entries => do
      let ds ← Outcome.forEach (fun e => do
        let d ← deepForm n (← answerWithin n (.force e.2))
        return (e.1, d)) entries
      return .dict ds
  | _ + 1, .closure _ _ _ => return .function .lambda
  | _ + 1, .builtin b _ => return .function (.builtin b)

/-! ## A larger allowance gives the same answer -/

section

variable {self other : Demand → Outcome Form} (h : ∀ demand, (self demand).Le (other demand))

include h

theorem askText_le (caller : Builtin) (r : Recipe) :
    (askText self caller r).Le (askText other caller r) :=
  Outcome.Le.bind (h _) fun w => by cases w <;> exact Outcome.Le.refl _

theorem askDict_le (caller : Builtin) (r : Recipe) :
    (askDict self caller r).Le (askDict other caller r) :=
  Outcome.Le.bind (h _) fun w => by cases w <;> exact Outcome.Le.refl _

theorem askKeys_le (caller : Builtin) (r : Recipe) :
    (askKeys self caller r).Le (askKeys other caller r) :=
  Outcome.Le.bind (h _) fun w => by
    cases w with
    | list items => exact Outcome.Le.forEach (askText_le h caller) items
    | _ => exact Outcome.Le.refl _

theorem answerBuiltin_le (b : Builtin) (arguments : List Recipe) :
    (answerBuiltin self b arguments).Le (answerBuiltin other b arguments) := by
  unfold answerBuiltin
  split
  · exact h _
  · exact Outcome.Le.bind (h _) fun w => h _
  · exact Outcome.Le.bind (askText_le h _ _) fun s => Outcome.Le.bind (askText_le h _ _) fun t =>
      Outcome.Le.refl _
  · refine Outcome.Le.bind (askDict_le h _ _) fun entries =>
      Outcome.Le.bind (askText_le h _ _) fun k => ?_
    split
    · exact h _
    · exact Outcome.Le.refl _
  · exact Outcome.Le.bind (askDict_le h _ _) fun left => Outcome.Le.bind (askDict_le h _ _)
      fun right => Outcome.Le.refl _
  · exact Outcome.Le.bind (askKeys_le h _ _) fun allowed => Outcome.Le.bind (askDict_le h _ _)
      fun entries => Outcome.Le.refl _
  · exact Outcome.Le.refl _

theorem askBinder_le (binder : Binder) (argument : Recipe) (frames : Frames) :
    (askBinder self binder argument frames).Le (askBinder other binder argument frames) := by
  cases binder with
  | name x => exact Outcome.Le.refl _
  | keys names ellipsis =>
    exact Outcome.Le.bind (h _) fun w => by cases w <;> exact Outcome.Le.refl _

theorem answer_le (demand : Demand) : (answer self demand).Le (answer other demand) := by
  cases demand with
  | eval t frames =>
    show (answerTerm self t frames).Le (answerTerm other t frames)
    unfold answerTerm
    split
    · split
      · exact h _
      · exact Outcome.Le.refl _
    all_goals try exact Outcome.Le.refl _
    · exact h _
    · exact Outcome.Le.bind (h _) fun w => h _
  | apply w argument =>
    show (answerApply self w argument).Le (answerApply other w argument)
    unfold answerApply
    split
    · exact Outcome.Le.bind (askBinder_le h _ _ _) fun inner => h _
    · exact answerBuiltin_le h _ _
    · exact Outcome.Le.refl _
  | force r =>
    show (answerRecipe self r).Le (answerRecipe other r)
    cases r with
    | term t frames => exact h _
    | composed f x => exact Outcome.Le.bind (h _) fun w => h _
    | ready d => exact Outcome.Le.refl _

end

theorem answerWithin_le_succ (n : Nat) (demand : Demand) :
    (answerWithin n demand).Le (answerWithin (n + 1) demand) := by
  induction n generalizing demand with
  | zero => exact Or.inl rfl
  | succ n ih => exact answer_le ih demand

theorem answerWithin_eq_of_le {n m : Nat} (hnm : n ≤ m) {demand : Demand}
    (h : answerWithin n demand ≠ .exhausted) : answerWithin m demand = answerWithin n demand := by
  induction hnm with
  | refl => rfl
  | step _ ih =>
    rw [← ih]
    exact (answerWithin_le_succ _ demand).eq_of_ne (by rwa [ih])

end LazyConfig
