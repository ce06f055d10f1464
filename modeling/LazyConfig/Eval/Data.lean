import LazyConfig.Eval.Step
import LazyConfig.Expr.Basic
set_option autoImplicit false

/-!
# Evaluation: data

Data is what is left of a value when everything inside it is computed: texts, lists
and dicts, and functions as far as they can be told apart.  The type takes the form of
functions as a parameter: `Plain` data has none.

`deepen` computes everything inside a value.  `express` does the same but gives the
program that stands for the data, and fails at a function.  Both go through lists in
order and through dicts in ascending order of keys.  `place` is the way back: plain
data as a value whose cells all hold values.
-/

namespace LazyConfig

/-- Fully computed data with functions of some form. -/
inductive Data (φ : Type) where
  /-- A text. -/
  | text (s : String)
  /-- A list. -/
  | list (items : List (Data φ))
  /-- A dict, in ascending order of keys. -/
  | dict (entries : List (String × Data φ))
  /-- A function. -/
  | function (f : φ)

/-- Data without functions. -/
abbrev Plain := Data Empty

/-! ## Computing everything -/

/-- The data of a value. -/
def deepen : Nat → Value → Run (Data FunctionKind)
  | 0, _ => Run.exhausted
  | _ + 1, .text s => return .text s
  | n + 1, .list items => do
      let ds ← Run.forEach (fun a => do deepen n (← perform n (.force a))) items
      return .list ds
  | n + 1, .dict entries => do
      let ds ← Run.forEach (fun e => do
        let d ← deepen n (← perform n (.force e.2))
        return (e.1, d)) entries.entries
      return .dict ds
  | _ + 1, .closure _ _ _ => return .function .lambda
  | _ + 1, .builtin b _ => return .function (.builtin b)

/-- The program that stands for the data of a value. -/
def express : Nat → Value → Run Expr
  | 0, _ => Run.exhausted
  | _ + 1, .text s => return .text s
  | n + 1, .list items => do
      let es ← Run.forEach (fun a => do express n (← perform n (.force a))) items
      return .list es
  | n + 1, .dict entries => do
      let bs ← Run.forEach (fun e => do
        let v ← express n (← perform n (.force e.2))
        return Binding.equation (Expr.text e.1) v) entries.entries
      return .dict false bs
  | _ + 1, v => Run.fail (.noExpression v.summary)

/-! ## Values of plain data -/

mutual

/-- A value of plain data, with everything inside it computed. -/
def place : Plain → Run Value
  | .text s => return .text s
  | .list items => do return .list (← placeItems items)
  | .dict entries => do return .dict (Table.ofList (← placeEntries entries))
  | .function f => nomatch f

/-- Cells that hold the items of a list. -/
def placeItems : List Plain → Run (List Addr)
  | [] => return []
  | d :: rest => do
      let v ← place d
      let a ← Run.allocate (.done v)
      return a :: (← placeItems rest)

/-- Cells that hold the entries of a dict, with their keys. -/
def placeEntries : List (String × Plain) → Run (List (String × Addr))
  | [] => return []
  | (key, d) :: rest => do
      let v ← place d
      let a ← Run.allocate (.done v)
      return (key, a) :: (← placeEntries rest)

end

/-- A cell that holds plain data. -/
def placeCell (d : Plain) : Run Addr := do Run.allocate (.done (← place d))

/-- An environment of plain data. -/
def placeEnv (bindings : List (String × Plain)) : Run Env := do
  return Table.ofList (← placeEntries bindings)

end LazyConfig
