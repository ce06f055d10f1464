import LazyConfig.Expr.Basic
set_option autoImplicit false

/-!
# Expressions: names taken over from the scope around

A dict may take over names from the scope around it without naming a source.  Unlike
variables these names are plain texts, so a program can refer in this way, and only in
this way, to a name that no variable can have.  A `let` may take over names too, but
leaves them as they are.
-/

namespace LazyConfig

mutual

/-- Whether a dict anywhere in the program takes over a name from the scope around it.  Keys
do not count, as they are known before evaluation. -/
def Expr.inherits (x : String) : Expr → Bool
  | .var _ => false
  | .str t => piecesInherit x t
  | .list items => itemsInherit x items
  | .dict _ bindings => entriesInherit x bindings
  | .dot subject key => subject.inherits x || key.inherits x
  | .lambda (.name _) body => body.inherits x
  | .lambda (.pattern ⟨fields, _⟩) body => body.inherits x || fieldsInherit x fields
  | .lambda (.both _ ⟨fields, _⟩) body => body.inherits x || fieldsInherit x fields
  | .apply f a => f.inherits x || a.inherits x
  | .letIn bindings body => definitionsInherit x bindings || body.inherits x

/-- Whether an expression in a template does. -/
def piecesInherit (x : String) : List (Piece Expr) → Bool
  | [] => false
  | .literal _ :: rest => piecesInherit x rest
  | .antiquote e :: rest => e.inherits x || piecesInherit x rest

/-- Whether an item of a list does. -/
def itemsInherit (x : String) : List Expr → Bool
  | [] => false
  | e :: rest => e.inherits x || itemsInherit x rest

/-- Whether a binding of a dict does. -/
def entriesInherit (x : String) : List (Binding Expr Expr) → Bool
  | [] => false
  | .equation _ value :: rest => value.inherits x || entriesInherit x rest
  | .inherit none names :: rest => names.contains x || entriesInherit x rest
  | .inherit (some e) _ :: rest => e.inherits x || entriesInherit x rest

/-- Whether an expression in the bindings of a `let` does. -/
def definitionsInherit (x : String) : List (Binding String Expr) → Bool
  | [] => false
  | .equation _ value :: rest => value.inherits x || definitionsInherit x rest
  | .inherit none _ :: rest => definitionsInherit x rest
  | .inherit (some e) _ :: rest => e.inherits x || definitionsInherit x rest

/-- Whether the default of a field does. -/
def fieldsInherit (x : String) : List (Field Expr) → Bool
  | [] => false
  | ⟨_, none⟩ :: rest => fieldsInherit x rest
  | ⟨_, some e⟩ :: rest => e.inherits x || fieldsInherit x rest

end

end LazyConfig
