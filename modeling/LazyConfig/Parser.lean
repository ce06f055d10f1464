import LazyConfig.Expr.Equality
import LazyConfig.Parser.Rules
set_option autoImplicit false

/-!
# Reading programs

`Parser.run` runs any rule at the start of a text, and `readProgram` reads a whole
text.  A text that is refused is refused for the furthest failure that its run raised,
which need not be the one that ended the run: an alternative may have come further
before it was given up.
-/

namespace LazyConfig

/-- The answer of a rule at the start of a text, with the record of the run.  The rules may
nest once for each character of the text, and once more. -/
def Parser.run {α : Type} (rule : Parser.Rules → Parser α) (settings : Settings)
    (text : String) : Reply α × List Event :=
  rule (Parser.Rules.ofDepth (text.toList.length + 1)) settings ⟨0, text.toList⟩

/-- What becomes of a whole text. -/
inductive Verdict where
  /-- It is the text of a program. -/
  | accepted (e : Expr)
  /-- It is refused for a failure. -/
  | refused (failure : Failure)
  /-- The allowance of nested rules was used up. -/
  | exhausted
  deriving DecidableEq

/-- The verdict that an answer and the record of its run amount to. -/
def Verdict.ofReply : Reply Expr → List Event → Verdict
  | .ok e _, _ => .accepted e
  | .failed f, events => .refused ((furthest? events).getD f)
  | .exhausted, _ => .exhausted

/-- Reads a whole text, with the record of the run. -/
def readTraced (settings : Settings) (text : String) : Verdict × List Event :=
  let (reply, events) := Parser.run Parser.program settings text
  (Verdict.ofReply reply events, events)

/-- Reads a whole text. -/
def readProgram (lexicon : Lexicon) (text : String) : Verdict :=
  (readTraced ⟨lexicon, false⟩ text).1

/-- The trace lines of a run over a text, in order. -/
def parseTrace (text : String) (events : List Event) : List String :=
  events.filterMap (Event.traceLine? text)

end LazyConfig
