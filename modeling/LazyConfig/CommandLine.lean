import LazyConfig.Expr.Outline
import LazyConfig.Expr.Render
import LazyConfig.Program
import LazyConfig.Text.Lines
set_option autoImplicit false

/-!
# The command line

What the program prints for a file and a list of options.  The output is a
`Transcript`: lines in order, ended by an exit status.  Each line is computed when the
one before it has been printed, so whoever prints the lines can also read the clock,
and a transcript says where a clock is started and where its time is shown without
knowing the time itself.
-/

namespace LazyConfig.CommandLine

/-! ## Transcripts -/

/-- The times that are taken. -/
inductive Clock where
  /-- From the start of reading. -/
  | overall
  /-- From the start of the evaluation. -/
  | evaluation
  deriving DecidableEq, Repr

/-- What the program does outwards. -/
inductive Transcript where
  /-- It ends with a status. -/
  | exit (status : Nat)
  /-- It ends because the file is no text. -/
  | undecodable
  /-- It prints text and a line end. -/
  | line (text : String) (next : Unit → Transcript)
  /-- It starts a clock. -/
  | start (clock : Clock) (next : Unit → Transcript)
  /-- It prints a label and the time on a clock. -/
  | elapsed (label : String) (clock : Clock) (next : Unit → Transcript)

namespace Transcript

/-- Lines in front of a transcript. -/
def linesThen (texts : List String) (next : Unit → Transcript) : Transcript :=
  match texts with
  | [] => next ()
  | text :: rest => .line text fun _ => linesThen rest next

/-- Lines in front of a transcript, if a condition holds. -/
def linesIf (condition : Bool) (texts : List String) (next : Unit → Transcript) : Transcript :=
  linesThen (if condition then texts else []) next

/-- The text that is printed and the status at the end, if there is one, when all times
are shown by one text. -/
def replay (time : String) : Transcript → String × Option Nat
  | .exit status => ("", some status)
  | .undecodable => ("", none)
  | .line text next =>
      let (later, status) := (next ()).replay time
      (text ++ "\n" ++ later, status)
  | .start _ next => (next ()).replay time
  | .elapsed label _ next =>
      let (later, status) := (next ()).replay time
      (label ++ time ++ "\n" ++ later, status)

end Transcript

/-! ## Options -/

/-- What can be asked of the program. -/
inductive Flag where
  /-- Print the program. -/
  | render
  /-- Print its structure. -/
  | outline
  /-- Print its core term. -/
  | term
  /-- Evaluate it. -/
  | eval
  /-- Print its tokens. -/
  | tokens
  /-- Trace all stages. -/
  | debug
  deriving DecidableEq, Repr

namespace Flag

/-- All options in the order they are listed. -/
def all : List Flag := [.render, .outline, .term, .eval, .tokens, .debug]

/-- The word for an option. -/
def word : Flag → String
  | .render => "render"
  | .outline => "show"
  | .term => "term"
  | .eval => "eval"
  | .tokens => "tokens"
  | .debug => "debug"

/-- What an option does, in words. -/
def help : Flag → String
  | .render => "print the expression as Bricks source (default)"
  | .outline => "print the expression's structure"
  | .term => "print the lowered term"
  | .eval => "evaluate and print the result"
  | .tokens => "print the tokens of the input"
  | .debug => "trace parsing, lowering and evaluation"

/-- The option of a word. -/
def ofWord? (word : String) : Option Flag := all.find? fun flag => flag.word == word

end Flag

/-- The lines that explain how to call the program. -/
def usage : List String :=
  ["Usage: python -m bricks <input-file> [options...]", "Options:"]
    ++ Flag.all.map fun flag =>
      "  " ++ flag.word ++ String.join (List.replicate (9 - flag.word.length) " ") ++ flag.help

/-- The words that are no options, in ascending order and each once. -/
def unknownWords (words : List String) : List String :=
  distinctTexts (words.filter fun word => (Flag.ofWord? word).isNone)

/-! ## Files -/

/-- What reading a file gave. -/
inductive FileContent where
  /-- Text, with its line ends as they are in the file. -/
  | text (s : String)
  /-- Bytes that are no text. -/
  | undecodable
  /-- Nothing, for a reason. -/
  | unreadable (reason : String)

/-- The reason why a file cannot be read, given what the system calls it. -/
def systemReason (code : Nat) (words path : String) : String :=
  "[Errno " ++ toString code ++ "] " ++ words ++ ": " ++ Text.quote path

/-- The reason why a file that does not exist cannot be read. -/
def missingReason (path : String) : String := systemReason 2 "No such file or directory" path

/-- What the bytes of a file are. -/
def FileContent.ofBytes (bytes : ByteArray) : FileContent :=
  match String.fromUTF8? bytes with
  | some s => .text s
  | none => .undecodable

/-! ## Stages -/

/-- What is asked for one file. -/
structure Request where
  /-- The full path of the file. -/
  path : String
  /-- The options. -/
  flags : List Flag

namespace Request

/-- Whether an option is given. -/
def has (r : Request) (flag : Flag) : Bool := r.flags.contains flag

/-- Whether the program is printed: if that is asked, or nothing else is. -/
def wantsRender (r : Request) : Bool :=
  r.has .render || !(r.has .outline || r.has .term || r.has .eval || r.has .tokens)

end Request

/-- An allowance of nested steps that no program of ordinary depth uses up. -/
def allowance : Nat := 1000000

/-- The end of a run in which nothing failed. -/
def finish (r : Request) : Transcript :=
  if r.has .debug then .line "" fun _ => .elapsed "Total time: " .overall fun _ => .exit 0
  else .exit 0

/-- The evaluation of a term, written as a program. -/
def evaluation (t : Term) : Run Expr := do
  express allowance (← evaluate allowance t Table.empty)

/-- The lines of notes, which may have several each. -/
def noteLines (texts : List String) : List String := texts.flatMap Text.splitLines

/-- Evaluation. -/
def evaluating (r : Request) (t : Term) : Transcript :=
  .start .evaluation fun _ =>
    let result := evaluation t (r.has .debug) Store.empty
    .linesThen (noteLines (result.notes.map EvalNote.text)) fun _ =>
      match result.outcome with
      | .value e =>
          .line ("Result: " ++ e.render .normal) fun _ =>
            if r.has .debug then .elapsed "  Time: " .evaluation fun _ => finish r
            else finish r
      | .error e =>
          .line ("Evaluation error: " ++ e.message (r.has .debug)) fun _ => .exit 1
      | .exhausted =>
          .line "Evaluation error: maximum recursion depth exceeded" fun _ => .exit 1

/-- Lowering and what follows it. -/
def lowering (r : Request) (e : Expr) : Transcript :=
  let (outcome, notes) := e.toTerm (r.has .debug)
  .linesThen (noteLines (notes.map LoweringNote.text)) fun _ =>
    match outcome with
    | .error error => .line ("Lowering error: " ++ error.message) fun _ => .exit 1
    | .ok t =>
        .linesIf (r.has .term) [t.display] fun _ =>
          if r.has .eval then evaluating r t else finish r

/-- Reading and what follows it. -/
def reading (r : Request) (text : String) : Transcript :=
  let (verdict, events) := readTraced ⟨.standard, r.has .debug⟩ text
  .linesThen (parseTrace text events) fun _ =>
    match verdict with
    | .refused failure => .line ("Parse error: " ++ failure.message text) fun _ => .exit 1
    | .exhausted => .line "Parse error: maximum recursion depth exceeded" fun _ => .exit 1
    | .accepted e =>
        let shown := fun _ : Unit =>
          .linesIf r.wantsRender [e.render .normal] fun _ =>
            .linesIf (r.has .outline) [e.outline] fun _ =>
              if r.has .term || r.has .eval then lowering r e else .exit 0
        if r.has .debug then .elapsed "  Parsed in " .overall shown else shown ()

/-- What is printed for the content of a file. -/
def processing (r : Request) (content : FileContent) : Transcript :=
  .linesIf (r.has .debug)
      ["=== Bricks ===", "Input: " ++ r.path,
        "Options: " ++ String.intercalate " " ((Flag.all.filter r.has).map Flag.word), ""] fun _ =>
    match content with
    | .undecodable => .undecodable
    | .unreadable reason =>
        .linesThen ["Failed to read file: " ++ r.path, "Error: " ++ reason] fun _ => .exit 1
    | .text s =>
        let text := String.ofList (Text.unifyLineEnds s.toList)
        .start .overall fun _ =>
          .linesIf (r.has .tokens) ["== Tokens ==", listTokens (tokenize .standard text)]
            fun _ => reading r text

/-- What is printed for the words of a call: the path of a file and options. -/
def transcript (words : List String) (content : String → FileContent) : Transcript :=
  match words with
  | [] => .linesThen usage fun _ => .exit 1
  | path :: options =>
      match unknownWords options with
      | [] => processing ⟨path, options.filterMap Flag.ofWord?⟩ (content path)
      | unknown =>
          .linesThen (("Unknown options: " ++ String.intercalate " " unknown) :: usage)
            fun _ => .exit 1

/-! ## Paths -/

/-- The parts of a path with the steps to a parent directory taken. -/
def resolveParts : List String → List String → List String
  | taken, [] => taken.reverse
  | taken, part :: rest =>
      if part = "" || part = "." then resolveParts taken rest
      else if part = ".." then resolveParts taken.tail rest
      else resolveParts (part :: taken) rest

/-- A path from the root, given the directory that relative paths start from. -/
def absolutePath (directory path : String) : String :=
  let full := if path.startsWith "/" then path else directory ++ "/" ++ path
  "/" ++ String.intercalate "/" (resolveParts [] (full.splitOn "/"))

end LazyConfig.CommandLine
