import LazyConfig.CommandLine
set_option autoImplicit false

/-!
# The program

The only part that touches the outside: it reads the file, prints the transcript of
the command line, and reads the clock where the transcript asks for it.
-/

namespace LazyConfig.Main

open CommandLine

/-- What reading a file gives. -/
def readContent (path : String) : IO FileContent := do
  try
    return .ofBytes (← IO.FS.readBinFile path)
  catch error =>
    match error with
    | .noFileOrDirectory _ _ _ => return .unreadable (missingReason path)
    | .permissionDenied _ _ _ => return .unreadable (systemReason 13 "Permission denied" path)
    | .inappropriateType _ _ _ => return .unreadable (systemReason 21 "Is a directory" path)
    | other => return .unreadable (toString other)

/-- Prints a transcript; the numbers are the times at which the two clocks were started. -/
def print (overall evaluation : Nat) : Transcript → IO UInt32
  | .exit status => return status.toUInt32
  | .undecodable => do
      IO.eprintln "the file is not encoded as UTF-8"
      return 1
  | .line text next => do
      IO.println text
      print overall evaluation (next ())
  | .start .overall next => do print (← IO.monoMsNow) evaluation (next ())
  | .start .evaluation next => do print overall (← IO.monoMsNow) (next ())
  | .elapsed label clock next => do
      let since := match clock with
        | .overall => overall
        | .evaluation => evaluation
      IO.println (label ++ toString ((← IO.monoMsNow) - since) ++ "ms")
      print overall evaluation (next ())

end LazyConfig.Main

/-- Runs the command line. -/
def main (words : List String) : IO UInt32 := do
  match words with
  | [] => LazyConfig.Main.print 0 0 (LazyConfig.CommandLine.transcript [] fun _ => .undecodable)
  | path :: options => do
      let path := LazyConfig.CommandLine.absolutePath (← IO.currentDir).toString path
      let content ← LazyConfig.Main.readContent path
      LazyConfig.Main.print 0 0
        (LazyConfig.CommandLine.transcript (path :: options) fun _ => content)
