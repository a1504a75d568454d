/-
The command line.
-/
import QuotaTree.Command

namespace QuotaTree

/-- The text of a file, or why it could not be read. -/
def readSource (name : String) : IO SourceFile := do
  try
    let text ← IO.FS.readFile name
    pure ⟨name, .ok text⟩
  catch
    | .noFileOrDirectory .. =>
      pure ⟨name, .error "No such file or directory (os error 2)"⟩
    | error => pure ⟨name, .error (toString error)⟩

def usageText : String :=
  "usage: check LOG [--config FILE]\n" ++
    "       inspect LOG [--config FILE] [--path PATH]\n"

end QuotaTree

open QuotaTree in
def main (args : List String) : IO UInt32 := do
  match Invocation.read args with
  | none =>
    (← IO.getStderr).putStr usageText
    pure 1
  | some invocation =>
    let log ← readSource invocation.log
    let settings ← invocation.settings.mapM readSource
    let outcome := invocation.command.run log settings
    (← IO.getStdout).putStr outcome.out
    (← IO.getStderr).putStr outcome.err
    pure (UInt32.ofNat outcome.code)
