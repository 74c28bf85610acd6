import CardSat.CommandLine.Program

set_option autoImplicit false

/-! # The command line

The program as a command: its arguments are those of the process, and its host are the files, the
clock and the streams of the system.
-/

namespace CardSat

namespace CommandLine

/-- The error text of a file operation. -/
def ioErrorText : IO.Error → String
  | .noFileOrDirectory _ code _ =>
      "No such file or directory (os error " ++ toString code ++ ")"
  | e => toString e

/-- The host of a program that runs for itself. -/
def systemHost : Host IO where
  contents path := do
    try return .ok (← IO.FS.readBinFile path)
    catch e => return .error (ioErrorText e)
  create path content := do
    try return .ok (← IO.FS.writeFile path content)
    catch e => return .error (ioErrorText e)
  clock := do return (← IO.monoNanosNow).toFloat / 1000000000.0
  print s := do
    IO.print s
    (← IO.getStdout).flush
  log line := IO.eprintln line

end CommandLine

end CardSat

/-- Runs the program on its arguments. -/
def main (args : List String) : IO UInt32 := CardSat.CommandLine.run CardSat.CommandLine.systemHost args
