import Formulary.CommandLine.Run

/-!
# The program

Reads the file that the arguments name, if they name one, runs, and writes what the run says.
-/

namespace Formulary

namespace CommandLine

/-- The number that the system gives an error. It is kept with the sign changed for some errors. -/
def systemCode? : IO.Error → Option Nat
  | .alreadyExists _ code _ | .otherError code _ | .resourceBusy code _ | .resourceVanished code _
  | .unsupportedOperation code _ | .hardwareFault code _ | .unsatisfiedConstraints code _
  | .illegalOperation code _ | .protocolError code _ | .timeExpired code _
  | .interrupted _ code _ | .noFileOrDirectory _ code _ | .invalidArgument _ code _
  | .permissionDenied _ code _ | .resourceExhausted _ code _ | .inappropriateType _ code _
  | .noSuchThing _ code _ => some (min code.toNat (Nat.pow 2 32 - code.toNat))
  | .unexpectedEof | .userError _ => none

/-- The text of a file of the system, or why it cannot be read. -/
def readSystemFile (path : String) : IO (Except ReadError String) := do
  try
    let bytes ← IO.FS.readBinFile path
    match String.fromUTF8? bytes with
    | some contents => return .ok contents
    | none => return .error .notText
  catch e => return .error (((systemCode? e).bind ReadError.ofCode?).getD (.other (toString e)))

/-- The one file that arguments ask for, read ahead of the run. -/
def readAhead (arguments : List String) : IO (String → Except ReadError String) := do
  match parseArguments arguments with
  | .ok o =>
    match o.file with
    | some path =>
      let contents ← readSystemFile path
      return fun _ => contents
    | none => return fun _ => .error .missing
  | .error _ => return fun _ => .error .missing

/-- Writes one event where it belongs. -/
def writeEvent : Event → IO Unit
  | .out line => IO.println line
  | .err line => IO.eprintln line
  | .log record => IO.eprintln record.text

end CommandLine

end Formulary

/-- Runs on the arguments and on the log filter of the environment. -/
def main (arguments : List String) : IO UInt32 := do
  let filter ← IO.getEnv "RUST_LOG"
  let readFile ← Formulary.CommandLine.readAhead arguments
  let report := Formulary.CommandLine.run Formulary.MathLibrary.system readFile filter arguments
  for event in report.events do
    Formulary.CommandLine.writeEvent event
  return report.exit.toUInt32
