/-
  The program on real files and a real terminal.
-/
import PropCalc.Command.Run

namespace PropCalc.Terminal

/-- The number that the system gives to an error, and its wording. -/
def numberOf : IO.Error → Option (UInt32 × String)
  | .noFileOrDirectory _ number details => some (number, details)
  | .inappropriateType _ number details | .invalidArgument _ number details
  | .permissionDenied _ number details | .resourceExhausted _ number details =>
    some (number, details)
  | _ => none

/-- The reason that a failed access to a file gives. Some accesses change the sign of the
    number. -/
def reasonOf (e : IO.Error) : FileError :=
  match numberOf e with
  | none => .other (toString e)
  | some (number, details) =>
    match min number (0 - number) with
    | 2 => .notFound
    | 20 => .notDirectory
    | 21 => .isDirectory
    | 36 => .nameTooLong
    | n => .other s!"{details} (os error {n})"

/-- Goes on with a path that the system can be given. -/
def withPath (path : String) (go : IO (Except FileError α)) : IO (Except FileError α) := do
  if '\x00' ∈ path.toList then return .error .nulInPath
  else try go catch e => return .error (reasonOf e)

/-- The files of the system. -/
def storage : Storage IO where
  read path := withPath path do
    match String.fromUTF8? (← IO.FS.readBinFile path) with
    | some text => return .ok text
    | none => return .error .notText
  write path text := withPath path do
    IO.FS.writeFile path text
    return .ok ()

/-- An environment variable switches something on unless it is 0. -/
def switch (name : String) : IO (Option Bool) := return (← IO.getEnv name).map (· ≠ "0")

/-- Styles are used on a terminal, and where they are forced. -/
def styled : IO Bool := do
  if (← switch "CLICOLOR_FORCE") = some true then return true
  else if (← switch "NO_COLOR").isSome then return false
  else return (← switch "CLICOLOR").getD true && (← (← IO.getStdout).isTty)

end PropCalc.Terminal

def main (arguments : List String) : IO UInt32 := do
  let styled ← PropCalc.Terminal.styled
  let result ← PropCalc.runProgram PropCalc.Terminal.storage styled arguments
  IO.print result.output
  if let some errors := result.errors then IO.eprintln errors
  return result.exitCode.toUInt32
