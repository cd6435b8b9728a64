import ExprFront.Command

/-!
The program: it reads what the command asks for and writes the outcome.
-/

namespace ExprFront

/-- The cause of a system error. The system's number comes with either sign. -/
def ReadError.ofSystem (e : IO.Error) : ReadError :=
  match e with
  | .noFileOrDirectory .. => notFound
  | .inappropriateType _ code _ => if code = 21 ∨ code = -21 then isDirectory else notDirectory
  | .invalidArgument _ code _ =>
      if code = 36 ∨ code = -36 then nameTooLong else other (toString e)
  | e => other (toString e)

def Input.readBytes : Input → IO (Except ReadError ByteArray)
  | standardInput => do
      return .ok (← (← IO.getStdin).readBinToEnd)
  | file name => do
      try
        return .ok (← IO.FS.readBinFile name)
      catch e =>
        return .error (.ofSystem e)

def Command.usage : String :=
  "Usage: pyfront tokens INPUT\n       pyfront parse INPUT [--show-tokens] [--debug]\n"

def Command.run (c : Command) : IO UInt32 := do
  let content ←
    match c.input? with
    | none => pure (.ok .empty)
    | some input => input.readBytes
  let outcome := c.outcome fun _ => content
  IO.print outcome.stdout
  IO.eprint outcome.stderr
  return outcome.exitCode.toUInt32

end ExprFront

open ExprFront in
def main (args : List String) : IO UInt32 :=
  match Command.ofArgs? args with
  | some c => c.run
  | none => do
      IO.eprint Command.usage
      return 2
