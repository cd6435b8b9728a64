/-!
Inputs: what a command can be told to read, and why that can fail.
-/

namespace ExprFront

inductive Input where
  | standardInput
  | file (name : String)
  deriving DecidableEq

/-- A dash by itself is the standard input. -/
def Input.ofArg (arg : String) : Input :=
  if arg = "-" then standardInput else file arg

inductive ReadError where
  | notFound
  | notDirectory
  | isDirectory
  | nameTooLong
  | invalidEncoding
  | other (reason : String)
  deriving DecidableEq

namespace ReadError

def reason : ReadError → String
  | notFound => "No such file or directory (os error 2)"
  | notDirectory => "Not a directory (os error 20)"
  | isDirectory => "Is a directory (os error 21)"
  | nameTooLong => "File name too long (os error 36)"
  | invalidEncoding => "stream did not contain valid UTF-8"
  | other reason => reason

def message (e : ReadError) : String :=
  "IO error: " ++ e.reason

end ReadError

/-- The text of an input, whose bytes have to be in UTF-8. -/
def Input.decode (content : Except ReadError ByteArray) : Except ReadError String := do
  match String.fromUTF8? (← content) with
  | some text => return text
  | none => throw .invalidEncoding

end ExprFront
