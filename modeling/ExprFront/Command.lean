import ExprFront.Error.Outline
import ExprFront.Input
import ExprFront.Program.Outline
import ExprFront.Program.Phrase
import ExprFront.Program.Printer
import ExprFront.Token.Listing

/-!
The command line: what its arguments ask for, and what each command writes for what it reads.
-/

namespace ExprFront

/-- What a run of a command leaves behind. -/
structure Outcome where
  exitCode : Nat
  stdout : String
  stderr : String
  deriving DecidableEq

namespace Outcome

def success (stdout : String) : Outcome := ⟨0, stdout, ""⟩

def failure (message : String) : Outcome := ⟨1, "", "Error: " ++ message ++ "\n"⟩

/-- The outcome with more output before its own. -/
def after (o : Outcome) (earlier : String) : Outcome :=
  ⟨o.exitCode, earlier ++ o.stdout, o.stderr⟩

end Outcome

inductive Command where
  | version
  | tokens (input : Input)
  | parse (input : Input) (showTokens debug : Bool)
  deriving DecidableEq

namespace Command

/-- An argument that begins with a dash is a flag, unless it is the dash alone. -/
def isFlag (arg : String) : Bool :=
  arg.toList.head? = some '-' && arg ≠ "-"

/-- Divides arguments into the positional ones and the flags. Each flag allowed may stand once;
after `--` everything is positional. -/
def splitArgs? (allowed : List String) : List String → Option (List String × List String)
  | [] => some ([], [])
  | arg :: args =>
      if arg = "--" then some (args, [])
      else if isFlag arg then
        if arg ∈ allowed then
          (splitArgs? (allowed.erase arg) args).map fun (inputs, flags) => (inputs, arg :: flags)
        else none
      else (splitArgs? allowed args).map fun (inputs, flags) => (arg :: inputs, flags)

/-- The command that the arguments ask for; none where they are misused. An input is asked for
exactly once, and asking for the version needs nothing more. -/
def ofArgs? : List String → Option Command
  | "tokens" :: args =>
      match splitArgs? [] args with
      | some ([input], _) => some (tokens (.ofArg input))
      | _ => none
  | "parse" :: args =>
      match splitArgs? ["--show-tokens", "--debug"] args with
      | some ([input], flags) =>
          some (parse (.ofArg input) ("--show-tokens" ∈ flags) ("--debug" ∈ flags))
      | _ => none
  | arg :: _ =>
      if arg = "--version" ∨ arg.toList.take 2 = ['-', 'V'] then some version else none
  | [] => none

def input? : Command → Option Input
  | version => none
  | tokens input => some input
  | parse input _ _ => some input

def written (debug : Bool) (p : Program) : String :=
  if debug then p.outline.render .indented ++ "\n" else p.render

def parseTokens (debug : Bool) (ts : List Token) : Outcome :=
  match Program.ofTokens ts with
  | .error e => .failure e.message
  | .ok p => .success (written debug p)

/-- The outcome of a command on the source that it reads. -/
def onSource (source : String) : Command → Outcome
  | version => .success "pyfront 0.1.0\n"
  | tokens _ =>
      match Token.ofSource source with
      | .error e => .failure e.message
      | .ok ts => .success (Token.listing ts)
  | parse _ showTokens debug =>
      match Token.ofSource source with
      | .error e => .failure e.message
      | .ok ts =>
          if showTokens then
            (parseTokens debug ts).after
              ("=== TOKENS ===\n" ++ Token.listing ts ++ "=== AST ===\n")
          else parseTokens debug ts

/-- The outcome of a command, where `read` gives the bytes of an input. -/
def outcome (read : Input → Except ReadError ByteArray) (c : Command) : Outcome :=
  match c.input? with
  | none => c.onSource ""
  | some input =>
      match Input.decode (read input) with
      | .error e => .failure e.message
      | .ok source => c.onSource source

end Command

end ExprFront
