import Stackable.Command.Check
import Stackable.Command.Explain
import Stackable.Command.Inspect

/-!
# Carrying out a command
-/

set_option autoImplicit false

namespace Stackable

def Command.run (w : Workspace) (c : Config) : Command → Outcome
  | .check args => Check.command w c args
  | .explain code => Explain.command code
  | .lex file format => Inspect.command w file (Inspect.tokens file format)
  | .parse file format => Inspect.command w file (Inspect.tree file format)

def Command.paths : Command → List String
  | .check args => args.paths
  | .explain _ => []
  | .lex file _ | .parse file _ => [file]

def Invocation.run (w : Workspace) (i : Invocation) : Outcome :=
  match Config.load w i.config with
  | .ok (c, _) => i.command.run w c
  | .error e => { exitCode := 1, errors := Outcome.errorLine e.message }

end Stackable
