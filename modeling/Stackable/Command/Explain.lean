import Stackable.Command.Outcome
import Stackable.Diagnostic.Code

/-!
# Explaining codes
-/

set_option autoImplicit false

namespace Stackable.Explain

def lines (text : String) : List Styled :=
  match (textLines text.toList).map String.ofList with
  | [] => []
  | first :: rest =>
    Outcome.line [.bold first] ++ rest.flatMap fun l => Outcome.line [.plain l]

def unknown (code : String) : List Styled :=
  Outcome.errorLine ("unknown rule or error code `" ++ code ++ "`") ++
    match Rule.suggest? code with
    | some suggestion => Outcome.line [.colored .cyan "hint", .plain (": " ++ suggestion)]
    | none =>
      Outcome.line [] ++
        Outcome.line [.plain "Error codes use the format E0NNN (e.g., E0101)."] ++
        Outcome.line [.plain "Rule ids look like perf/small-array-on-stack."]

def command (code : String) : Outcome :=
  match explain? code with
  | some text => { exitCode := 0, output := lines text }
  | none => { exitCode := 1, errors := unknown code }

end Stackable.Explain
