import Stackable.Text.Style
import Stackable.Workspace.Tree

/-!
# What a command does

A command writes styled text to the output and to the error stream, and ends with an exit code.
-/

set_option autoImplicit false

namespace Stackable

structure Outcome where
  exitCode : Nat
  output : List Styled := []
  errors : List Styled := []
deriving Repr, DecidableEq

namespace Outcome

def newline : Styled := .plain "\n"

def line (pieces : List Styled) : List Styled := pieces ++ [newline]

def errorLabel : Styled := .boldColored .red "error"

def errorLine (message : String) : List Styled := line [errorLabel, .plain (": " ++ message)]

def readFailure (path : String) (cause : AccessError) : List Styled :=
  line [errorLabel, .plain ": reading ", .underlined path, .plain (": " ++ cause.message)]

def banner (text : Styled) : List Styled :=
  [.dimmed "===", .plain " ", text, .plain " ", .dimmed "==="]

def bannerOk (phase : String) : List Styled := banner (.boldColored .green (phase ++ " OK"))

def counted (n : Nat) (one many : String) : String :=
  if n = 1 then "1 " ++ one else toString n ++ " " ++ many

def bannerFail (phase : String) (errors : Nat) : List Styled :=
  banner (.boldColored .red (phase ++ " FAILED: " ++ counted errors "error" "errors"))

def highlighted (color : Color) (n : Nat) (text : String) : Styled :=
  if n = 0 then .plain text else .colored color text

end Outcome

end Stackable
