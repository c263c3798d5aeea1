/-!
# What is asked for on the command line
-/

set_option autoImplicit false

namespace Stackable

inductive Format where
  | human
  | json
deriving Repr, DecidableEq

def Format.ofText? : String → Option Format
  | "human" => some .human
  | "json" => some .json
  | _ => none

structure CheckArgs where
  paths : List String
  format : Format
  allowUnsafe : Bool
  denyUnsafe : Bool
  select : List String
  exclude : List String
  /-- Errors in sources do not make the run fail. -/
  exitZero : Bool
  denyWarnings : Bool
deriving Repr, DecidableEq

def CheckArgs.unsafeOverride (a : CheckArgs) : Option Bool :=
  if a.allowUnsafe then some true else if a.denyUnsafe then some false else none

inductive Command where
  | check (args : CheckArgs)
  | explain (code : String)
  | lex (file : String) (format : Format)
  | parse (file : String) (format : Format)
deriving Repr, DecidableEq

structure Invocation where
  verbosity : Nat
  debug : Bool
  config : Option String
  command : Command
deriving Repr, DecidableEq

def Invocation.logLevel (i : Invocation) : String :=
  match if i.debug then max i.verbosity 2 else i.verbosity with
  | 0 => "warn"
  | 1 => "info"
  | 2 => "debug"
  | _ => "trace"

inductive UsageError where
  | help
  /-- Nothing at all is given. -/
  | helpOnNothing
  | version
  | missingSubcommand
  | invalidSubcommand
  | unknownArgument
  | invalidValue
  | argumentConflict
  | tooManyValues
  | missingArgument
deriving Repr, DecidableEq

end Stackable
