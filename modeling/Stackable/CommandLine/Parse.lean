import Stackable.CommandLine.Basic

/-!
# Reading the command line

Arguments are taken from left to right. A value that stands apart from its option is examined
only when the next option or positional argument is taken up, or at the end; so of two faults the
one that is met first in this way is reported.
-/

set_option autoImplicit false

namespace Stackable.CommandLine

inductive Flag where
  | verbose | debug | config | format | allowUnsafe | denyUnsafe | select | exclude | exitZero
  | denyWarnings | help | version
deriving Repr, DecidableEq

namespace Flag

def long : Flag → String
  | .verbose => "verbose"
  | .debug => "debug"
  | .config => "config"
  | .format => "format"
  | .allowUnsafe => "unsafe"
  | .denyUnsafe => "no-unsafe"
  | .select => "select"
  | .exclude => "exclude"
  | .exitZero => "exit-zero"
  | .denyWarnings => "deny-warnings"
  | .help => "help"
  | .version => "version"

def short? : Flag → Option Char
  | .verbose => some 'v'
  | .help => some 'h'
  | .version => some 'V'
  | _ => none

def takesValue : Flag → Bool
  | .config | .format | .select | .exclude => true
  | _ => false

def repeats : Flag → Bool
  | .verbose | .select | .exclude => true
  | _ => false

/-- A path must not be empty, and a format must be known. -/
def accepts (f : Flag) (value : String) : Bool :=
  match f with
  | .config => !value.isEmpty
  | .format => (Format.ofText? value).isSome
  | _ => true

end Flag

/-- Where arguments stand: before the subcommand, or behind it. -/
inductive Scope where
  | top | check | explain | lex | parse
deriving Repr, DecidableEq

namespace Scope

def ofName? : String → Option Scope
  | "check" => some .check
  | "explain" => some .explain
  | "lex" => some .lex
  | "parse" => some .parse
  | _ => none

def shared : List Flag := [.verbose, .debug, .config, .help]

def flags : Scope → List Flag
  | .top => .version :: shared
  | .check =>
    [.format, .allowUnsafe, .denyUnsafe, .select, .exclude, .exitZero, .denyWarnings] ++ shared
  | .explain => shared
  | .lex | .parse => .format :: shared

def takesPositional : Scope → Bool
  | .top => false
  | _ => true

def takesMany : Scope → Bool
  | .check => true
  | _ => false

def acceptsPositional (s : Scope) (value : String) : Bool :=
  match s with
  | .explain => true
  | _ => !value.isEmpty

end Scope

/-- What was taken up last and is not examined yet. -/
inductive Pending where
  | nothing
  | option (f : Flag) (value : Option String)
  | positional (values : List String)
deriving Repr, DecidableEq

structure Scan where
  /-- The options so far, in order; those without a value have an empty one. -/
  given : List (Flag × String) := []
  positionals : List String := []
  pending : Pending := .nothing
  awaitsValue : Bool := false
  /-- Behind `--`, where everything is a positional argument. -/
  escaped : Bool := false
deriving Repr, DecidableEq

namespace Scan

def give (s : Scan) (f : Flag) (value : String) : Except UsageError Scan :=
  if !f.repeats && s.given.any (·.1 == f) then .error .argumentConflict
  else if f.accepts value then .ok { s with given := s.given ++ [(f, value)] }
  else .error .invalidValue

def settle (scope : Scope) (s : Scan) : Except UsageError Scan :=
  let s' := { s with pending := .nothing, awaitsValue := false }
  match s.pending with
  | .nothing => .ok s'
  | .option _ none => .error .invalidValue
  | .option f (some value) => s'.give f value
  | .positional values =>
    if values.all scope.acceptsPositional then
      .ok { s' with positionals := s'.positionals ++ values }
    else .error .invalidValue

def takeFlag (scope : Scope) (s : Scan) (f : Flag) : Except UsageError Scan := do
  let s ← s.settle scope
  match f with
  | .help => throw .help
  | .version => throw .version
  | f => s.give f ""

/-- Takes up `--name`, with the text behind `=` if there is any. -/
def takeLong (scope : Scope) (s : Scan) (name : String) (value : Option String) :
    Except UsageError Scan := do
  match scope.flags.find? (·.long == name), value with
  | none, _ => throw .unknownArgument
  | some f, some value =>
    if f.takesValue then (← s.settle scope).give f value else throw .tooManyValues
  | some f, none =>
    if f.takesValue then
      return { ← s.settle scope with pending := .option f none, awaitsValue := true }
    else s.takeFlag scope f

def takeShort (scope : Scope) (s : Scan) : List Char → Except UsageError Scan
  | [] => .ok s
  | c :: cs => do
    match scope.flags.find? (·.short? == some c) with
    | some f => (← s.takeFlag scope f).takeShort scope cs
    | none => throw .unknownArgument

def takePositional (scope : Scope) (s : Scan) (value : String) : Except UsageError Scan :=
  match s.pending with
  | .positional values =>
    if scope.takesMany then .ok { s with pending := .positional (values ++ [value]) }
    else .error .unknownArgument
  | _ =>
    if scope.takesPositional then do
      if !scope.takesMany && !s.positionals.isEmpty then throw .unknownArgument
      let s ← s.settle scope
      return { s with pending := .positional [value] }
    else if s.escaped && ((Scope.ofName? value).isSome || value == "help") then
      .error .unknownArgument
    else .error .invalidSubcommand

def splitLong (text : List Char) : String × Option String :=
  (String.ofList (text.takeWhile (· != '=')),
    match text.dropWhile (· != '=') with
    | '=' :: value => some (String.ofList value)
    | _ => none)

def take (scope : Scope) (s : Scan) (arg : String) : Except UsageError Scan :=
  if s.escaped then s.takePositional scope arg
  else
    match arg.toList with
    | ['-', '-'] => .ok { s with escaped := true }
    | '-' :: '-' :: text =>
      let (name, value) := splitLong text
      s.takeLong scope name value
    | '-' :: c :: cs => s.takeShort scope (c :: cs)
    | _ =>
      match s.pending with
      | .option f none =>
        if s.awaitsValue then .ok { s with pending := .option f (some arg), awaitsValue := false }
        else s.takePositional scope arg
      | _ => s.takePositional scope arg

def has (s : Scan) (f : Flag) : Bool := s.given.any (·.1 == f)

def values (s : Scan) (f : Flag) : List String := (s.given.filter (·.1 == f)).map (·.2)

def listed (s : Scan) (f : Flag) : List String :=
  (s.values f).flatMap fun v => (v.toList.splitOn ',').map String.ofList

def format (s : Scan) : Format := ((s.values .format).head?.bind Format.ofText?).getD .human

end Scan

def helpOn : List String → UsageError
  | [] => .help
  | [name] => if (Scope.ofName? name).isSome || name == "help" then .help else .invalidSubcommand
  | _ => .invalidSubcommand

def scanAll (scope : Scope) (args : List String) : Except UsageError Scan := do
  (← args.foldlM (Scan.take scope) {}).settle scope

def command (scope : Scope) (s : Scan) : Except UsageError Command :=
  match scope, s.positionals with
  | .check, paths =>
    if s.has .allowUnsafe && s.has .denyUnsafe then .error .argumentConflict
    else if paths.isEmpty then .error .missingArgument
    else
      .ok (.check
        { paths
          format := s.format
          allowUnsafe := s.has .allowUnsafe
          denyUnsafe := s.has .denyUnsafe
          select := s.listed .select
          exclude := s.listed .exclude
          exitZero := s.has .exitZero
          denyWarnings := s.has .denyWarnings })
  | .explain, [code] => .ok (.explain code)
  | .lex, [file] => .ok (.lex file s.format)
  | .parse, [file] => .ok (.parse file s.format)
  | _, _ => .error .missingArgument

/-- An option that may stand on both sides of the subcommand counts where it stands behind it. -/
def nearer (outer inner : Scan) (f : Flag) : Scan := if inner.has f then inner else outer

def invocation (outer inner : Scan) (command : Command) : Invocation where
  verbosity := min ((nearer outer inner .verbose).values .verbose).length 255
  debug := (nearer outer inner .debug).has .debug
  config := ((nearer outer inner .config).values .config).head?
  command

def scanTop (s : Scan) : List String → Except UsageError Invocation
  | [] => do
    let s ← s.settle .top
    throw (if s.given.isEmpty then .helpOnNothing else .missingSubcommand)
  | arg :: args => do
    let subcommand := if s.escaped || s.awaitsValue then none else some arg
    if subcommand = some "help" then throw (helpOn args)
    match subcommand.bind Scope.ofName? with
    | some scope =>
      let inner ← scanAll scope args
      let command ← command scope inner
      return invocation (← s.settle .top) inner command
    | none => scanTop (← s.take .top arg) args

def parse (argv : List String) : Except UsageError Invocation := scanTop {} argv.tail

end Stackable.CommandLine
