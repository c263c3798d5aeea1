import Stackable.Rule.Basic
import Stackable.Toml.Reader
import Stackable.Workspace.Tree

/-!
# Configuration

What a configuration file says, and the options that follow from it. A key that has no meaning,
a value of the wrong kind and a pattern that matches no rule are errors.
-/

set_option autoImplicit false

namespace Stackable

structure Config where
  /-- Not allowed if it is not given. -/
  allowUnsafe : Option Bool := none
  select : List String := []
  exclude : List String := []
  severity : List (String × Severity) := []
  excludedNames : List String := []
deriving Repr, DecidableEq

inductive ConfigError where
  | unreadable (path : String) (cause : AccessError)
  | malformed (path : String)
  | unknownRule (pattern : String)
deriving Repr, DecidableEq

def ConfigError.message : ConfigError → String
  | .unreadable path cause => "failed to read " ++ path ++ ": " ++ cause.message
  | .malformed path => "failed to parse " ++ path
  | .unknownRule pattern => "unknown rule `" ++ pattern ++ "` in config"

namespace Config

open Toml (Value Entries)

def string? : Value → Option String
  | .string s => some s
  | _ => none

def bool? : Value → Option Bool
  | .bool b => some b
  | _ => none

def strings? : Value → Option (List String)
  | .array items => items.mapM string?
  | _ => none

/-- A severity is named by a string, or by the only key of a table, with nothing in it. -/
def severity? : Value → Option Severity
  | .string s => Severity.ofText? s
  | .table _ [(name, .table _ [])] => Severity.ofText? name
  | .table _ [(name, .array [])] => Severity.ofText? name
  | _ => none

def severities? : Value → Option (List (String × Severity))
  | .table _ entries => entries.mapM fun e => (severity? e.2).map fun s => (e.1, s)
  | _ => none

/-- The settings of a section that has the given keys. They are given by key, or in their order in
an array. -/
def settings? (keys : List String) : Value → Option (List (Option Value))
  | .table _ entries =>
    if entries.all (keys.contains ·.1) then some (keys.map fun k => entries.lookup k) else none
  | .array items => some ((List.range keys.length).map fun i => items[i]?)
  | _ => none

def orElse {α : Type} (absent : α) (f : Value → Option α) : Option Value → Option α
  | some v => f v
  | none => some absent

def compilation? (v : Value) : Option (Option Bool) := do
  match ← settings? ["allow_unsafe"] v, v with
  | [none], .array _ => none
  | [allow], _ => orElse none (fun v => (bool? v).map some) allow
  | _, _ => none

def ofEntries? (entries : Entries) : Option Config := do
  match ← settings? ["compilation", "rules", "files"] (.table .header entries) with
  | [compilation, rules, files] =>
    let allowUnsafe ← orElse none compilation? compilation
    let rules ← orElse [none, none, none] (settings? ["select", "exclude", "severity"]) rules
    let files ← orElse [none] (settings? ["exclude"]) files
    match rules, files with
    | [select, exclude, severity], [excludedNames] =>
      return {
        allowUnsafe
        select := ← orElse [] strings? select
        exclude := ← orElse [] strings? exclude
        severity := ← orElse [] severities? severity
        excludedNames := ← orElse [] strings? excludedNames }
    | _, _ => none
  | _ => none

def patterns (c : Config) : List String := c.select ++ c.exclude ++ c.severity.map (·.1)

def parse (path : String) (text : List Char) : Except ConfigError Config :=
  match (Toml.read? text).bind ofEntries? with
  | none => .error (.malformed path)
  | some c =>
    match unknownPattern? c.patterns with
    | some pattern => .error (.unknownRule pattern)
    | none => .ok c

def options (c : Config) : Options where
  allowUnsafe := c.allowUnsafe.getD false
  select := c.select
  exclude := c.exclude
  severity := c.severity

def isExcluded (c : Config) (path : String) : Bool :=
  (Path.components path).any fun component => c.excludedNames.contains component.text

def read (w : Workspace) (path : String) : Except ConfigError Config :=
  match w.text path with
  | .ok text => parse path text
  | .error cause => .error (.unreadable path cause)

def load (w : Workspace) (asked : Option String) : Except ConfigError (Config × Option String) :=
  match asked.or w.nearestConfig? with
  | some path => (read w path).map fun c => (c, some path)
  | none => .ok ({}, none)

end Config

end Stackable
