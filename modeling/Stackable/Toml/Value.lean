import Stackable.Toml.Moment

/-!
# Tables of settings

Settings are strings, truth values, numbers, moments, arrays and tables. A table is built up by
headers and dotted keys, and how it came about decides what may still be added to it.
-/

set_option autoImplicit false

namespace Stackable.Toml

inductive Origin where
  /-- Only named on the way to a table with a header. -/
  | implied
  /-- Made by a dotted key. -/
  | dotted
  | header
  | inline
deriving Repr, DecidableEq

inductive Value where
  | string (value : String)
  | bool (value : Bool)
  | integer (value : Int)
  | real (value : Float)
  | moment (value : Moment)
  | array (items : List Value)
  | table (origin : Origin) (entries : List (String × Value))

abbrev Entries := List (String × Value)

def replaceEntry (key : String) (value : Value) (entries : Entries) : Entries :=
  entries.map fun e => if e.1 == key then (key, value) else e

/-- Puts a value below a dotted key. A key that has a value is refused. Tables on the way are made
as needed; those with a header or in braces are closed, and the last one must be made by dotted
keys alone. -/
def insertAt (key : String) (value : Value) : List String → Entries → Option Entries
  | [], entries => if (entries.lookup key).isSome then none else some (entries ++ [(key, value)])
  | name :: path, entries =>
    match entries.lookup name with
    | none =>
      (insertAt key value path []).map fun inner => entries ++ [(name, .table .dotted inner)]
    | some (.table origin inner) =>
      if origin = .dotted ∨ (origin = .implied ∧ path ≠ []) then
        (insertAt key value path inner).map fun inner => replaceEntry name (.table origin inner) entries
      else none
    | some _ => none

/-- Makes room for the table of a header. A table can have one header, and none if dotted keys made
it. -/
def openTable : List String → Entries → Option Entries
  | [], _ => none
  | [name], entries =>
    match entries.lookup name with
    | none => some (entries ++ [(name, .table .header [])])
    | some (.table .implied inner) => some (replaceEntry name (.table .header inner) entries)
    | some _ => none
  | name :: path, entries =>
    match entries.lookup name with
    | none => (openTable path []).map fun inner => entries ++ [(name, .table .implied inner)]
    | some (.table origin inner) =>
      if origin = .inline then none
      else (openTable path inner).map fun inner => replaceEntry name (.table origin inner) entries
    | some _ => none

def modifyTable (f : Entries → Option Entries) : List String → Entries → Option Entries
  | [], entries => f entries
  | name :: path, entries =>
    match entries.lookup name with
    | some (.table origin inner) =>
      (modifyTable f path inner).map fun inner => replaceEntry name (.table origin inner) entries
    | _ => none

structure Pair where
  path : List String
  key : String
  value : Value

inductive Line where
  | header (path : List String)
  | pair (p : Pair)

def entriesOfPairs? (pairs : List Pair) : Option Entries :=
  pairs.foldlM (fun entries p => insertAt p.key p.value p.path entries) []

/-- Takes one more line into a document whose lines go to the table at `current`. -/
def addLine (state : List String × Entries) (line : Line) : Option (List String × Entries) :=
  match line with
  | .header path => (openTable path state.2).map fun entries => (path, entries)
  | .pair p =>
    (modifyTable (insertAt p.key p.value p.path) state.1 state.2).map fun entries =>
      (state.1, entries)

def entriesOfLines? (lines : List Line) : Option Entries :=
  (lines.foldlM addLine ([], [])).map (·.2)

end Stackable.Toml
