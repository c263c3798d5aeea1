import Stackable.Text.Quoted
import Stackable.Number.Decimal

/-!
# Dumps

A dump is a value laid out by its structure: named records, named tuples, lists and plain words.
It is written on one line, or with one part a line and four blanks for each level.
-/

set_option autoImplicit false

namespace Stackable

inductive Dump where
  | word (text : String)
  | tuple (name : String) (items : List Dump)
  | record (name : String) (fields : List (String × Dump))
  | list (items : List Dump)

namespace Dump

def nat (n : Nat) : Dump := .word (toString n)

def bool (b : Bool) : Dump := .word (if b then "true" else "false")

def string (s : String) : Dump := .word (Text.Quoted.string s)

def char (c : Char) : Dump := .word (Text.Quoted.char c)

def real (x : Float) : Dump := .word (Decimal.Layout.dump.write x)

def option {α : Type} (f : α → Dump) : Option α → Dump
  | some a => .tuple "Some" [f a]
  | none => .word "None"

mutual

def inline : Dump → String
  | .word text => text
  | .tuple name items => name ++ "(" ++ inlineItems items ++ ")"
  | .record name fields => name ++ " \x7b " ++ inlineFields fields ++ " \x7d"
  | .list items => "[" ++ inlineItems items ++ "]"

def inlineItems : List Dump → String
  | [] => ""
  | [d] => d.inline
  | d :: ds => d.inline ++ ", " ++ inlineItems ds

def inlineFields : List (String × Dump) → String
  | [] => ""
  | [(name, d)] => name ++ ": " ++ d.inline
  | (name, d) :: ds => name ++ ": " ++ d.inline ++ ", " ++ inlineFields ds

end

def indentation (level : Nat) : String := "".pushn ' ' (4 * level)

mutual

def indented (level : Nat) : Dump → String
  | .word text => text
  | .tuple name items => name ++ "(\n" ++ indentedItems (level + 1) items ++ indentation level ++ ")"
  | .record name fields =>
    name ++ " \x7b\n" ++ indentedFields (level + 1) fields ++ indentation level ++ "\x7d"
  | .list [] => "[]"
  | .list items => "[\n" ++ indentedItems (level + 1) items ++ indentation level ++ "]"

def indentedItems (level : Nat) : List Dump → String
  | [] => ""
  | d :: ds => indentation level ++ d.indented level ++ ",\n" ++ indentedItems level ds

def indentedFields (level : Nat) : List (String × Dump) → String
  | [] => ""
  | (name, d) :: ds =>
    indentation level ++ name ++ ": " ++ d.indented level ++ ",\n" ++ indentedFields level ds

end

end Dump

end Stackable
