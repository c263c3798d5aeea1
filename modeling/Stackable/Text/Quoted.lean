import Stackable.Text.Shapeless

/-!
# Quoted text

Text between quotes on one line: the quote, the backslash and the usual controls are written with
a backslash, and characters without a shape by their number.
-/

set_option autoImplicit false

namespace Stackable.Text.Quoted

def hex (n : Nat) : String := String.ofList (Nat.toDigits 16 n)

def escape (quote c : Char) : String :=
  match c with
  | '\x00' => "\\0"
  | '\t' => "\\t"
  | '\r' => "\\r"
  | '\n' => "\\n"
  | '\\' => "\\\\"
  | _ =>
    if c = quote then "\\" ++ String.singleton c
    else if Shapeless.isMember c.toNat then "\\u\x7b" ++ hex c.toNat ++ "\x7d"
    else String.singleton c

def string (s : String) : String := "\"" ++ String.join (s.toList.map (escape '"')) ++ "\""

def char (c : Char) : String := "'" ++ escape '\'' c ++ "'"

end Stackable.Text.Quoted
