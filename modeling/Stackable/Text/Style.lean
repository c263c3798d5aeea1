/-!
# Styled text

Text for a terminal, in pieces that carry their style. Whether the styles show is decided when
the text is rendered.
-/

set_option autoImplicit false

namespace Stackable

inductive Color where
  | red | green | yellow | blue | cyan
deriving Repr, DecidableEq

def Color.code : Color → String
  | .red => "31"
  | .green => "32"
  | .yellow => "33"
  | .blue => "34"
  | .cyan => "36"

structure Style where
  bold : Bool := false
  dimmed : Bool := false
  underlined : Bool := false
  color : Option Color := none
deriving Repr, DecidableEq

namespace Style

def codes (s : Style) : List String :=
  (if s.bold then ["1"] else []) ++ (if s.dimmed then ["2"] else []) ++
    (if s.underlined then ["4"] else []) ++ (s.color.map Color.code).toList

def opening (s : Style) : String := "\x1b[" ++ String.intercalate ";" s.codes ++ "m"

def closing : String := "\x1b[0m"

/-- Takes up the style again behind whatever ends it inside a text. -/
def reopened (opening : List Char) : List Char → List Char
  | '\x1b' :: '[' :: '0' :: 'm' :: cs => '\x1b' :: '[' :: '0' :: 'm' :: opening ++ reopened opening cs
  | c :: cs => c :: reopened opening cs
  | [] => []

end Style

structure Styled where
  style : Style
  text : String
deriving Repr, DecidableEq

namespace Styled

def plain (text : String) : Styled := ⟨{}, text⟩
def bold (text : String) : Styled := ⟨{ bold := true }, text⟩
def dimmed (text : String) : Styled := ⟨{ dimmed := true }, text⟩
def underlined (text : String) : Styled := ⟨{ underlined := true }, text⟩
def colored (color : Color) (text : String) : Styled := ⟨{ color := some color }, text⟩
def boldColored (color : Color) (text : String) : Styled := ⟨{ bold := true, color := some color }, text⟩

/-- A styled text is written between its style's sequence and a reset, even if it is empty. -/
def render (color : Bool) (s : Styled) : String :=
  if color && !s.style.codes.isEmpty then
    s.style.opening ++ String.ofList (Style.reopened s.style.opening.toList s.text.toList) ++
      Style.closing
  else s.text

def renderAll (color : Bool) (pieces : List Styled) : String := String.join (pieces.map (render color))

end Styled

end Stackable
