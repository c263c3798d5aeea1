/-!
# Paths

A path is a text with slashes. Two paths are the same, and one comes before another, by their
components: repeated slashes, a slash at the end and `.` inside a path do not count.
-/

set_option autoImplicit false

namespace Stackable.Path

def maxSize : Nat := 4095

def maxNameSize : Nat := 255

def isTooLong (path : String) : Bool := decide (maxSize < path.utf8ByteSize)

/-- In the order in which components are sorted. -/
inductive Component where
  /-- A slash at the start. -/
  | root
  /-- `.` at the start. -/
  | here
  | up
  | name (text : String)
deriving Repr, DecidableEq, Ord

def Component.text : Component → String
  | .root => "/"
  | .here => "."
  | .up => ".."
  | .name text => text

def segments (path : String) : List String := (path.toList.splitOn '/').map String.ofList

def isAbsolute (path : String) : Bool := path.toList.head? == some '/'

def component? (segment : String) : Option Component :=
  if segment = "" ∨ segment = "." then none
  else if segment = ".." then some .up
  else some (.name segment)

def components (path : String) : List Component :=
  let inner := (segments path).filterMap component?
  if isAbsolute path then .root :: inner
  else if (segments path).head? = some "." then .here :: inner
  else inner

/-- By components, the first difference decides. -/
def compareComponents : List Component → List Component → Ordering
  | [], [] => .eq
  | [], _ :: _ => .lt
  | _ :: _, [] => .gt
  | a :: as, b :: bs => (compare a b).then (compareComponents as bs)

def le (a b : String) : Bool := (compareComponents (components a) (components b)).isLE

def same (a b : String) : Bool := components a == components b

def join (directory name : String) : String :=
  if directory.isEmpty || directory.toList.getLast? == some '/' then directory ++ name
  else directory ++ "/" ++ name

/-- The name of a source file: something, and `.cs` behind it. -/
def isSourceName (name : String) : Bool :=
  match name.toList.reverse with
  | 's' :: 'c' :: '.' :: _ :: _ => true
  | _ => false

end Stackable.Path
