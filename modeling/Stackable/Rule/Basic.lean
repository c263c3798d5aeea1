/-!
# Rules

What a rule is called and what it says, and which rules the options let run. A pattern is the
name of a rule, or a category and a star.
-/

set_option autoImplicit false

namespace Stackable

inductive Severity where
  | error
  | warning
  | note
deriving Repr, DecidableEq

def Severity.text : Severity → String
  | .error => "error"
  | .warning => "warning"
  | .note => "note"

def Severity.ofText? : String → Option Severity
  | "error" => some .error
  | "warning" => some .warning
  | "note" => some .note
  | _ => none

structure Rule where
  id : String
  title : String
  category : String
  severity : Severity
  description : String
  fix : String
  sample : String
deriving Repr

def Rule.smallArrayOnStack : Rule where
  id := "perf/small-array-on-stack"
  title := "Small array can be allocated on the stack"
  category := "performance"
  severity := .warning
  description :=
    "An array of at most 1024 bytes whose size is known at compile time, created in a " ++
    "synchronous method outside any loop and never returned, passed to a call or constructor, " ++
    "or assigned elsewhere, can be allocated with `stackalloc` instead of on the heap."
  fix := "use `stackalloc` and a `Span<T>` (requires unsafe code to be allowed)"
  sample :=
    "byte[] buffer = new byte[16];   // before\n" ++
    "Span<byte> buffer = stackalloc byte[16];   // after"

def Rule.all : List Rule := [.smallArrayOnStack]

def Rule.find? (id : String) : Option Rule := all.find? (·.id == id)

def Rule.finding (allocation : String) : String :=
  "Array '" ++ allocation ++ "' can be allocated on the stack"

structure Options where
  allowUnsafe : Bool := false
  /-- If there are any, only rules that one of them matches run. -/
  select : List String := []
  exclude : List String := []
  severity : List (String × Severity) := []
deriving Repr, DecidableEq

/-- The text before a final `/*`. -/
def categoryOfPattern? (pattern : List Char) : Option (List Char) :=
  match pattern.reverse with
  | '*' :: '/' :: category => some category.reverse
  | _ => none

def matchesRule (id pattern : String) : Bool :=
  pattern == id || categoryOfPattern? pattern.toList == some (id.toList.takeWhile (· != '/'))

def isKnownPattern (pattern : String) : Bool := Rule.all.any fun r => matchesRule r.id pattern

def unknownPattern? (patterns : List String) : Option String := patterns.find? (!isKnownPattern ·)

namespace Options

/-- An exclusion wins over a selection. -/
def shouldRun (o : Options) (id : String) : Bool :=
  !o.exclude.any (matchesRule id) && (o.select.isEmpty || o.select.any (matchesRule id))

def severityFor (o : Options) (rule : Rule) : Severity := (o.severity.lookup rule.id).getD rule.severity

end Options

end Stackable
