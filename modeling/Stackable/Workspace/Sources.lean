import Stackable.Workspace.Config

/-!
# Source files

The source files that paths lead to: files that are named, and what has the name of one below
directories that are named, as far as the configuration does not exclude it.
-/

set_option autoImplicit false

namespace Stackable

inductive CollectError where
  | notFound (path : String)
  | locked (path reason : String)
deriving Repr, DecidableEq

def CollectError.message : CollectError → String
  | .notFound path => "no such file or directory: " ++ path
  | .locked path reason => "failed to read directory " ++ path ++ ": " ++ reason

namespace Sources

/-- What is no directory counts by its name alone. -/
def byName (path name : String) : List String := if Path.isSourceName name then [path] else []

mutual

/-- What is taken at and below a node that stands at a path under a name. What has too long a path
is not seen to be a directory. -/
def below (c : Config) (path name : String) : FileNode → Except CollectError (List String)
  | .directory entries =>
    if Path.isTooLong path then .ok (byName path name) else belowEntries c path entries
  | .locked reason =>
    if Path.isTooLong path then .ok (byName path name) else .error (.locked path reason)
  | .file _ | .unreadable _ | .special _ | .broken _ => .ok (byName path name)

def belowEntries (c : Config) (path : String) :
    List (String × FileNode) → Except CollectError (List String)
  | [] => .ok []
  | (name, node) :: rest =>
    if c.isExcluded (Path.join path name) then belowEntries c path rest
    else do
      let first ← below c (Path.join path name) name node
      return first ++ (← belowEntries c path rest)

end

/-- What one path of the command line stands for. A file that is named is taken as it is. -/
def named (w : Workspace) (c : Config) (path : String) : Except CollectError (List String) :=
  match w.find path with
  | .ok (.file _) | .ok (.unreadable _) => .ok [path]
  | .ok (.directory entries) => belowEntries c path entries
  | .ok (.locked reason) => .error (.locked path reason)
  | .ok (.special _) | .ok (.broken _) | .error _ => .error (.notFound path)

def arrange (paths : List String) : List String := (paths.mergeSort Path.le).eraseRepsBy Path.same

def collect (w : Workspace) (c : Config) (paths : List String) : Except CollectError (List String) := do
  return arrange (← paths.mapM (named w c)).flatten

end Sources

end Stackable
