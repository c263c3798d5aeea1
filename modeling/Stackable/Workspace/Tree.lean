import Stackable.Workspace.Path

/-!
# Directories and files

A workspace says what a path leads to, and where configuration is looked for. It is taken from a
tree of directories and a working directory in it.
-/

set_option autoImplicit false

namespace Stackable

inductive AccessError where
  | notFound
  | notDirectory
  | isDirectory
  /-- A name that no directory can hold, or a path that cannot be looked up. -/
  | nameTooLong
  | zeroCharacter
  | notText
  | other (reason : String)
deriving Repr, DecidableEq

def AccessError.message : AccessError → String
  | .notFound => "No such file or directory (os error 2)"
  | .notDirectory => "Not a directory (os error 20)"
  | .isDirectory => "Is a directory (os error 21)"
  | .nameTooLong => "File name too long (os error 36)"
  | .zeroCharacter => "file name contained an unexpected NUL byte"
  | .notText => "stream did not contain valid UTF-8"
  | .other reason => reason

def AccessError.ofPath? (path : String) : Option AccessError :=
  if path.toList.contains '\x00' then some .zeroCharacter
  else if path.isEmpty then some .notFound
  else if Path.isTooLong path then some .nameTooLong
  else none

/-- What an entry of a directory leads to, links followed. -/
inductive FileNode where
  | file (content : ByteArray)
  /-- The names of the entries differ; their order means nothing. -/
  | directory (entries : List (String × FileNode))
  /-- A directory whose entries cannot be listed. -/
  | locked (reason : String)
  | unreadable (reason : String)
  /-- A pipe, a socket or a device, with what reading it gives. -/
  | special (reading : Except AccessError ByteArray)
  /-- Listed, but it cannot be looked up, as a link whose target is gone. -/
  | broken (cause : AccessError)

namespace FileNode

def isFile : FileNode → Bool
  | .file _ | .unreadable _ => true
  | _ => false

def decode (content : ByteArray) : Except AccessError (List Char) :=
  match String.fromUTF8? content with
  | some text => .ok text.toList
  | none => .error .notText

def text : FileNode → Except AccessError (List Char)
  | .file content => decode content
  | .directory _ | .locked _ => .error .isDirectory
  | .unreadable reason => .error (.other reason)
  | .special reading => reading.bind decode
  | .broken cause => .error cause

def replaceEntry (name : String) (node : FileNode) (entries : List (String × FileNode)) :
    List (String × FileNode) :=
  if (entries.lookup name).isSome then
    entries.map fun e => if e.1 == name then (name, node) else e
  else entries ++ [(name, node)]

def insert (leaf : FileNode) : List String → FileNode → FileNode
  | [], node =>
    match node, leaf with
    | .directory entries, .directory [] => .directory entries
    | _, _ => leaf
  | name :: path, node =>
    let entries := match node with
      | .directory entries => entries
      | _ => []
    .directory (replaceEntry name (insert leaf path ((entries.lookup name).getD (.directory []))) entries)

/-- One step from a node, which comes first, below the directories behind it. A directory has to
be there to step from; the top is above itself. -/
def step (stack : List FileNode) (segment : String) : Except AccessError (List FileNode) :=
  match stack with
  | .directory entries :: above =>
    if segment = "" ∨ segment = "." then .ok stack
    else if segment = ".." then .ok (if above.isEmpty then stack else above)
    else if Path.maxNameSize < segment.utf8ByteSize then .error .nameTooLong
    else
      match entries.lookup segment with
      | some (.broken cause) => .error cause
      | some node => .ok (node :: stack)
      | none => .error .notFound
  | .locked reason :: _ => .error (.other reason)
  | _ => .error .notDirectory

def find (top : FileNode) (directory : List String) (path : String) : Except AccessError FileNode := do
  if let some e := AccessError.ofPath? path then throw e
  let start ← if Path.isAbsolute path then pure [top] else directory.foldlM step [top]
  let stack ← (Path.segments path).foldlM step start
  match stack with
  | node :: _ => pure node
  | [] => throw .notFound

end FileNode

structure Workspace where
  find : String → Except AccessError FileNode
  configPaths : List String

namespace Workspace

def configName : String := "stacklint.toml"

def directoriesUp (directory : List String) : List (List String) :=
  (List.range (directory.length + 1)).reverse.map directory.take

/-- Where a configuration may stand for a working directory, given by the names that lead to it. -/
def configPathsUp (directory : List String) : List String :=
  (directoriesUp directory).map fun names =>
    String.join (names.map ("/" ++ ·)) ++ "/" ++ configName

def ofTree (top : FileNode) (directory : List String) : Workspace where
  find := top.find directory
  configPaths := configPathsUp directory

def isFile (w : Workspace) (path : String) : Bool :=
  match w.find path with
  | .ok node => node.isFile
  | .error _ => false

def text (w : Workspace) (path : String) : Except AccessError (List Char) := do (← w.find path).text

def nearestConfig? (w : Workspace) : Option String := w.configPaths.find? w.isFile

end Workspace

end Stackable
