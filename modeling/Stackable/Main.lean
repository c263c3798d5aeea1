import Stackable.Command.Run
import Stackable.CommandLine.Parse

/-!
# The program

Reads from the disk what the command line asks for, and writes what the command says.
-/

set_option autoImplicit false

namespace Stackable.Main

def usage : String :=
  "Find small, non-escaping C# arrays that could use stackalloc\n\n" ++
  "Usage: stackable [-v] [--debug] [--config FILE] <check|explain|lex|parse> ...\n"

def accessError : IO.Error → AccessError
  | .noFileOrDirectory .. => .notFound
  | e => .other (toString e)

def read (path : String) : IO (Except AccessError ByteArray) := do
  try return .ok (← IO.FS.readBinFile path)
  catch e => return .error (accessError e)

/-- The node at a path. Below a directory only what has the name of a source file is read. -/
partial def load (path : String) : IO FileNode := do
  let real ← IO.FS.realPath path
  match (← real.metadata).type with
  | .dir =>
    try
      let entries ← (← real.readDir).toList.mapM fun entry => do
        if (← entry.path.isDir) || Path.isSourceName entry.fileName then
          try return (entry.fileName, ← load (Path.join path entry.fileName))
          catch e => return (entry.fileName, .broken (accessError e))
        else return (entry.fileName, .file .empty)
      return .directory entries
    catch e => return .locked (toString e)
  | .file =>
    match ← read path with
    | .ok content => return .file content
    | .error cause => return .unreadable cause.message
  | _ => return .special (← read path)

def find (path : String) : IO (String × Except AccessError FileNode) := do
  match AccessError.ofPath? path with
  | some e => return (path, .error e)
  | none =>
    try return (path, .ok (← load path))
    catch e => return (path, .error (accessError e))

def workspace (i : Invocation) : IO Workspace := do
  let directory := (Path.segments (toString (← IO.currentDir))).filter (· != "")
  let configPaths := Workspace.configPathsUp directory
  let nodes ← (i.config.toList ++ configPaths ++ i.command.paths).mapM find
  return ⟨fun path => (nodes.lookup path).getD (.error .notFound), configPaths⟩

def showsColor : IO Bool := do
  if (← IO.getEnv "NO_COLOR").isSome then return false
  if (← IO.getEnv "FORCE_COLOR").isSome then return true
  (← IO.getStdout).isTty

def run (args : List String) : IO UInt32 := do
  match CommandLine.parse ("stackable" :: args) with
  | .error .help | .error .version =>
    IO.print usage
    return 0
  | .error _ =>
    IO.eprint usage
    return 2
  | .ok i =>
    let outcome := i.run (← workspace i)
    let color ← showsColor
    IO.print (Styled.renderAll color outcome.output)
    IO.eprint (Styled.renderAll color outcome.errors)
    return outcome.exitCode.toUInt32

end Stackable.Main

def main (args : List String) : IO UInt32 := Stackable.Main.run args
