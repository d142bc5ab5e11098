import LuaShape.Command.Run

/-!
# The program

Runs a command on the files of the machine.
-/

namespace LuaShape

namespace Disk

/-- Whether an error has a number, which comes with either sign. -/
def hasNumber (code number : UInt32) : Bool := code = number || code = 0 - number

/-- Why the machine refused access to a file. -/
def accessError (e : IO.Error) : AccessError :=
  match e with
  | .noFileOrDirectory .. => .notFound
  | .inappropriateType _ code _ =>
    if hasNumber code 20 then .notDirectory
    else if hasNumber code 21 then .isDirectory
    else .other (toString e)
  | .invalidArgument _ code _ =>
    if hasNumber code 36 then .nameTooLong else .other (toString e)
  | e => .other (toString e)

/-- Do something that may be refused. -/
def attempt {α : Type} (action : IO α) : IO (Except AccessError α) := do
  try
    pure (.ok (← action))
  catch e =>
    pure (.error (accessError e))

/-- The content of a file. -/
def read (path : String) : IO (Except AccessError ByteArray) := attempt (IO.FS.readBinFile path)

/-- Write a file. -/
def write (path : String) (content : ByteArray) : IO (Except AccessError Unit) :=
  attempt (IO.FS.writeBinFile path content)

/-- What is in a directory, links aside. -/
partial def contents (path : String) : IO (List (String × FileTree)) := do
  let place ← IO.FS.realPath path
  let mut found := []
  for entry in ← place.readDir do
    let child := Path.join path entry.fileName
    match (← entry.path.symlinkMetadata).type with
    | .dir => found := (entry.fileName, .directory (← contents child)) :: found
    | .file =>
      match ← read child with
      | .ok content => found := (entry.fileName, .file content) :: found
      | .error e => found := (entry.fileName, .unreadable e) :: found
    | _ => pure ()
  pure found

/-- The directory at a path. -/
def directory? (path : String) : IO (Option FileTree) := do
  if path.isEmpty then return none
  match ← attempt (contents path) with
  | .ok entries => pure (some (.directory entries))
  | .error _ => pure none

/-- Access to the files of the machine. -/
def files : FileSystem IO where
  directory? := directory?
  read := read
  write := write

end Disk

end LuaShape

/-- Run the command that the arguments ask for. -/
def main (args : List String) : IO UInt32 := do
  let outcome ← LuaShape.Command.run LuaShape.Disk.files args
  for line in outcome.stderr do
    IO.eprintln line
  IO.print outcome.stdout
  pure outcome.exitCode.toUInt32
