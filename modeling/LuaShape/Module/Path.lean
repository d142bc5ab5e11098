/-!
# File paths

Paths are text with `/` between their parts.  Comparing and naming work on the
parts: repeated slashes do not count, and `.` counts only as the very first
part.  Joining works on the text, so that a path is shown as it was put
together.
-/

namespace LuaShape

/-- A part of a path. -/
inductive Path.Part where
  /-- The `/` that starts an absolute path. -/
  | root
  /-- A leading `.`. -/
  | here
  /-- `..` -/
  | parent
  | name (text : String)
deriving DecidableEq, Repr

namespace Path

/-- How a part is written. -/
def Part.text : Part → String
  | root => "/"
  | here => "."
  | parent => ".."
  | name text => text

/-- Cut a text at every separator. -/
def splitAt (separator : Char) : List Char → List (List Char)
  | [] => [[]]
  | c :: rest =>
    if c = separator then [] :: splitAt separator rest
    else
      match splitAt separator rest with
      | [] => [[c]]
      | word :: words => (c :: word) :: words

/-- What a stretch between slashes means anywhere but at the start. -/
def partOf? (word : List Char) : Option Part :=
  if word = [] || word = ['.'] then none
  else if word = ['.', '.'] then some .parent
  else some (.name (String.ofList word))

/-- The parts of a path. -/
def parts (path : String) : List Part :=
  match path.toList with
  | [] => []
  | '/' :: rest => .root :: (splitAt '/' rest).filterMap partOf?
  | cs =>
    match splitAt '/' cs with
    | ['.'] :: words => .here :: words.filterMap partOf?
    | words => words.filterMap partOf?

/-- Put a path behind a directory; an absolute path stands alone. -/
def join (directory path : String) : String :=
  match path.toList with
  | '/' :: _ => path
  | _ =>
    match directory.toList.getLast? with
    | none => path
    | some '/' => directory ++ path
    | some _ => directory ++ "/" ++ path

/-- The parts behind a common beginning, if the path has that beginning. -/
def partsBelow? : List Part → List Part → Option (List Part)
  | [], path => some path
  | p :: rest, q :: path => if p = q then partsBelow? rest path else none
  | _ :: _, [] => none

/-- A file name before and behind its last point.  A point at the very start is
part of the name. -/
def splitExtension? (name : String) : Option (String × String) :=
  let backwards := name.toList.reverse
  let extension := (backwards.takeWhile (· ≠ '.')).reverse
  match backwards.drop extension.length with
  | '.' :: stem =>
    if stem.isEmpty then none
    else some (String.ofList stem.reverse, String.ofList extension)
  | _ => none

/-- A file name without its extension.  `..` is left of a name that would
otherwise turn into the present directory. -/
def dropExtension (name : String) : String :=
  match splitExtension? name with
  | some (stem, _) => if stem = "." then ".." else stem
  | none => name

/-- The parts of a path with the extension of a file name at its end dropped. -/
def dropLastExtension : List Part → List Part
  | [] => []
  | [.name text] => [.name (dropExtension text)]
  | p :: rest => p :: dropLastExtension rest

/-- The name of the module in a file: its path below the root, without extension.
Nothing for the root itself and for paths outside it. -/
def moduleName? (root path : String) : Option String := do
  let below ← partsBelow? (parts root) (parts path)
  match dropLastExtension below with
  | [] => none
  | named => some (String.intercalate "/" (named.map Part.text))

end Path

end LuaShape
