import LuaShape.Module.Path

/-!
# Files and directories

A `FileTree` is a directory with all that is in it.  A path starts at the top of the
tree if it begins with a slash, and otherwise at a directory that is given by its
own path.  Paths are followed word by word: each word is looked up in a directory,
`.` and an empty word stay where they are, and `..` goes up, but not above the top.
-/

namespace LuaShape

/-- Why a file cannot be read or written. -/
inductive AccessError where
  | notFound
  | notDirectory
  | isDirectory
  | nameTooLong
  /-- The content of a file is not UTF-8. -/
  | notText
  | other (message : String)
deriving DecidableEq, Repr, Inhabited

/-- The wording of an access error. -/
def AccessError.message : AccessError → String
  | notFound => "No such file or directory (os error 2)"
  | notDirectory => "Not a directory (os error 20)"
  | isDirectory => "Is a directory (os error 21)"
  | nameTooLong => "File name too long (os error 36)"
  | notText => "stream did not contain valid UTF-8"
  | other message => message

/-- A file or a directory. -/
inductive FileTree where
  | file (content : ByteArray)
  /-- A file whose content cannot be had. -/
  | unreadable (reason : AccessError)
  | directory (entries : List (String × FileTree))

instance : Inhabited FileTree := ⟨.directory []⟩

namespace FileTree

/-- The text that bytes stand for. -/
def textOf (content : ByteArray) : Except AccessError String :=
  match String.fromUTF8? content with
  | some text => .ok text
  | none => .error .notText

/-- The bytes that a file name has at most. -/
def nameLimit : Nat := 255

/-- The bytes that a path has at most. -/
def pathLimit : Nat := 4095

/-- The entry of a name, if there is one. -/
def entry? (entries : List (String × FileTree)) (name : String) :
    Except AccessError (Option FileTree) :=
  if name.utf8ByteSize > nameLimit then .error .nameTooLong
  else .ok ((entries.find? fun e => e.1 = name).map Prod.snd)

/-- Follow words from a node; `above` holds the directories around it. -/
def follow (above : List FileTree) (node : FileTree) : List String → Except AccessError FileTree
  | [] => .ok node
  | word :: rest =>
    match node with
    | .directory entries =>
      if word = "" || word = "." then follow above node rest
      else if word = ".." then
        match above with
        | outer :: above => follow above outer rest
        | [] => follow [] node rest
      else
        match entry? entries word with
        | .ok (some child) => follow (node :: above) child rest
        | .ok none => .error .notFound
        | .error e => .error e
    | _ => .error .notDirectory

/-- The words of a path from the top of the tree, for a path that starts there or at
the directory `here`. -/
def wordsOf (here path : String) : Except AccessError (List String) :=
  if path.isEmpty then .error .notFound
  else if path.utf8ByteSize > pathLimit then .error .nameTooLong
  else .ok ((Path.splitAt '/' (Path.join here path).toList).map String.ofList)

/-- What is at a path. -/
def find (t : FileTree) (here path : String) : Except AccessError FileTree := do
  follow [] t (← wordsOf here path)

/-- The content of the file at a path. -/
def read (t : FileTree) (here path : String) : Except AccessError ByteArray := do
  match ← t.find here path with
  | .file content => .ok content
  | .unreadable reason => .error reason
  | .directory _ => .error .isDirectory

/-- The directory at a path. -/
def directory? (t : FileTree) (here path : String) : Option FileTree :=
  match t.find here path with
  | .ok (.directory entries) => some (.directory entries)
  | _ => none

/-- Change the entry of a name, adding it where there is none. -/
def setEntry (name : String) (f : Option FileTree → FileTree) :
    List (String × FileTree) → List (String × FileTree)
  | [] => [(name, f none)]
  | (key, node) :: rest =>
    if key = name then (key, f (some node)) :: rest else (key, node) :: setEntry name f rest

/-- Change what is below some names, making directories on the way. -/
def update (f : Option FileTree → FileTree) : List String → Option FileTree → FileTree
  | [], node => f node
  | name :: rest, some (.directory entries) => .directory (setEntry name (update f rest) entries)
  | name :: rest, _ => .directory [(name, update f rest none)]

/-- The names that words lead through, where each `..` undoes a name. -/
def namesOf (words : List String) : List String :=
  (words.foldl
    (fun names word =>
      if word = "" || word = "." then names
      else if word = ".." then names.tail
      else word :: names) []).reverse

/-- Put a file at a path from the top, making directories on the way. -/
def addFile (t : FileTree) (path : String) (content : ByteArray) : FileTree :=
  update (fun _ => .file content) (namesOf ((Path.splitAt '/' path.toList).map String.ofList)) (some t)

/-- Make a directory at a path from the top, and those around it. -/
def addDirectory (t : FileTree) (path : String) : FileTree :=
  update (fun old => old.getD (.directory []))
    (namesOf ((Path.splitAt '/' path.toList).map String.ofList)) (some t)

/-- Write a file under a name into a directory with the given entries; `words` are
those of the whole path.  A directory is not overwritten, and a path that ends in a
slash names a directory, whether there is one or not. -/
def writeEntry (t : FileTree) (words : List String) (entries : List (String × FileTree))
    (name : String) (content : ByteArray) : Except AccessError FileTree := do
  if words.getLast? = some "" || name = "." || name = ".." then .error .isDirectory
  else
    match ← entry? entries name with
    | some (.directory _) => .error .isDirectory
    | _ => .ok (update (fun _ => .file content) (namesOf words) (some t))

/-- Write a file.  Its directory has to be there. -/
def write (t : FileTree) (here path : String) (content : ByteArray) :
    Except AccessError FileTree := do
  let words ← wordsOf here path
  match words.reverse.dropWhile (· = "") with
  | [] => .error .isDirectory
  | name :: outer =>
    match ← follow [] t outer.reverse with
    | .directory entries => writeEntry t words entries name content
    | _ => .error .notDirectory

/-- Put an entry before the first one whose name does not come before its own. -/
def insertByName {α : Type} (e : String × α) : List (String × α) → List (String × α)
  | [] => [e]
  | f :: rest => if f.1 < e.1 then f :: insertByName e rest else e :: f :: rest

/-- Entries sorted by name. -/
def sortByName {α : Type} (entries : List (String × α)) : List (String × α) :=
  entries.foldr insertByName []

mutual

/-- The files below a node whose path is given, with their contents.  Names are
sorted in each directory, and a directory is entered where its name stands.  A path
that is too long shows neither a content nor what is below it. -/
def filesBelow (path : String) : FileTree → List (String × Except AccessError ByteArray)
  | .file content =>
    [(path, if path.utf8ByteSize > pathLimit then .error .nameTooLong else .ok content)]
  | .unreadable reason => [(path, .error reason)]
  | .directory entries =>
    if path.utf8ByteSize > pathLimit then []
    else (sortByName (filesOfEntries path entries)).flatMap Prod.snd

/-- The files below each of some entries of a directory. -/
def filesOfEntries (path : String) :
    List (String × FileTree) → List (String × List (String × Except AccessError ByteArray))
  | [] => []
  | (name, node) :: rest =>
    (name, filesBelow (Path.join path name) node) :: filesOfEntries path rest

end

end FileTree

/-- Access to files in a monad. -/
structure FileSystem (m : Type → Type) where
  /-- The directory at a path, with what is in it. -/
  directory? : String → m (Option FileTree)
  read : String → m (Except AccessError ByteArray)
  write : String → ByteArray → m (Except AccessError Unit)

namespace FileSystem

/-- Access to a file tree that is kept as a state, with relative paths starting at
the directory `here`. -/
def ofTree (here : String) : FileSystem (StateM FileTree) where
  directory? path := do
    let t ← get
    pure (t.directory? here path)
  read path := do
    let t ← get
    pure (t.read here path)
  write path content := do
    let t ← get
    match t.write here path content with
    | .ok t => do
        set t
        pure (.ok ())
    | .error e => pure (.error e)

end FileSystem

end LuaShape
