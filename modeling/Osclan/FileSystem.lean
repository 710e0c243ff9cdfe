/-
  File:      Osclan/FileSystem.lean
  Subject:   A file system with directories and symbolic links, as a value.

  A file system maps places to what stands there; a place is the list of names that leads to it from
  the root. A written path is resolved name by name, as the system does it: a link met on the way
  is replaced by its target, and `..` goes up from where the links have led, not from where the
  text says. A path may go through forty links.

  * `IoError` -- why an operation fails;
  * `PathText` -- written paths: their names, joining, the stem of the last name;
  * `FileSystem.resolve` -- where a path leads;
  * the operations: reading, testing, listing, writing, removing, making directories.
-/
namespace Osclan

/-- Why a file operation fails. On the file systems below all causes but `other` arise, which is for
    a system with permissions, full disks and the like. -/
inductive IoError where
  | notFound | alreadyExists | notADirectory | isADirectory | nameTooLong | tooManyLinks
  | nulInPath | notUtf8
  | other (text : String)
  deriving DecidableEq, Repr

/-- The text the system has for the failure. -/
def IoError.message : IoError → String
  | .notFound => "No such file or directory (os error 2)"
  | .alreadyExists => "File exists (os error 17)"
  | .notADirectory => "Not a directory (os error 20)"
  | .isADirectory => "Is a directory (os error 21)"
  | .nameTooLong => "File name too long (os error 36)"
  | .tooManyLinks => "Too many levels of symbolic links (os error 40)"
  | .nulInPath => "file name contained an unexpected NUL byte"
  | .notUtf8 => "stream did not contain valid UTF-8"
  | .other text => text

/-! ## 1. Written paths -/

namespace PathText

/-- The pieces of a text between slashes. -/
def pieces : List Char → List (List Char)
  | [] => [[]]
  | c :: rest =>
    if c = '/' then [] :: pieces rest
    else match pieces rest with
      | piece :: others => (c :: piece) :: others
      | [] => [[c]]

/-- The names of a path. Empty names and `.` say nothing. -/
def names (path : String) : List String :=
  ((pieces path.toList).map String.ofList).filter fun name => name ≠ "" ∧ name ≠ "."

/-- The path begins at the root. -/
def isAbsolute (path : String) : Bool := path.toList.head? == some '/'

/-- The longest name, in bytes. -/
def longestName : Nat := 255

/-- The longest path, in bytes. -/
def longestPath : Nat := 4095

/-- Refuses what is no path on any file system. -/
def checkForm (path : String) : Except IoError Unit :=
  if path.toList.contains '\x00' then .error .nulInPath
  else if longestPath < path.utf8ByteSize then .error .nameTooLong
  else .ok ()

/-- The path is written as that of a directory. -/
def endsInSlash (path : String) : Bool := path.toList.getLast? == some '/'

/-- Is the last name as written, slashes after it apart, a `.`? -/
def endsInDot (path : String) : Bool :=
  ((pieces path.toList).filter (· ≠ [])).getLast? = some ['.']

/-- A name below a directory. -/
def join (dir name : String) : String :=
  if dir = "" ∨ dir.toList.getLast? = some '/' then dir ++ name else dir ++ "/" ++ name

/-- The part of a file name before its last dot; a name whose only dot comes first has no other
    part. -/
def stemOfName (name : String) : String :=
  let afterDot := name.toList.reverse.takeWhile (· ≠ '.')
  let beforeDot := (name.toList.reverse.drop (afterDot.length + 1)).reverse
  if beforeDot = [] then name else String.ofList beforeDot

/-- The stem of the last name of a path, unless the path ends by going up. -/
def stem? (path : String) : Option String :=
  match (names path).getLast? with
  | none => none
  | some name => if name = ".." then none else some (stemOfName name)

end PathText

/-! ## 2. Places -/

/-- The names that lead from the root to an entry. -/
abbrev Place := List String

/-- What stands at a place. -/
inductive Entry where
  | file (content : ByteArray)
  | dir
  | link (target : String)

/-- A file system, with the directory that relative paths start from. The root is a directory and
    is not listed. -/
structure FileSystem where
  entries : List (Place × Entry)
  workingDir : Place

namespace FileSystem

/-- What is at a place. The root is always a directory. -/
def entry? (fs : FileSystem) (p : Place) : Option Entry :=
  if p = [] then some .dir else fs.entries.lookup p

/-- The file system with another entry at a place. -/
def put (fs : FileSystem) (p : Place) (e : Entry) : FileSystem :=
  { fs with entries := fs.entries.filter (·.1 ≠ p) ++ [(p, e)] }

/-- The file system without the entry at a place. -/
def erase (fs : FileSystem) (p : Place) : FileSystem :=
  { fs with entries := fs.entries.filter (·.1 ≠ p) }

/-- The names that stand directly below a place. -/
def namesIn (fs : FileSystem) (dir : Place) : List String :=
  fs.entries.filterMap fun (p, _) =>
    match p.getLast? with
    | some name => if p.dropLast = dir then some name else none
    | none => none

/-! ## 3. Resolution -/

/-- What a path may lead to: anything, also a new name; a directory only; or nothing at all, if a
    name is left to look up. -/
inductive PathEnd where
  | free | directory | refused
  deriving DecidableEq, Repr

/-- The end that a written path asks for. A dot asks for a directory; a slash asks for `slash`. -/
def PathEnd.ofPath (slash : PathEnd) (path : String) : PathEnd :=
  if PathText.endsInDot path then .directory
  else if PathText.endsInSlash path then slash
  else .free

/-- Where names lead from a directory. The last name may be missing there; an earlier one may not,
    and it must be a directory or a link to one. `onLink` goes on from the directory of a link,
    with the path the link holds and the names left. -/
def follow (fs : FileSystem) (pathEnd : PathEnd)
    (onLink : Place → String → List String → Except IoError Place) :
    Place → List String → Except IoError Place
  | dir, [] => .ok dir
  | dir, name :: rest =>
    if name = ".." then
      follow fs pathEnd onLink dir.dropLast rest
    else if rest = [] ∧ pathEnd = .refused then
      .error .isADirectory
    else if PathText.longestName < name.utf8ByteSize then
      .error .nameTooLong
    else
      let isEnd := rest = [] ∧ pathEnd = .free
      match fs.entry? (dir ++ [name]) with
      | none => if isEnd then .ok (dir ++ [name]) else .error .notFound
      | some .dir => follow fs pathEnd onLink (dir ++ [name]) rest
      | some (.file _) => if isEnd then .ok (dir ++ [name]) else .error .notADirectory
      | some (.link target) => onLink dir target rest

/-- Where names lead from a directory, through at most `links` links. The path of a link at the end
    says in turn what it leads to; there, `slash` is what a slash asks for. -/
def walk (fs : FileSystem) (slash : PathEnd) :
    Nat → PathEnd → Place → List String → Except IoError Place
  | 0, pathEnd => follow fs pathEnd fun _ _ _ => .error .tooManyLinks
  | links + 1, pathEnd => follow fs pathEnd fun dir target rest =>
    let start := if PathText.isAbsolute target then [] else dir
    let pathEnd := if rest = [] ∧ pathEnd = .free then .ofPath slash target else pathEnd
    walk fs slash links pathEnd start (PathText.names target ++ rest)

/-- The number of links a path may go through. -/
def linkLimit : Nat := 40

/-- The directory a path starts from. -/
def startOf (fs : FileSystem) (path : String) : Place :=
  if PathText.isAbsolute path then [] else fs.workingDir

/-- The place a path leads to, whether or not something stands there; `slash` is what a slash at
    its end asks for. -/
def resolve (fs : FileSystem) (slash : PathEnd) (path : String) : Except IoError Place := do
  PathText.checkForm path
  if path = "" then .error .notFound
  else walk fs slash linkLimit (.ofPath slash path) (fs.startOf path) (PathText.names path)

/-- The directory that names lead to. -/
def walkToDir (fs : FileSystem) (start : Place) (names : List String) : Except IoError Place :=
  walk fs .directory linkLimit .directory start names

/-- The place a path leads to, where something has to stand. -/
def locate (fs : FileSystem) (path : String) : Except IoError (Place × Entry) := do
  let p ← fs.resolve .directory path
  match fs.entry? p with
  | some e => return (p, e)
  | none => .error .notFound

/-! ## 4. Reading and testing -/

/-- The text of a file. -/
def readText (fs : FileSystem) (path : String) : Except IoError String := do
  match ← fs.locate path with
  | (_, .file content) =>
    match String.fromUTF8? content with
    | some text => return text
    | none => .error .notUtf8
  | (_, _) => .error .isADirectory

/-- The path leads to something. -/
def pathExists (fs : FileSystem) (path : String) : Bool := (fs.locate path).isOk

/-- The path leads to a file. -/
def isFile (fs : FileSystem) (path : String) : Bool :=
  match fs.locate path with
  | .ok (_, .file _) => true
  | _ => false

/-- The place of what a path names, free of links. -/
def realPlace (fs : FileSystem) (path : String) : Except IoError Place := do
  return (← fs.locate path).1

/-- The names in a directory. -/
def list (fs : FileSystem) (path : String) : Except IoError (List String) := do
  match ← fs.locate path with
  | (p, .dir) => return fs.namesIn p
  | _ => .error .notADirectory

/-! ## 5. Changing -/

/-- Writes a file, made new or emptied first; a link at its end is followed. A path that ends in a
    slash names no file to write. -/
def writeBytes (fs : FileSystem) (path : String) (content : ByteArray) :
    Except IoError FileSystem := do
  let p ← fs.resolve .refused path
  match fs.entry? p with
  | some .dir => .error .isADirectory
  | _ => return fs.put p (.file content)

/-- Writes a file with the bytes of the text. -/
def writeText (fs : FileSystem) (path text : String) : Except IoError FileSystem :=
  fs.writeBytes path text.toUTF8

/-- The directory of a path's last name, and that name; a link at the end is not followed. -/
def lastName (fs : FileSystem) (start : Place) (names : List String) :
    Except IoError (Place × Option String) := do
  let dir ← fs.walkToDir start names.dropLast
  return (dir, names.getLast?)

/-- Removes a file or a link. -/
def removeFile (fs : FileSystem) (path : String) : Except IoError FileSystem := do
  match ← fs.lastName (fs.startOf path) (PathText.names path) with
  | (dir, some name) =>
    match fs.entry? (dir ++ [name]) with
    | none => .error .notFound
    | some .dir => .error .isADirectory
    | some _ => return fs.erase (dir ++ [name])
  | (_, none) => .error .isADirectory

/-- Puts a new entry at a path where nothing may stand yet, not even a link. -/
def putNew (fs : FileSystem) (start : Place) (names : List String) (e : Entry) :
    Except IoError FileSystem := do
  match ← fs.lastName start names with
  | (dir, some name) =>
    if name = ".." then .error .alreadyExists
    else if PathText.longestName < name.utf8ByteSize then .error .nameTooLong
    else match fs.entry? (dir ++ [name]) with
      | some _ => .error .alreadyExists
      | none => return fs.put (dir ++ [name]) e
  | (_, none) => .error .alreadyExists

/-- Makes a directory where nothing stands yet. A path that ends in `.` names what is in the
    directory before the dot, so there is nothing to make. -/
def makeDir (fs : FileSystem) (start : Place) (names : List String) (dotted : Bool) :
    Except IoError FileSystem := do
  if dotted then
    let _ ← fs.walkToDir start names
    .error .alreadyExists
  else
    fs.putNew start names .dir

/-- Makes a directory and those above it that are missing, given the names in reverse. What was
    made stays, also if the rest fails. -/
def makeDirs (fs : FileSystem) (start : Place) (dotted : Bool) :
    List String → Except IoError Unit × FileSystem
  | [] => (.ok (), fs)
  | name :: above =>
    let names := (name :: above).reverse
    let orDir (fs : FileSystem) (e : IoError) : Except IoError Unit × FileSystem :=
      match fs.walkToDir start names with
      | .ok _ => (.ok (), fs)
      | .error _ => (.error e, fs)
    match fs.makeDir start names dotted with
    | .ok fs => (.ok (), fs)
    | .error .notFound =>
      match makeDirs fs start false above with
      | (.error e, fs) => (.error e, fs)
      | (.ok (), fs) =>
        match fs.makeDir start names dotted with
        | .ok fs => (.ok (), fs)
        | .error e => orDir fs e
    | .error e => orDir fs e

/-- Makes the directory of a path and those above it that are missing. The empty path needs none. -/
def createDirs (fs : FileSystem) (path : String) : Except IoError Unit × FileSystem :=
  match PathText.checkForm path with
  | .error e => (.error e, fs)
  | .ok () =>
    makeDirs fs (fs.startOf path) (PathText.endsInDot path) (PathText.names path).reverse

/-- Makes a link. -/
def makeLink (fs : FileSystem) (path target : String) : Except IoError FileSystem :=
  fs.putNew (fs.startOf path) (PathText.names path) (.link target)

/-! ## 6. Overview -/

/-- The paths below a directory, with a slash after those of directories, sorted. Links are listed
    and not followed. -/
def overview (fs : FileSystem) (dir : Place) : List String :=
  let below := fs.entries.filterMap fun (p, e) =>
    if dir.length < p.length ∧ p.take dir.length = dir then
      let path := "/".intercalate (p.drop dir.length)
      match e with
      | .dir => some (path ++ "/")
      | _ => some path
    else
      none
  below.mergeSort fun a b => decide (a ≤ b)

end FileSystem

end Osclan
