/-!
# Files

The files that a program can see from its working directory
(`FileStore`), and the surroundings of a parse as a whole (`World`).
Nothing is known about what lies outside the working directory, except
that there are directories: a path can leave it, and goes nowhere from
there. `FileStore.resolve` follows a path component by component.
-/

namespace CommandLine

/-- The working directory with all that is below it. -/
structure FileStore where
  /-- The directories below the working directory, by the names that lead to them. -/
  directories : List (List String) := []
  /-- The files, by the names that lead to them. -/
  files : List (List String × ByteArray) := []

/-- Where a path can lead. -/
inductive Place where
  /-- Into some directory that is not below the working directory. -/
  | outside
  /-- To the working directory or an entry below it. -/
  | inside (path : List String)
  deriving DecidableEq, Repr

namespace Place

/-- The place one component further, where every directory on the way is there.
An empty component stays in the directory. -/
def next (place : Place) (component : String) : Place :=
  match place with
  | .outside => .outside
  | .inside path =>
    if component == "" || component == "." then .inside path
    else if component == ".." then (if path.isEmpty then .outside else .inside path.dropLast)
    else .inside (path ++ [component])

/-- The names that lead to the place from the working directory. -/
def names? : Place → Option (List String)
  | .outside => none
  | .inside path => some path

end Place

namespace FileStore

/-- The components of a path. -/
def components (path : String) : List String :=
  (path.toList.splitOn '/').map String.ofList

/-- The place where a path starts, and the components that lead on from there. -/
def route (path : String) : Place × List String :=
  match components path with
  | "" :: c :: rest => (.outside, c :: rest)
  | found => (.inside [], found)

/-- A path that can be followed has fewer bytes than this. -/
def pathLimit : Nat := 4096

/-- Whether the names lead to a directory; no name at all leads to the working directory. -/
def isDirectoryAt (store : FileStore) (path : List String) : Bool :=
  path.isEmpty || store.directories.contains path

/-- The content of the file that the names lead to. -/
def contentAt? (store : FileStore) (path : List String) : Option ByteArray :=
  (store.files.find? (·.1 == path)).map (·.2)

/-- The place one component further. Only directories can be entered. -/
def enter (store : FileStore) (place : Place) (component : String) : Option Place :=
  match place with
  | .outside =>
    if component == "" || component == "." || component == ".." then some .outside else none
  | .inside path =>
    if !store.isDirectoryAt path then none
    else match place.next component with
      | .outside => some .outside
      | .inside next =>
        if store.isDirectoryAt next || (store.contentAt? next).isSome then some (.inside next)
        else none

/-- The place that a path leads to, if it leads anywhere. -/
def resolve (store : FileStore) (path : String) : Option Place :=
  if path.isEmpty || pathLimit ≤ path.utf8ByteSize then none
  else
    let (start, steps) := route path
    steps.foldlM store.enter start

/-- Whether the path leads to a file or a directory. -/
def exists? (store : FileStore) (path : String) : Bool := (store.resolve path).isSome

/-- Whether the path leads to a directory. -/
def isDirectory (store : FileStore) (path : String) : Bool :=
  match store.resolve path with
  | some .outside => true
  | some (.inside place) => store.isDirectoryAt place
  | none => false

/-- The text of the file that the path leads to. A file that is not UTF-8 has none. -/
def readText? (store : FileStore) (path : String) : Option String :=
  match store.resolve path with
  | some (.inside place) =>
    if store.isDirectoryAt place then none
    else (store.contentAt? place).bind String.fromUTF8?
  | _ => none

/-- The files with the directory at the path, and with every other one that
the path leads through. -/
def addDirectory (store : FileStore) (path : String) : FileStore :=
  let (start, steps) := route path
  let places := (List.range steps.length).map fun n => (steps.take (n + 1)).foldl Place.next start
  { store with directories := store.directories ++ places.filterMap Place.names? }

/-- The files with this content at the path, in place of what was there. -/
def writeFile (store : FileStore) (path : String) (content : ByteArray) : FileStore :=
  let (start, steps) := route path
  match (steps.foldl Place.next start).names? with
  | some names => { store with files := (names, content) :: store.files.filter (·.1 != names) }
  | none => store

end FileStore

/-- What a parse can look at besides its tokens. -/
structure World where
  files : FileStore := {}
  /-- The environment variables that are set. -/
  environment : List (String × String) := []

/-- The value of an environment variable. A variable is found by what its
entry `NAME=value` starts with, and so a name may reach past the first equals
sign: with `A=b=c` set, the value of `A` is `b=c` and that of `A=b` is `c`. -/
def World.variable? (world : World) (name : String) : Option String :=
  world.environment.findSome? fun (set, value) =>
    ((name.toList ++ ['=']).isPrefixOf? (set.toList ++ '=' :: value.toList)).map String.ofList

end CommandLine
