import ParamLowering.Path
set_option autoImplicit false

/-!
A file system as a value: a tree of directories, files and links, with a current directory.

A place in the tree is a list of names from the top. Links are followed when a path is resolved,
up to a depth after which the path counts as missing.
-/

namespace ParamLowering

/-- What a name in a directory stands for. -/
inductive FileEntry where
  /-- A file with its text; nothing, if its bytes are no text. -/
  | file (text : Option (List Char))
  /-- A directory with its entries in the order of a listing. -/
  | directory (entries : List (String × FileEntry))
  /-- A link to another path. -/
  | link (target : String)

namespace FileEntry

def isDirectory : FileEntry → Bool
  | directory _ => true
  | _ => false

def isFile : FileEntry → Bool
  | file _ => true
  | _ => false

/-- The entry of a directory by its name. -/
def child? : FileEntry → String → Option FileEntry
  | directory entries, name => entries.lookup name
  | _, _ => none

/-- The entry at a place. -/
def at? : FileEntry → List String → Option FileEntry
  | e, [] => some e
  | e, name :: names => (e.child? name).bind (·.at? names)

/-- The entries of a directory with one of them replaced, or put at the end. -/
def setEntry (name : String) (e : FileEntry) :
    List (String × FileEntry) → List (String × FileEntry)
  | [] => [(name, e)]
  | (n, old) :: entries =>
    if n = name then (n, e) :: entries else (n, old) :: setEntry name e entries

/-- The tree with an entry put at a place; its directory has to be there. -/
def put (top : FileEntry) : List String → FileEntry → FileEntry
  | [], e => e
  | name :: names, e => match top with
    | directory entries => match names, entries.lookup name with
      | [], _ => directory (setEntry name e entries)
      | _, some inner => directory (setEntry name (inner.put names e) entries)
      | _, none => top
    | _ => top

end FileEntry

structure FileSystem where
  /-- The directory at the top. -/
  top : FileEntry
  /-- The path of the current directory, from the top on. -/
  current : String

namespace FileSystem

/-! ### Resolving paths -/

/-- The names of a path between its separators. -/
def names (path : String) : List String := (Path.pieces path.toList).map String.ofList

/-- Walks down from a place. An empty name or a dot stays there, and two dots go up; either needs
a directory, as every name does. `follow` resolves the target of a link from a place. -/
def walk (top : FileEntry) (follow : List String → String → Option (List String)) :
    List String → List String → Option (List String)
  | place, [] => some place
  | place, name :: more => match top.at? place with
    | some (.directory entries) =>
      if name = "" || name = "." then walk top follow place more
      else if name = ".." then walk top follow place.dropLast more
      else match entries.lookup name with
        | some (.link target) => (follow place target).bind fun place => walk top follow place more
        | some _ => walk top follow (place ++ [name]) more
        | none => none
    | _ => none

/-- The place that a path leads to from another place, through at most `links` nested links. -/
def resolveFrom (top : FileEntry) : Nat → List String → String → Option (List String)
  | 0, _, _ => none
  | links + 1, place, path =>
    walk top (resolveFrom top links) (if Path.isAbsolute path then [] else place) (names path)

/-- How deep links may be nested. -/
def deepestLink : Nat := 40

/-- The place that a path leads to. -/
def resolve? (fs : FileSystem) (path : String) : Option (List String) :=
  (resolveFrom fs.top deepestLink [] fs.current).bind fun place =>
    resolveFrom fs.top deepestLink place path

/-- What a path leads to. -/
def find? (fs : FileSystem) (path : String) : Option FileEntry :=
  (fs.resolve? path).bind fs.top.at?

def fileExists (fs : FileSystem) (path : String) : Bool := (fs.find? path).isSome

def isFile (fs : FileSystem) (path : String) : Bool := ((fs.find? path).map (·.isFile)).getD false

def isDirectory (fs : FileSystem) (path : String) : Bool :=
  ((fs.find? path).map (·.isDirectory)).getD false

/-- The text of a file. -/
def read? (fs : FileSystem) (path : String) : Option (List Char) :=
  match fs.find? path with
  | some (.file text) => text
  | _ => none

/-! ### Writing -/

/-- The name at the end of a path to something new, and the path before it. -/
def splitLast (path : String) : String × String :=
  let reversed := path.toList.reverse
  let name := reversed.takeWhile (· != '/')
  (String.ofList (reversed.drop name.length).reverse, String.ofList name.reverse)

/-- The place where a path would be made, seen from another place. Links at its end are
followed. -/
def newPlace (top : FileEntry) : Nat → List String → String → Option (List String)
  | 0, _, _ => none
  | links + 1, place, path =>
    let (parent, name) := splitLast path
    if name = "" || name = "." || name = ".." then none
    else
      (resolveFrom top deepestLink place parent).bind fun inner => match top.at? inner with
        | some (.directory entries) => match entries.lookup name with
          | some (.link target) => newPlace top links inner target
          | _ => some (inner ++ [name])
        | _ => none

/-- Writes a file; nothing, if that cannot be done. -/
def write? (fs : FileSystem) (path : String) (text : List Char) : Option FileSystem := do
  let base ← resolveFrom fs.top deepestLink [] fs.current
  let place ← newPlace fs.top deepestLink base path
  match fs.top.at? place with
  | some (.directory _) => none
  | _ => some { fs with top := fs.top.put place (.file (some text)) }

/-- Makes one directory where nothing is yet. -/
def makeDirectory? (fs : FileSystem) (path : String) : Option FileSystem := do
  let base ← resolveFrom fs.top deepestLink [] fs.current
  let (parent, name) := splitLast path
  if name = "" || name = "." || name = ".." then none
  else
    let inner ← resolveFrom fs.top deepestLink base parent
    match fs.top.at? inner with
    | some (.directory entries) =>
      if (entries.lookup name).isSome then none
      else some { fs with top := fs.top.put (inner ++ [name]) (.directory []) }
    | _ => none

/-- Makes a directory and, within `steps` steps, all that are missing above it. -/
def makeDirectories? : Nat → FileSystem → String → Option FileSystem
  | 0, _, _ => none
  | steps + 1, fs, path =>
    if path.isEmpty || fs.isDirectory path then some fs
    else match Path.parent? path with
      | none => none
      | some parent => (makeDirectories? steps fs parent).bind fun fs =>
          if fs.isDirectory path then some fs else fs.makeDirectory? path

end FileSystem

end ParamLowering
