import ParamLowering.CommandLine
set_option autoImplicit false

/-!
The entry point: looks at the part of the file system that a command may need, runs the command
on that part as a value, and carries out what the command wrote.
-/

namespace ParamLowering.Entry

/-- What is printed when help was asked for, or the arguments make no sense. -/
def usage : String :=
  "Lower destructured, defaulted and rest parameters to plain ones\n\n" ++
  "Usage: reparam transform PATH [--out-dir DIR | --in-place] [--config FILE]\n" ++
  "       reparam edits PATH [--format text|json] [--config FILE]\n"

/-- The path of a place in the tree. -/
def pathOf (place : List String) : String := "/" ++ "/".intercalate place

/-- The tree with an entry put at a place, and directories above it where nothing is. A
directory takes nothing away from one that is there. -/
def plant (top : FileEntry) : List String → FileEntry → FileEntry
  | [], e => match top, e with
    | .directory (_ :: _), .directory [] => top
    | _, _ => e
  | name :: names, e =>
    let entries := match top with
      | .directory entries => entries
      | _ => []
    let inner := (entries.lookup name).getD (.directory [])
    .directory (FileEntry.setEntry name (plant inner names e) entries)

/-- A file with its text, if its bytes can be read and are UTF-8. -/
def fileAt (path : String) : IO FileEntry := do
  let bytes ← try some <$> IO.FS.readBinFile path catch _ => pure none
  return .file ((bytes.bind String.fromUTF8?).map (·.toList))

/-- An entry of a directory with everything below it, except in directories that are never
searched. Only source files are read. -/
partial def readBelow (entry : IO.FS.DirEntry) : IO FileEntry := do
  match (← entry.path.symlinkMetadata).type with
  | .dir =>
    if Project.isSkipped entry.fileName then return .directory []
    let inner ← entry.path.readDir
    return .directory (← inner.toList.mapM fun e => return (e.fileName, ← readBelow e))
  | .file =>
    if SourceFile.isSupported entry.fileName then fileAt entry.path.toString
    else return .file none
  | _ => return .link ""

/-- What is at a path that no link is part of: a file, or a directory, whose entries are read
if `deep` is set. -/
def readAt (path : String) (deep : Bool) : IO FileEntry := do
  let real ← IO.FS.realPath path
  if !(← real.isDir) then fileAt path
  else if !deep then return .directory []
  else
    let inner ← real.readDir
    return .directory (← inner.toList.mapM fun e => return (e.fileName, ← readBelow e))

/-- The real path of what a path leads to; nothing, if it leads nowhere. -/
def realPath? (path : String) : IO (Option String) :=
  try return some (← IO.FS.realPath path).toString catch _ => return none

/-- Adds to a tree what is on the way from a place along some names, links among it, and what is
at the end of the way. -/
partial def look (top : FileEntry) (deep : Bool) (place : List String) :
    List String → IO FileEntry
  | [] => return plant top place (← readAt (pathOf place) deep)
  | name :: names => do
    if name = "" || name = "." then look top deep place names
    else if name = ".." then look top deep place.dropLast names
    else
      let next := place ++ [name]
      match ← realPath? (pathOf next) with
      | none => return top
      | some real =>
        if real = pathOf next then look top deep next names
        else look (plant top next (.link real)) deep [] (FileSystem.names real ++ names)

/-- Adds what a path leads to. -/
def lookAt (fs : FileSystem) (deep : Bool) (path : String) : IO FileSystem :=
  return { fs with top := ← look fs.top deep [] (FileSystem.names (Path.join fs.current path)) }

/-- The part of the file system that a command may need. -/
def snapshot : CommandLine.Command → FileSystem → IO FileSystem
  | .transform path outDir _ config, fs => do
    let fs ← ofPath path config fs
    outDir.toList.foldlM (lookAt · false) fs
  | .edits path _ config, fs => ofPath path config fs
where
  ofPath (path : String) (config : Option String) (fs : FileSystem) : IO FileSystem := do
    let fs ← lookAt fs true path
    let root := Project.rootOf fs (Path.join fs.current path)
    let places := config.toList ++ (Project.ownFileNames ++ ["package.json"]).map (Path.join root)
    places.foldlM (lookAt · false) fs

/-- Writes files, with the directories above them. Whether all of them could be written. -/
def writeAll : List (String × List Char) → IO Bool
  | [] => return true
  | (path, text) :: files => do
    let written ← try
        match Path.parent? path with
        | some parent => if !parent.isEmpty then IO.FS.createDirAll parent
        | none => pure ()
        IO.FS.writeFile path (String.ofList text)
        pure true
      catch _ => pure false
    if written then writeAll files
    else
      IO.eprintln (CommandLine.errorLine s!"Failed to write file: {path}")
      return false

/-- Carries out a command. -/
def carryOut (fs : FileSystem) (args : List String) : IO UInt32 := do
  let result := CommandLine.run fs args
  let written ← writeAll result.written
  IO.print (String.ofList result.output)
  result.complaints.forM (fun line => IO.eprintln line)
  return if written then UInt32.ofNat result.exitCode else 1

end ParamLowering.Entry

open ParamLowering in
def main (args : List String) : IO UInt32 := do
  let fs : FileSystem := { top := .directory [], current := (← IO.currentDir).toString }
  match CommandLine.readRequest args with
  | none => IO.eprint Entry.usage; return 2
  | some .help => IO.print Entry.usage; return 0
  | some .version => Entry.carryOut fs args
  | some (.command command) =>
    Entry.carryOut (← Entry.snapshot command (← Entry.lookAt fs false "")) args
