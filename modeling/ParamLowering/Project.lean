import ParamLowering.Config
import ParamLowering.FileSystem
import ParamLowering.Run
set_option autoImplicit false

/-!
Projects: finding the configuration, finding the source files below a path, and lowering them
all in one run.

A file that fails is reported, and the run goes on with the next one.
-/

namespace ParamLowering

/-! ### Source files -/

/-- A source file that was found. -/
structure FoundFile where
  /-- The path that leads to it. -/
  path : String
  /-- Its path below the directory that was searched; nothing, if it was asked for by itself. -/
  below : Option String
  deriving DecidableEq, Repr

namespace FoundFile

/-- The path that the globs of a configuration are compared with. -/
def globbed (f : FoundFile) : String := f.below.getD f.path

/-- The path below a directory that output is written to. -/
def outputName (f : FoundFile) : String := f.below.getD ((Path.fileName? f.path).getD f.path)

end FoundFile

namespace Project

/-- Whether a directory is never searched because of its name: a hidden one, or one that holds
what was installed or built. -/
def isSkipped (name : String) : Bool :=
  name.toList.head? == some '.' ||
    ["node_modules", "dist", "build", "out", "coverage"].contains name

/-- The source files below the entries of a directory, by their names from there on. Links are
not followed. -/
def sourcesBelow : List (String × FileEntry) → List (List String)
  | [] => []
  | (name, .file _) :: entries =>
    (if SourceFile.isSupported name then [[name]] else []) ++ sourcesBelow entries
  | (name, .directory inner) :: entries =>
    (if isSkipped name then [] else (sourcesBelow inner).map (name :: ·)) ++ sourcesBelow entries
  | (_, .link _) :: entries => sourcesBelow entries

/-- Files by their paths, component by component. -/
def byPath (files : List FoundFile) : List FoundFile :=
  Sorting.sort (fun a b => Path.le a.path b.path) files

/-- The source files that a path stands for; nothing, if it leads nowhere. -/
def collect? (fs : FileSystem) (path : String) : Option (List FoundFile) :=
  match fs.find? path with
  | some (.file _) => match Path.fileName? path with
    | some name => some (if SourceFile.isSupported name then [⟨path, none⟩] else [])
    | none => some []
  | some (.directory entries) => some (byPath ((sourcesBelow entries).map fun names =>
      let below := "/".intercalate names
      ⟨Path.join path below, some below⟩))
  | _ => none

/-- What is said of a path that leads nowhere. -/
def missing (path : String) : String := s!"Path does not exist: {path}"

/-! ### Configuration -/

/-- Where a configuration stands. -/
inductive ConfigPlace where
  /-- In a file of its own. -/
  | ownFile
  /-- In a section of the description of a package. -/
  | package
  deriving DecidableEq, Repr

/-- Why a configuration cannot be loaded. -/
inductive ConfigProblem where
  | unreadable
  | notJson
  | wrongShape
  | fault (fault : ConfigFault)
  deriving DecidableEq, Repr

structure ConfigError where
  place : ConfigPlace
  path : String
  problem : ConfigProblem
  deriving DecidableEq, Repr

namespace ConfigError

/-- What is said first. -/
def headline (e : ConfigError) : String :=
  match e.place, e.problem with
  | .ownFile, .unreadable => s!"failed to read config file: {e.path}"
  | .ownFile, .notJson | .ownFile, .wrongShape => s!"failed to parse config file: {e.path}"
  | .ownFile, .fault _ => s!"invalid config in: {e.path}"
  | .package, .unreadable => s!"failed to read {e.path}"
  | .package, .notJson => s!"failed to parse {e.path}"
  | .package, .wrongShape | .package, .fault _ => s!"invalid reparam config in {e.path}"

def message (e : ConfigError) : String :=
  match e.problem with
  | .fault f => s!"{e.headline}: {f.message}"
  | _ => e.headline

end ConfigError

/-- A configuration that was checked, with the path that it came from. -/
abbrev LoadedConfig := Config × Option String

/-- Checks a configuration. -/
def checked (place : ConfigPlace) (path : String) (config : Config) : Except ConfigError Config :=
  match config.fault? with
  | some fault => .error ⟨place, path, .fault fault⟩
  | none => .ok config

/-- Loads a configuration file. -/
def loadOwnFile (fs : FileSystem) (path : String) : Except ConfigError Config :=
  match fs.read? path with
  | none => .error ⟨.ownFile, path, .unreadable⟩
  | some text => match JsonValue.read? text with
    | none => .error ⟨.ownFile, path, .notJson⟩
    | some value => match Config.ofValue? value with
      | none => .error ⟨.ownFile, path, .wrongShape⟩
      | some config => checked .ownFile path config

/-- Loads the configuration in the description of a package, if there is one in it. -/
def loadPackage (fs : FileSystem) (path : String) : Except ConfigError (Option Config) :=
  match fs.read? path with
  | none => .error ⟨.package, path, .unreadable⟩
  | some text => match JsonValue.read? text with
    | none => .error ⟨.package, path, .notJson⟩
    | some value => match Config.sectionOf? "reparam" value with
      | none => .ok none
      | some inner => match Config.ofValue? inner with
        | none => .error ⟨.package, path, .wrongShape⟩
        | some config => (checked .package path config).map some

/-- The configuration files of a project, the first one that exists first. -/
def ownFileNames : List String := [".reparamrc.json", "reparam.config.json"]

/-- Finds the configuration of a project. -/
def discoverConfig (fs : FileSystem) (root : String) : Except ConfigError LoadedConfig :=
  match (ownFileNames.map (Path.join root)).find? fs.fileExists with
  | some path => (loadOwnFile fs path).map fun config => (config, some path)
  | none =>
    let path := Path.join root "package.json"
    if fs.fileExists path then
      (loadPackage fs path).map fun
        | some config => (config, some path)
        | none => ({}, none)
    else .ok ({}, none)

/-- Loads the configuration at a path, or finds the one of a project; and settles it. -/
def loadSettings (fs : FileSystem) (root : String) (path : Option String) :
    Except ConfigError (Settings × Option String) :=
  let loaded : Except ConfigError LoadedConfig := match path with
    | some path => (loadOwnFile fs path).map fun config => (config, some path)
    | none => discoverConfig fs root
  loaded.bind fun (config, origin) => match config.settle with
    | .ok settings => .ok (settings, origin)
    | .error fault => .error ⟨.ownFile, origin.getD "", .fault fault⟩

/-- The directory of a project: the path itself or, of anything else, the one that holds it. -/
def rootOf (fs : FileSystem) (path : String) : String :=
  if fs.isDirectory path then path else (Path.parent? path).getD path

/-! ### Runs -/

/-- Why a file of a project was not lowered. -/
inductive FailureCause where
  | unreadable
  | file (error : FileError)
  /-- There were warnings, and warnings count as errors. -/
  | warnings (list : List Warning)

structure Failure where
  path : String
  cause : FailureCause

namespace Failure

def message (f : Failure) : String :=
  match f.cause with
  | .unreadable => s!"Failed to read file: {f.path}"
  | .file error => error.message
  | .warnings list => s!"{list.length} warning(s) treated as errors"

def warnings (f : Failure) : List Warning :=
  match f.cause with
  | .warnings list => list
  | _ => []

end Failure

/-- What became of the files of a project, in the order of their paths. -/
structure Summary where
  lowered : List (FoundFile × LoweredFile) := []
  failed : List Failure := []

/-- What became of one file. -/
def outcome (strict : Bool) (path : String) : Except FileError LoweredFile →
    Except Failure LoweredFile
  | .error e => .error ⟨path, .file e⟩
  | .ok f => if strict && !f.warnings.isEmpty then .error ⟨path, .warnings f.warnings⟩ else .ok f

/-- Lowers one file; one that cannot be read does not count in the run. -/
def lowerFound (fs : FileSystem) (strict : Bool) (run : Run) (f : FoundFile) :
    Except Failure LoweredFile × Run :=
  match fs.read? f.path with
  | none => (.error ⟨f.path, .unreadable⟩, run)
  | some text =>
    let (answer, run) := run.lowerFile f.path text
    (outcome strict f.path answer, run)

/-- Lowers files in order. -/
def lowerAll (fs : FileSystem) (strict : Bool) : Run → List FoundFile → Summary
  | _, [] => {}
  | run, f :: fs' =>
    let (answer, run) := lowerFound fs strict run f
    let rest := lowerAll fs strict run fs'
    match answer with
    | .ok lowered => { rest with lowered := (f, lowered) :: rest.lowered }
    | .error failure => { rest with failed := failure :: rest.failed }

/-- Lowers the source files that a path stands for, as far as the settings admit them. -/
def lower? (fs : FileSystem) (settings : Settings) (path : String) : Option Summary :=
  (collect? fs path).map fun files =>
    lowerAll fs settings.warningsAsErrors { options := settings.options }
      (files.filter fun f => settings.admits f.globbed)

end Project

end ParamLowering
