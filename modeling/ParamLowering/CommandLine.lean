import ParamLowering.Project
import ParamLowering.Report
set_option autoImplicit false

/-!
The command line: its arguments, and what a command says and writes.

A command works on a file system as a value. It gives back what goes to the two outputs, the
exit code, the files it wrote and the file system after them.
-/

namespace ParamLowering.CommandLine

/-! ### Arguments -/

inductive ReportFormat where
  | table
  | json
  deriving DecidableEq, Repr

def ReportFormat.ofName? (name : String) : Option ReportFormat :=
  if name = "text" then some .table else if name = "json" then some .json else none

inductive Command where
  /-- Lowers files and gives out the result: as text, below a directory, or in place. -/
  | transform (path : String) (outDir : Option String) (inPlace : Bool) (config : Option String)
  /-- Prints the edits that would be made. -/
  | edits (path : String) (format : ReportFormat) (config : Option String)
  deriving DecidableEq, Repr

/-- What the arguments ask for. -/
inductive Request where
  | help
  | version
  | command (command : Command)
  deriving DecidableEq, Repr

/-- The arguments of a command, as far as they were read. -/
structure Given where
  path : Option String := none
  outDir : Option String := none
  inPlace : Bool := false
  config : Option String := none
  format : Option ReportFormat := none

/-- A command by its name, with the options that only it has. -/
inductive CommandName where
  | transform
  | edits
  deriving DecidableEq, Repr

/-- The effect of one argument. -/
inductive Step where
  | go (given : Given)
  | help
  | wrong

/-- Sets an option that may be given once and takes a text that is not empty. -/
def setText (old : Option String) (value : String) (set : Option String → Given) : Step :=
  if old.isSome || value.isEmpty then .wrong else .go (set (some value))

/-- Sets an option with a value. -/
def setOption (c : CommandName) (g : Given) (name value : String) : Step :=
  match c, name with
  | _, "config" => setText g.config value fun v => { g with config := v }
  | .transform, "out-dir" => setText g.outDir value fun v => { g with outDir := v }
  | .edits, "format" => match g.format, ReportFormat.ofName? value with
    | none, some f => .go { g with format := some f }
    | _, _ => .wrong
  | _, _ => .wrong

/-- Sets an option without a value. -/
def setFlag (c : CommandName) (g : Given) (name : String) : Step :=
  match c, name with
  | _, "verbose" => .go g
  | _, "help" => .help
  | .transform, "in-place" => if g.inPlace then .wrong else .go { g with inPlace := true }
  | _, _ => .wrong

def takesValue (name : String) : Bool := ["config", "out-dir", "format"].contains name

/-- Short options in one argument: `v` may be repeated, `h` asks for help. -/
def setShort (g : Given) : List Char → Step
  | [] => .go g
  | 'v' :: cs => setShort g cs
  | 'h' :: _ => .help
  | _ => .wrong

def setPath (g : Given) (path : String) : Step := setText g.path path fun v => { g with path := v }

/-- An argument by its form. -/
inductive Argument where
  | plain (text : String)
  | short (letters : List Char)
  | long (name : String) (value : Option String)
  /-- `--`: everything behind it is plain. -/
  | divider
  deriving DecidableEq, Repr

def Argument.ofText (text : String) : Argument :=
  match text.toList with
  | ['-', '-'] => .divider
  | '-' :: '-' :: cs =>
    let name := cs.takeWhile (· != '=')
    match cs.drop name.length with
    | [] => .long (String.ofList name) none
    | _ :: value => .long (String.ofList name) (some (String.ofList value))
  | '-' :: c :: cs => .short (c :: cs)
  | _ => .plain text

/-- What the arguments of a command amount to. -/
inductive Arguments where
  | given (given : Given)
  | help
  | wrong

/-- Reads plain arguments. -/
def readPlain (g : Given) : List String → Arguments
  | [] => .given g
  | a :: as => match setPath g a with
    | .go g => readPlain g as
    | .help => .help
    | .wrong => .wrong

/-- Reads the arguments of a command from left to right. -/
def readArguments (c : CommandName) (g : Given) : List String → Arguments
  | [] => .given g
  | a :: as =>
    let goOn (step : Step) (rest : List String → Given → Arguments) : Arguments := match step with
      | .go g => rest as g
      | .help => .help
      | .wrong => .wrong
    match Argument.ofText a with
    | .divider => readPlain g as
    | .plain text => goOn (setPath g text) fun _ g => readArguments c g as
    | .short letters => goOn (setShort g letters) fun _ g => readArguments c g as
    | .long name (some value) => goOn (setOption c g name value) fun _ g => readArguments c g as
    | .long name none =>
      if takesValue name then match as with
        | [] => .wrong
        | value :: as => match Argument.ofText value, setOption c g name value with
          | .plain _, .go g => readArguments c g as
          | _, _ => .wrong
      else goOn (setFlag c g name) fun _ g => readArguments c g as

/-- The command that the arguments make up; a path has to be there. -/
def commandOf (c : CommandName) (g : Given) : Option Command :=
  g.path.bind fun path => match c with
    | .transform =>
      if g.outDir.isSome && g.inPlace then none
      else some (.transform path g.outDir g.inPlace g.config)
    | .edits => some (.edits path (g.format.getD .table) g.config)

/-- Reads a command with its arguments. -/
def readCommand (c : CommandName) (as : List String) : Option Request :=
  match readArguments c {} as with
  | .given g => (commandOf c g).map Request.command
  | .help => some .help
  | .wrong => none

/-- Short options in front of the command, of which `V` asks for the version. -/
def readLeadingShort : List Char → Option (Option Request)
  | [] => some none
  | 'v' :: cs => readLeadingShort cs
  | 'h' :: _ => some (some .help)
  | 'V' :: _ => some (some .version)
  | _ => none

/-- Reads all arguments; nothing, if they make no sense. -/
def readRequest : List String → Option Request
  | [] => none
  | a :: as => match Argument.ofText a with
    | .plain "transform" => readCommand .transform as
    | .plain "edits" => readCommand .edits as
    | .plain "help" => some .help
    | .long "help" none => some .help
    | .long "version" none => some .version
    | .long "verbose" none => readRequest as
    | .short letters => match readLeadingShort letters with
      | some none => readRequest as
      | some found => found
      | none => none
    | _ => none

/-! ### Commands -/

/-- What a command leaves behind. -/
structure Result where
  exitCode : Nat
  output : List Char := []
  /-- The lines of the error output. -/
  complaints : List String := []
  /-- The files that were written, by their paths, in order. -/
  written : List (String × List Char) := []
  files : FileSystem

/-- A run that was started, with the complaints so far. -/
structure Started where
  path : String
  complaints : List String
  summary : Project.Summary

def errorLine (message : String) : String := s!"Error: {message}"

/-- A run that failed before any file was written. -/
def aborted (fs : FileSystem) (complaints : List String) (message : String) : Result :=
  { exitCode := 1, complaints := complaints ++ [errorLine message], files := fs }

/-- Lowers everything that a path stands for. -/
def start (fs : FileSystem) (path : String) (config : Option String) : Except Result Started :=
  let path := Path.join fs.current path
  if !fs.fileExists path then .error (aborted fs [] (Project.missing path))
  else match Project.loadSettings fs (Project.rootOf fs path) config with
    | .error e => .error (aborted fs [] e.headline)
    | .ok (settings, origin) =>
      let complaints := (origin.map fun p => s!"Using config: {p}").toList
      match Project.lower? fs settings path with
      | none => .error (aborted fs complaints (Project.missing path))
      | some summary => .ok ⟨path, complaints, summary⟩

def warningLines (path : String) (warnings : List Warning) : List String :=
  warnings.map (Report.warningText path)

/-- What is said about the files that failed. -/
def failureLines (failed : List Project.Failure) : List String :=
  failed.flatMap (fun f => warningLines f.path f.warnings ++ [s!"error: {f.path}: {f.message}"]) ++
    (if failed.isEmpty then [] else [s!"Failed to transform {failed.length} file(s)"])

/-- What was written so far, and what went wrong. -/
structure Writing where
  files : FileSystem
  written : List (String × List Char) := []
  problem : Option String := none

/-- Writes one file, unless something went wrong before. -/
def Writing.write (w : Writing) (path : String) (text : List Char) : Writing :=
  if w.problem.isSome then w
  else match w.files.write? path text with
    | some fs => { w with files := fs, written := w.written ++ [(path, text)] }
    | none => { w with problem := some s!"Failed to write file: {path}" }

/-- Makes the directory of a file, unless something went wrong before. -/
def Writing.makeDirectoryOf (w : Writing) (path : String) : Writing :=
  if w.problem.isSome then w
  else match Path.parent? path with
    | none => w
    | some parent => match FileSystem.makeDirectories? (parent.length + 1) w.files parent with
      | some fs => { w with files := fs }
      | none => { w with problem := some s!"Failed to create directory: {parent}" }

/-- Writes every file below a directory. -/
def writeBelow (outDir : String) (w : Writing) (files : List (FoundFile × LoweredFile)) : Writing :=
  files.foldl (fun w (found, lowered) =>
    let path := Path.join outDir found.outputName
    (w.makeDirectoryOf path).write path lowered.output) w

/-- Writes every changed file where it came from. -/
def writeBack (w : Writing) (files : List (FoundFile × LoweredFile)) : Writing :=
  (files.filter (·.2.isChanged)).foldl
    (fun w (found, lowered) => w.write found.path lowered.output) w

/-- Gives out the lowered files; without a place for them, a directory cannot be lowered. -/
def emit (fs : FileSystem) (path : String) (outDir : Option String) (inPlace : Bool)
    (files : List (FoundFile × LoweredFile)) : Writing × List Char :=
  match outDir with
  | some outDir => (writeBelow outDir { files := fs } files, [])
  | none =>
    if inPlace then (writeBack { files := fs } files, [])
    else if fs.isDirectory path then
      let problem := "transforming a directory requires --out-dir or --in-place"
      ({ files := fs, problem := some problem }, [])
    else ({ files := fs }, files.flatMap (·.2.output))

/-- The exit code: one if a file failed. -/
def exitCode (failed : List Project.Failure) : Nat := if failed.isEmpty then 0 else 1

def runTransform (fs : FileSystem) (path : String) (outDir : Option String) (inPlace : Bool)
    (config : Option String) : Result :=
  match start fs path config with
  | .error r => r
  | .ok s =>
    let files := s.summary.lowered
    let complaints := s.complaints ++
      files.flatMap fun (found, f) => warningLines found.path f.warnings
    let (w, output) := emit fs s.path outDir inPlace files
    match w.problem with
    | some problem => {
        exitCode := 1
        complaints := complaints ++ [errorLine problem]
        written := w.written
        files := w.files }
    | none => {
        exitCode := exitCode s.summary.failed
        output
        complaints := complaints ++ failureLines s.summary.failed
        written := w.written
        files := w.files }

def runEdits (fs : FileSystem) (path : String) (format : ReportFormat) (config : Option String) :
    Result :=
  match start fs path config with
  | .error r => r
  | .ok s =>
    let files := s.summary.lowered.map (·.2)
    let output := match format with
      | .table => Report.table files
      | .json => Report.json files ++ ['\n']
    {
      exitCode := exitCode s.summary.failed
      output
      complaints := s.complaints ++ failureLines s.summary.failed
      files := fs }

/-- What is printed for `--version`. -/
def versionText : String := "reparam 0.1.0\n"

/-- Carries out what the arguments ask for. Arguments that make no sense give exit code 2. -/
def run (fs : FileSystem) (args : List String) : Result :=
  match readRequest args with
  | none => { exitCode := 2, files := fs }
  | some .help => { exitCode := 0, files := fs }
  | some .version => { exitCode := 0, output := versionText.toList, files := fs }
  | some (.command (.transform path outDir inPlace config)) =>
    runTransform fs path outDir inPlace config
  | some (.command (.edits path format config)) => runEdits fs path format config

end ParamLowering.CommandLine
