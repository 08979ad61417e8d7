import ParamLowering.Discovery
import ParamLowering.Lowering.Pass
import ParamLowering.SourceFile
set_option autoImplicit false

/-!
Lowering whole files, one after another.

The files of a run share the names that are taken: a name seen or made in one file is not given
out in a later one. A file is lowered completely or not at all.
-/

namespace ParamLowering

/-- Why a file cannot be lowered. -/
inductive FileError where
  | unreadableSyntax (file : String)
  | lowering (function file : String) (line : Nat) (cause : LoweringError)
  | edits (file : String) (cause : EditError)
  deriving DecidableEq, Repr

def FileError.message : FileError → String
  | .unreadableSyntax file => s!"Failed to parse source file: {file}"
  | .lowering function file line cause =>
    s!"failed to rewrite parameters of '{function}' at {file}:{line}: {cause.message}"
  | .edits file cause => s!"failed to apply edits to {file}: {cause.message}"

/-- A file after its lowering. -/
structure LoweredFile where
  file : String
  output : List Char
  /-- The edits of the text as it was, in the order of the functions. -/
  edits : List Edit
  /-- Warnings by line. -/
  warnings : List Warning
  /-- The number of functions that were changed. -/
  changedFunctions : Nat

def LoweredFile.isChanged (f : LoweredFile) : Bool := !f.edits.isEmpty

/-- What the files of a run share. -/
structure Run where
  options : LoweringOptions
  names : NameSet := NameSet.empty
  /-- The number of the next file. -/
  nextFile : Nat := 0

namespace Run

/-- Warnings by line; those of one line stay in the order they were raised. -/
def byLine (warnings : List Warning) : List Warning :=
  Sorting.sort (fun a b => decide (a.line ≤ b.line)) warnings

/-- What a file holds, with the names of the run. -/
def discover (file : Nat) (name : String) (source : List Char) (names : NameSet) :
    Option Discovery :=
  (SourceFile.statements? name source).map fun statements =>
    Discovery.ofStatements file (SourceFile.lineAt (SourceFile.withoutMark source)) statements names

/-- The lowering of patterns by their own text. -/
def passContext (options : LoweringOptions) (source : List Char) : PassContext Unit :=
  ⟨source, options, ExtractionContext.extractor ⟨source, options.stem⟩⟩

/-- The state of the passes over a file, before the first of them. -/
def passState (d : Discovery) : PassState Unit := ⟨d.scopes, d.names, d.warnings, ()⟩

/-- Lowers functions one after another; stops at the first that fails. -/
def lowerEach (cx : PassContext Unit) (file : String) :
    List FunctionNode → PassState Unit → Except FileError (List Outcome) × PassState Unit
  | [], st => (.ok [], st)
  | f :: fs, st => match (lowerFunction cx f).run.run st with
    | (.error e, st) => (.error (.lowering f.displayName file f.line e), st)
    | (.ok outcome, st) => match lowerEach cx file fs st with
      | (.error e, st) => (.error e, st)
      | (.ok outcomes, st) => (.ok (outcome :: outcomes), st)

/-- Puts the edits of all functions into the text. -/
def finish (file : String) (source : List Char) (outcomes : List Outcome)
    (warnings : List Warning) : Except FileError LoweredFile :=
  let edits := outcomes.flatMap (·.edits)
  match Edit.applyAll source edits with
  | .error e => .error (.edits file e)
  | .ok output => .ok {
      file, output, edits
      warnings := byLine warnings
      changedFunctions := (outcomes.filter (!·.isUnchanged)).length }

/-- Lowers a file. Its name chooses the dialect. A file that cannot be read leaves no names. -/
def lowerFile (run : Run) (file : String) (source : List Char) :
    Except FileError LoweredFile × Run :=
  let next := { run with nextFile := run.nextFile + 1 }
  match discover run.nextFile file source run.names with
  | none => (.error (.unreadableSyntax file), next)
  | some d =>
    match lowerEach (passContext run.options source) file d.functions (passState d) with
    | (.error e, st) => (.error e, { next with names := st.names })
    | (.ok outcomes, st) =>
      (finish file source outcomes st.warnings, { next with names := st.names })

/-- Lowers files in order. -/
def lowerFiles (run : Run) : List (String × List Char) → List (Except FileError LoweredFile)
  | [] => []
  | (file, source) :: files =>
    let (answer, run) := run.lowerFile file source
    answer :: run.lowerFiles files

end Run

end ParamLowering
