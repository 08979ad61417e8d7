import ParamLowering.Glob
import ParamLowering.JsonValue.Reader
import ParamLowering.Lowering.Pass
import ParamLowering.Text.Visible
set_option autoImplicit false

/-!
The configuration of a project: which files are lowered, and how.

A configuration is read from JSON, checked, and then settled: globs are read and missing options
get their defaults.
-/

namespace ParamLowering

/-- A configuration as it is written; an option may be missing. -/
structure Config where
  includes : List String := []
  excludes : List String := []
  stem : Option String := none
  cleanup : Option Bool := none
  warningsAsErrors : Option Bool := none
  deriving DecidableEq, Repr

/-- What is wrong with a configuration that has the right shape. -/
inductive ConfigFault where
  | stem (text : String)
  | includePattern (text : String)
  | excludePattern (text : String)
  deriving DecidableEq, Repr

def ConfigFault.message : ConfigFault → String
  | .stem text =>
    "temp_prefix must start with a letter, `_` or `$` and contain only identifier characters (got "
      ++ String.ofList (Text.visible text.toList) ++ ")"
  | .includePattern text => s!"invalid include pattern: {text}"
  | .excludePattern text => s!"invalid exclude pattern: {text}"

namespace Config

/-! ### Reading -/

/-- The fields of a configuration, in order. -/
inductive Field where
  | includes
  | excludes
  | stem
  | cleanup
  | warningsAsErrors
  deriving DecidableEq, Repr

namespace Field

def all : List Field := [includes, excludes, stem, cleanup, warningsAsErrors]

def name : Field → String
  | includes => "include"
  | excludes => "exclude"
  | stem => "temp_prefix"
  | cleanup => "cleanup_temporaries"
  | warningsAsErrors => "warnings_as_errors"

def ofName? (name : String) : Option Field := all.find? (·.name == name)

end Field

def text? : JsonValue → Option String
  | .string s => some s
  | _ => none

def texts? : JsonValue → Option (List String)
  | .array vs => vs.mapM text?
  | _ => none

/-- A text that may be null. -/
def optionalText? : JsonValue → Option (Option String)
  | .null => some none
  | .string s => some (some s)
  | _ => none

/-- A truth value that may be null. -/
def optionalBool? : JsonValue → Option (Option Bool)
  | .null => some none
  | .bool b => some (some b)
  | _ => none

/-- The configuration with one field set, if the value has the type of the field. -/
def set? (c : Config) (field : Field) (value : JsonValue) : Option Config :=
  match field with
  | .includes => (texts? value).map fun v => { c with includes := v }
  | .excludes => (texts? value).map fun v => { c with excludes := v }
  | .stem => (optionalText? value).map fun v => { c with stem := v }
  | .cleanup => (optionalBool? value).map fun v => { c with cleanup := v }
  | .warningsAsErrors => (optionalBool? value).map fun v => { c with warningsAsErrors := v }

/-- Sets the fields of an object. A field that is unknown or was set before is refused. -/
def setMembers? : List Field → Config → List (String × JsonValue) → Option Config
  | _, c, [] => some c
  | done, c, (name, value) :: ms => do
    let field ← Field.ofName? name
    if done.contains field then none
    else
      let c ← c.set? field value
      setMembers? (field :: done) c ms

/-- Sets fields in order by the items of an array, of which there may be fewer and not more. -/
def setItems? : List Field → Config → List JsonValue → Option Config
  | _, c, [] => some c
  | [], _, _ :: _ => none
  | field :: fields, c, value :: vs => (c.set? field value).bind fun c => setItems? fields c vs

/-- Reads a configuration out of an object, or out of an array of its fields in order. -/
def ofValue? : JsonValue → Option Config
  | .object ms => setMembers? [] {} ms
  | .array vs => setItems? Field.all {} vs
  | _ => none

/-- Reads a configuration out of JSON text. -/
def ofText? (text : List Char) : Option Config := (JsonValue.read? text).bind ofValue?

/-- The last value of each name of an object, in objects at any depth. -/
def lastOf (ms : List (String × JsonValue)) : List (String × JsonValue) :=
  ms.foldr (fun m later => if later.any (·.1 == m.1) then later else m :: later) []

/-- The member of an object that holds the configuration, with the last of repeated fields. -/
def sectionOf? (name : String) : JsonValue → Option JsonValue
  | .object ms => match (lastOf ms).lookup name with
    | some (.object fields) => some (.object (lastOf fields))
    | found => found
  | _ => none

/-! ### Checking and settling -/

/-- Whether a text can stand at the start of an identifier, in ASCII. -/
def isStem (text : String) : Bool := Accessor.isAsciiName text.toList

/-- The first pattern that cannot be read. -/
def badPattern? (patterns : List String) : Option String :=
  patterns.find? fun p => (Glob.ofText? p).isNone

/-- What is wrong with a configuration: the stem first, then the patterns in order. -/
def fault? (c : Config) : Option ConfigFault :=
  ((c.stem.filter (!isStem ·)).map ConfigFault.stem).or
    (((badPattern? c.includes).map ConfigFault.includePattern).or
      ((badPattern? c.excludes).map ConfigFault.excludePattern))

/-- The files left out where a configuration names none. -/
def defaultExcludes : List String :=
  ["**/node_modules/**", "**/dist/**", "**/build/**", "**/*.min.js", "**/*.d.ts"]

end Config

/-- A configuration with its globs read and its defaults filled in. -/
structure Settings where
  /-- Only files that match one of these; all files, where there is no list. -/
  includes : Option (List Glob)
  /-- No files that match one of these. -/
  excludes : List Glob
  options : LoweringOptions
  warningsAsErrors : Bool

namespace Settings

/-- Whether a path is to be lowered. What is excluded stays out, whatever includes it. -/
def admits (s : Settings) (path : String) : Bool :=
  !s.excludes.any (·.matchesPath path) &&
    (match s.includes with
      | some globs => globs.any (·.matchesPath path)
      | none => true)

end Settings

namespace Config

/-- Settles a configuration, unless something is wrong with it. -/
def settle (c : Config) : Except ConfigFault Settings :=
  match c.fault? with
  | some fault => .error fault
  | none =>
    let defaults : LoweringOptions := {}
    .ok {
      includes := if c.includes.isEmpty then none else some (c.includes.filterMap Glob.ofText?)
      excludes := (if c.excludes.isEmpty then defaultExcludes else c.excludes).filterMap Glob.ofText?
      options := { stem := c.stem.getD defaults.stem, cleanup := c.cleanup.getD defaults.cleanup }
      warningsAsErrors := c.warningsAsErrors.getD false }

end Config

end ParamLowering
