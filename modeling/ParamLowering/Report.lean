import ParamLowering.JsonValue
import ParamLowering.Run
set_option autoImplicit false

/-!
Reports on lowered files: a table with a row per edit and a line per warning, and the same as
JSON. Neither holds the output text.
-/

namespace ParamLowering.Report

/-! ### The table -/

/-- A text with blanks up to a width. -/
def padded (width : Nat) (cs : List Char) : List Char :=
  cs ++ List.replicate (width - cs.length) ' '

/-- A text of exactly the given width: a longer one ends in three dots. -/
def fitted (width : Nat) (cs : List Char) : List Char :=
  if width < cs.length then cs.take (width - 3) ++ ['.', '.', '.'] else padded width cs

/-- A text with its line feeds and tabulators written as escapes. -/
def onOneRow (cs : List Char) : List Char :=
  cs.flatMap fun c => if c = '\n' then ['\\', 'n'] else if c = '\t' then ['\\', 't'] else [c]

/-- The columns of a row. -/
def row (file start stop kind text : List Char) : List Char :=
  padded 30 file ++ ' ' :: padded 6 start ++ ' ' :: padded 6 stop ++ ' ' :: padded 9 kind ++
    ' ' :: text ++ ['\n']

def header : List Char :=
  row "FILE".toList "START".toList "END".toList "KIND".toList "TEXT".toList

def editRow (file : String) (e : Edit) : List Char :=
  row (fitted 30 file.toList) (toString e.start).toList (toString e.stop).toList
    e.kind.label.toList (onOneRow e.text.toList)

/-- A warning with its file and line. -/
def warningText (file : String) (w : Warning) : String :=
  s!"warning: {file}:{w.line}: {w.message}"

def warningRow (file : String) (w : Warning) : List Char :=
  (warningText file w).toList ++ ['\n']

/-- All edits, then all warnings. -/
def table (files : List LoweredFile) : List Char :=
  header ++ files.flatMap (fun f => f.edits.flatMap (editRow f.file)) ++
    files.flatMap (fun f => f.warnings.flatMap (warningRow f.file))

/-! ### JSON -/

def editValue (e : Edit) : JsonValue :=
  .object [("start", .nat e.start), ("end", .nat e.stop), ("text", .string e.text),
    ("kind", .string e.kind.label)]

def warningValue (w : Warning) : JsonValue :=
  match w.kind with
  | .selfReferentialDefault name =>
    .object [("line", .nat w.line), ("kind", .string "self_referential_default"),
      ("name", .string name)]
  | .skippedFunction function reason =>
    .object [("line", .nat w.line), ("kind", .string "skipped_function"),
      ("function", .string function), ("reason", .string reason)]

def fileValue (f : LoweredFile) : JsonValue :=
  .object [("file", .string f.file), ("edits", .array (f.edits.map editValue)),
    ("warnings", .array (f.warnings.map warningValue)),
    ("functions_rewritten", .nat f.changedFunctions)]

/-- The report as JSON. -/
def json (files : List LoweredFile) : List Char :=
  (JsonValue.array (files.map fileValue)).pretty 0

end ParamLowering.Report
