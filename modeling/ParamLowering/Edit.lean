import ParamLowering.Sorting
import ParamLowering.Span
set_option autoImplicit false

/-!
Edits of a source text, and the merge that applies a list of them.

Every edit addresses the source text. The merge applies all edits or none: it refuses ranges
that are not text, ranges that overlap, and insertions inside a replaced range.
-/

namespace ParamLowering

/-- What an edit is for. -/
inductive EditKind where
  /-- A statement put at the start of a function body. -/
  | prologue
  /-- Text taken from a parameter list, or replaced there by a placeholder. -/
  | removal
  deriving DecidableEq, Repr

def EditKind.label : EditKind → String
  | .prologue => "prologue"
  | .removal => "removal"

/-- Replaces the bytes `[start, stop)` of the source by `text`; an empty range only inserts. -/
structure Edit where
  start : Nat
  stop : Nat
  text : String
  kind : EditKind
  deriving DecidableEq, Repr

/-- Why a list of edits cannot be applied. -/
inductive EditError where
  | inverted (start stop : Nat)
  | outOfBounds (start stop length : Nat)
  | splitsCharacter (offset : Nat)
  | overlap (first second : Span)
  deriving DecidableEq, Repr

def EditError.message : EditError → String
  | .inverted start stop => s!"edit {start}..{stop} is inverted"
  | .outOfBounds start stop length => s!"edit {start}..{stop} exceeds source length {length}"
  | .splitsCharacter offset => s!"edit boundary {offset} is not on a character boundary"
  | .overlap first second =>
    s!"edit {second.start}..{second.stop} overlaps edit {first.start}..{first.stop}"

namespace Edit

/-- A pure insertion. -/
def insertAt (offset : Nat) (text : String) (kind : EditKind) : Edit := ⟨offset, offset, text, kind⟩

def delete (s : Span) (kind : EditKind) : Edit := ⟨s.start, s.stop, "", kind⟩

def replace (s : Span) (text : String) (kind : EditKind) : Edit := ⟨s.start, s.stop, text, kind⟩

def span (e : Edit) : Span := ⟨e.start, e.stop⟩

def isInsertion (e : Edit) : Bool := e.start == e.stop

/-- Whether the range of one edit is text of the source. -/
def checkRange (source : List Char) (e : Edit) : Except EditError Unit :=
  if e.stop < e.start then .error (.inverted e.start e.stop)
  else if Text.byteLength source < e.stop then
    .error (.outOfBounds e.start e.stop (Text.byteLength source))
  else if !Text.isBoundary source e.start then .error (.splitsCharacter e.start)
  else if !Text.isBoundary source e.stop then .error (.splitsCharacter e.stop)
  else .ok ()

/-- The error of the first edit whose range is not text of the source. -/
def checkRanges (source : List Char) : List Edit → Except EditError Unit
  | [] => .ok ()
  | e :: es => match checkRange source e with
    | .error err => .error err
    | .ok () => checkRanges source es

/-- Edits by position; edits of one position stay in list order. -/
def inOrder (edits : List Edit) : List Edit :=
  Sorting.sort (fun a b => a.span.precedes b.span) edits

/-- Edits in order must not reach into the last non-empty range before them. -/
def checkDisjoint : Option Span → List Edit → Except EditError Unit
  | _, [] => .ok ()
  | none, e :: es => checkDisjoint (if e.isInsertion then none else some e.span) es
  | some covered, e :: es =>
    if e.start < covered.stop then .error (.overlap covered e.span)
    else checkDisjoint (if e.isInsertion then some covered else some e.span) es

/-- Writes out the text left from offset `cursor` on, with the edits put in. -/
def splice (cursor : Nat) (rest : List Char) : List Edit → List Char
  | [] => rest
  | e :: es => match Text.cut? rest (e.start - cursor) with
    | none => rest
    | some (kept, atEdit) =>
      kept ++ e.text.toList ++ splice e.stop ((Text.from? atEdit (e.stop - e.start)).getD []) es

/-- The source text with all edits applied. -/
def applyAll (source : List Char) (edits : List Edit) : Except EditError (List Char) :=
  match checkRanges source edits with
  | .error err => .error err
  | .ok () => match checkDisjoint none (inOrder edits) with
    | .error err => .error err
    | .ok () => .ok (splice 0 source (inOrder edits))

end Edit

end ParamLowering
