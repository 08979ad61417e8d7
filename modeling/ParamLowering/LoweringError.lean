import ParamLowering.Span
set_option autoImplicit false

/-! Why the parameters of a function cannot be lowered. -/

namespace ParamLowering

inductive LoweringError where
  /-- The list of defaults is longer than the list of parameters. -/
  | defaultsExceedParams (line defaults params : Nat)
  /-- A definition was to read a value into something other than a name. -/
  | targetNotSimple (temporary : String)
  /-- The function was never given a scope. -/
  | missingScope (line : Nat)
  /-- A range is not text of the source. -/
  | invalidRange (range : Span)
  deriving DecidableEq, Repr

def LoweringError.message : LoweringError → String
  | .defaultsExceedParams line defaults params =>
    s!"function at line {line} has {defaults} default values but only {params} parameters"
  | .targetNotSimple temporary =>
    s!"nested definition reading `{temporary}` targets a pattern instead of a simple name"
  | .missingScope line => s!"function at line {line} has no associated scope"
  | .invalidRange range =>
    s!"source range {range.start}..{range.stop} is not valid text in the file"

/-- The text of a range, or the complaint that it is none. -/
def Span.textOrError (s : Span) (source : List Char) : Except LoweringError String :=
  match s.text? source with
  | some cs => .ok (String.ofList cs)
  | none => .error (.invalidRange s)

end ParamLowering
