import ParamLowering.LoweringError
import ParamLowering.Pattern
import ParamLowering.Text.Blank
set_option autoImplicit false

/-!
The layout of a function: which of its parameters have defaults, where generated statements go,
and how its parameter list ends.
-/

namespace ParamLowering

structure Layout where
  paramCount : Nat
  defaultCount : Nat
  /-- The first parameter with a default; all later ones have one too. -/
  firstDefault : Nat
  rest : Option RestParam
  /-- The start of the first statement, or the place after the brace of an empty body. -/
  anchor : Nat
  /-- The blanks right before the anchor. -/
  indent : String
  /-- The end of the last element of the parameter list. -/
  listEnd : Option Nat
  /-- A comma after the last element, with nothing but blanks between. -/
  trailingComma : Option Span
  deriving DecidableEq, Repr

namespace Layout

/-- A comma at or after an offset, with nothing but blanks before it. -/
def commaAfter (source : List Char) (offset : Nat) : Option Span :=
  (Text.from? source offset).bind fun after =>
    match Text.dropBlanks after with
    | ',' :: _ =>
      let comma := offset + Text.byteLength (Text.leadingBlanks after)
      some ⟨comma, comma + 1⟩
    | _ => none

/-- The end of the rest parameter, or else of the last default, or else of the last parameter. -/
def lastEnd (f : FunctionNode) : Option Nat :=
  (f.rest.map (·.span.stop)).or
    ((f.defaults.getLast?.map (·.span.stop)).or (f.params.getLast?.map (·.span.stop)))

/-- The place after the opening brace of the body. -/
def afterBrace (f : FunctionNode) : Nat := f.body.span.start + 1

/-- Where generated statements go. -/
def anchorOf (f : FunctionNode) : Nat := (f.body.firstStatement.map (·.start)).getD (afterBrace f)

/-- The layout of a function. There must be no more defaults than parameters, and what stands
between the brace and the anchor must be text of the source. -/
def ofFunction (f : FunctionNode) (source : List Char) : Except LoweringError Layout :=
  if f.params.length < f.defaults.length then
    .error (.defaultsExceedParams f.line f.defaults.length f.params.length)
  else match Span.text? ⟨afterBrace f, anchorOf f⟩ source with
    | none => .error (.invalidRange ⟨afterBrace f, anchorOf f⟩)
    | some between => .ok {
        paramCount := f.params.length
        defaultCount := f.defaults.length
        firstDefault := f.params.length - f.defaults.length
        rest := f.rest
        anchor := anchorOf f
        indent := String.ofList (Text.trailingBlanks between)
        listEnd := lastEnd f
        trailingComma := (lastEnd f).bind (commaAfter source) }

end Layout

end ParamLowering
