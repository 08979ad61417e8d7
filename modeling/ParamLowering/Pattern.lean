import ParamLowering.Scope
set_option autoImplicit false

/-!
Functions as the lowering sees them: parameter patterns, defaults, the rest parameter and the
place of the body. Names are given as text, everything else by its range in the source.
-/

namespace ParamLowering

/-- The key of a property in an object pattern. -/
inductive PropertyKey where
  /-- A name, as in `{a: x}`. -/
  | ident (name : String)
  /-- A string, as in `{"a-b": x}`. -/
  | str (text : String)
  /-- A number, by the decimal form of its value. -/
  | num (text : String)
  /-- The expression between the brackets of `{[k]: x}`. -/
  | computed (expr : Span)
  deriving DecidableEq, Repr

mutual
/-- A binding pattern. -/
inductive Pattern where
  | ident (name : String) (span : Span)
  | object (span : Span) (props : List PatternProperty)
  | array (span : Span) (elements : List PatternElement) (rest : Option Pattern)

/-- A property of an object pattern. The default is the range of an expression. -/
inductive PatternProperty where
  | mk (key : PropertyKey) (value : Pattern) (default : Option Span)

/-- A place in an array pattern. -/
inductive PatternElement where
  /-- Nothing between two commas. -/
  | hole
  | item (value : Pattern) (default : Option Span)
end

namespace Pattern

/-- The name of a pattern that is a plain identifier. -/
def name? : Pattern → Option String
  | ident name _ => some name
  | object .. | array .. => none

def isDestructuring (p : Pattern) : Bool := p.name?.isNone

end Pattern

/-- A positional parameter. The span takes in a type annotation. -/
structure Param where
  pattern : Pattern
  span : Span

/-- A default value, with its name if it is nothing but an identifier. -/
structure DefaultValue where
  span : Span
  ident : Option String
  deriving DecidableEq, Repr

structure RestParam where
  name : String
  span : Span
  deriving DecidableEq, Repr

/-- A function body, braces included. -/
structure BodyBlock where
  span : Span
  firstStatement : Option Span
  deriving DecidableEq, Repr

/-- A function whose parameters may be lowered. The defaults belong to the last parameters, and
`thisParam` is the range of a parameter `this`, which exists for the type checker only. -/
structure FunctionNode where
  id : FunctionId
  name : Option String
  span : Span
  line : Nat
  params : List Param
  defaults : List DefaultValue
  rest : Option RestParam
  thisParam : Option Span
  body : BodyBlock

namespace FunctionNode

def displayName (f : FunctionNode) : String := f.name.getD "<anonymous>"

/-- Whether the parameter list uses a pattern, a default or a rest parameter. -/
def isModern (f : FunctionNode) : Bool :=
  f.rest.isSome || !f.defaults.isEmpty || f.params.any (·.pattern.isDestructuring)

end FunctionNode

end ParamLowering
