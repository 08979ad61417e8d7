import ParamLowering.Grammar.Literal
set_option autoImplicit false

/-!
What values are bound to: names and patterns with their types and defaults, and parameter lists.
-/

namespace ParamLowering.Grammar

open ParamLowering.Tree Parse

/-- The name of a binding; with types, `this` may stand for one. -/
def bindingName (m : Mode) : Parse Ident := do
  if m.dialect.types && (← atWord "this") then anyName else ident

/-- A default behind a target. -/
def withDefault (g : Rules) (m : Mode) (target : Target) : Parse Target := do
  if ← mark? "=" then return .withDefault target (← g.assignment m.inner).node
  return target

/-- A target inside a pattern. -/
def element (g : Rules) (m : Mode) : Parse Target := do
  withDefault g m (← g.target m)

/-- A rest element inside a pattern, read behind its dots. -/
def restElement (g : Rules) (m : Mode) (start : Nat) : Parse Target := do
  let target ← g.target m
  return .rest (← spanFrom start) target []

/-- A field of an object pattern. -/
def field (g : Rules) (m : Mode) : Parse Field := do
  let at_ ← start
  if ← mark? "..." then return .rest (← restElement g m at_)
  let k ← key g m
  match k with
  | .hidden _ => failure
  | .ident id =>
    if ← mark? ":" then return .keyed k.property? k.parts (← element g m)
    if ← mark? "=" then return .shorthand id (some (← g.assignment m.inner).node)
    return .shorthand id none
  | _ =>
    mark ":"
    return .keyed k.property? k.parts (← element g m)

/-- Whether the last field of an object pattern, if it takes the rest, is a name. -/
def endsWell (fields : List Field) : Bool :=
  match fields.getLast? with
  | some (.rest (.rest _ (.name ..) _)) => true
  | some (.rest _) => false
  | _ => true

/-- The places of an array pattern, up to and with its closing bracket. -/
def slots (g : Rules) (m : Mode) : Parse (List Slot) :=
  items g.bound "]" do
    if ← atMark "," then return .hole
    let at_ ← start
    if ← mark? "..." then return .item (← restElement g m at_)
    return .item (← element g m)

/-- A target without its type, still to be given the span and the names of one. -/
def bareTarget (g : Rules) (m : Mode) : Parse (Span → List Node → Target) := do
  if ← mark? openBrace then
    let fields ← items g.bound closeBrace (field g m)
    require (endsWell fields)
    return fun span notes => .object span fields notes
  else if ← mark? "[" then
    let slots ← slots g m
    return fun span notes => .array span slots notes
  else
    let id ← bindingName m
    return fun span notes => .name id span notes

/-- A target without type and default. -/
def target (g : Rules) (m : Mode) : Parse Target := do
  let at_ ← start
  let make ← bareTarget g m
  return make (← spanFrom at_) []

/-- A type annotation, if one is there. -/
def typeNotes? (g : Rules) (m : Mode) : Parse (Option (List Node)) := do
  let typed ← if m.dialect.types then mark? ":" else pure false
  if typed then return some (← g.type m) else return none

/-- A target with its type. The span takes in the type, but not a sign between the two. -/
def typedTarget (g : Rules) (m : Mode) (sign : String) : Parse Target := do
  let at_ ← start
  let make ← bareTarget g m
  let bare ← spanFrom at_
  if m.dialect.types then let _ ← mark? sign
  match ← typeNotes? g m with
  | some notes => return make (← spanFrom at_) notes
  | none => return make bare []

/-! ### Parameters -/

/-- The words that turn a constructor parameter into a property. -/
def accessWords : List String := ["public", "private", "protected", "readonly", "override"]

/-- Skips a word in front of a parameter. -/
def accessWord? (m : Mode) : Parse (Option Unit) := do
  if !m.dialect.types then return none
  match ← token with
  | .word w false =>
    let leads ← nextIs fun c => match c.token with
      | .word .. => true
      | t => t.isOneOf [openBrace, "["]
    if accessWords.contains w && leads then
      skip
      return some ()
    else return none
  | _ => return none

/-- A rest parameter, read behind its dots. It may have a default, and a type comes last. -/
def restParam (g : Rules) (m : Mode) (start : Nat) : Parse Target := do
  let target ← withDefault g m (← g.target m)
  let notes := (← typeNotes? g m).getD []
  let span ← spanFrom start
  if m.dialect.types then let _ ← mark? "?"
  return .rest span target notes

/-- A parameter behind its words. -/
def plainParam (g : Rules) (m : Mode) : Parse Target := do
  let at_ ← start
  if ← mark? "..." then restParam g m at_
  else withDefault g m (← typedTarget g m "?")

def param (g : Rules) (m : Mode) : Parse Target := do
  let _ ← repeated g.bound (accessWord? m)
  plainParam g m

/-- A parameter list. -/
def params (g : Rules) (m : Mode) : Parse (List Target) := do
  mark "("
  items g.bound ")" (param g m.inner)

/-- Whether a target is a name or has a default. -/
def isNamed : Target → Bool
  | .name .. | .withDefault .. => true
  | _ => false

/-- A parameter of a constructor; words in front make it a property, which has to be a name or to
have a default. -/
def constructorParam (g : Rules) (m : Mode) : Parse Target := do
  let words ← repeated g.bound (accessWord? m)
  let target ← plainParam g m
  if words.isEmpty then return target
  require (isNamed target)
  return .undeclared target

def constructorParams (g : Rules) (m : Mode) : Parse (List Target) := do
  mark "("
  items g.bound ")" (constructorParam g m.inner)

end ParamLowering.Grammar
