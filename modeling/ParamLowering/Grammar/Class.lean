import ParamLowering.Grammar.Function
set_option autoImplicit false

/-! Classes: their members, and what they extend. -/

namespace ParamLowering.Grammar

open ParamLowering.Tree Parse

/-- The words that may stand before a member of a class with types. -/
def memberWords : List String :=
  ["declare", "public", "private", "protected", "abstract", "override", "readonly", "accessor"]

/-- Reads a word in front of a member. The word has to be followed by more of the member. -/
def memberWord? (m : Mode) : Parse (Option String) := do
  match ← token with
  | .word w false =>
    let leads ← nextIs fun c =>
      (c.token.startsKey || c.token.isOneOf ["*", openBrace]) && (w == "static" || !c.broken)
    if leads && (w == "static" || (m.dialect.types && memberWords.contains w)) then
      skip
      return some w
    else return none
  | _ => return none

/-- What follows the key of a field. The semicolon may always be left out. -/
def fieldTail (g : Rules) (m : Mode) (start : Nat) (k : Key) : Parse (List Node) := do
  require (!k.isCalled "constructor")
  if m.dialect.types then
    if !(← mark? "?") then let _ ← mark? "!"
  let notes := (← typeNotes? g m).getD []
  let value ← if ← mark? "=" then
      pure [(← g.assignment (m.inFunction false false)).node]
    else pure []
  let _ ← mark? ";"
  return [.group (← spanFrom start) (k.parts ++ value ++ notes)]

/-- A method, a constructor or a field by its key. -/
def plainMember (g : Rules) (m : Mode) (start : Nat) (words : List String) (k : Key) :
    Parse (List Node) := do
  let optional ← if m.dialect.types && (← atMark "?") then
      nextIs fun c => c.token.isOneOf ["(", "<"]
    else pure false
  if optional then skip
  if ← atSignature m then
    require (!words.contains "readonly")
    if k.isCalled "constructor" then
      let c ← callable g (m.inFunction false false) constructorParams body?
      return [c.asClosure (← spanFrom start)]
    else
      let c ← signature g (m.inFunction false false)
      return k.parts ++ c.asFunction k.label (← spanFrom start)
  else fieldTail g m start k

/-- A member behind its words. -/
def wordedMember (g : Rules) (m : Mode) (start : Nat) (words : List String) :
    Parse (List Node) := do
  match ← memberForm with
  | .plain => plainMember g m start words (← key g m)
  | .method async generator =>
    let k ← key g m
    require (words.contains "static" || !(async && k.isCalled "constructor"))
    if m.dialect.types then let _ ← mark? "?"
    let c ← signature g (m.inFunction async generator)
    return k.parts ++ c.asFunction k.label (← spanFrom start)
  | .getter | .setter =>
    let k ← key g m
    let c ← signature g (m.inFunction false false)
    return k.parts ++ c.asAccessor (← spanFrom start)

/-- A member of a class. -/
def classMember (g : Rules) (m : Mode) : Parse (List Node) := do
  if ← mark? ";" then return []
  let at_ ← start
  let words ← repeated g.bound (memberWord? m)
  if words.getLast? == some "static" && (← atMark openBrace) then
    let b ← body g (m.inFunction false false)
    return [.block b.span b.statements]
  else
    let indexes ← if m.dialect.types && (← atMark "[") then indexAhead else pure false
    if indexes then
      let names ← indexSignature g m
      semicolon
      return names
    else wordedMember g m at_ words

def classMembers (g : Rules) (m : Mode) : Parse (List Node) := do
  mark openBrace
  let members ← repeated g.bound do
    if ← blockEnd? then return none else return some (← classMember g m.inner)
  return members.flatten

/-- Types with commas between them, behind a word. -/
def heritage? (g : Rules) (m : Mode) (name : String) : Parse (List Node) := do
  if ← word? name then
    return (← separated g.bound "," (typeReference g m)).flatten
  else return []

/-- The class behind its name. The members come before what it extends. -/
def classTail (g : Rules) (m : Mode) : Parse (List Node) := do
  let own ← typeParameters? g m
  let base ← if ← word? "extends" then
      let base ← g.operand m.inner true
      let given ← if m.dialect.types then typeArguments? g m else pure []
      pure (base.node :: given)
    else pure []
  let promised ← if m.dialect.types then heritage? g m "implements" else pure []
  let members ← classMembers g m
  return members ++ base ++ own ++ promised

/-- The name of a class, if it has one. -/
def className? (m : Mode) : Parse (Option Ident) := do
  let t ← token
  if t.identifier?.isSome && !(m.dialect.types && t.isWord "implements") then
    require (!t.isWord "let")
    return some (← ident)
  else return none

/-- A class declaration, from `at_` on. -/
def classDeclaration (g : Rules) (m : Mode) (at_ : Nat) : Parse Node := do
  word "class"
  match ← className? m with
  | none => failure
  | some id =>
    let parts ← classTail g m
    return .group (← spanFrom at_) (.className id :: parts)

/-- A class expression; its name is not declared. -/
def classExpression (g : Rules) (m : Mode) : Parse Node := do
  let at_ ← start
  word "class"
  let id ← className? m
  let parts ← classTail g m
  return .group (← spanFrom at_) ((id.map Node.name).toList ++ parts)

end ParamLowering.Grammar
