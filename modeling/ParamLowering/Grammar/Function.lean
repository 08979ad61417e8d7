import ParamLowering.Grammar.Type
set_option autoImplicit false

/-! Functions: parameter lists with bodies, declarations, expressions and the parts of methods. -/

namespace ParamLowering.Grammar

open ParamLowering.Tree Parse

/-- A function body, braces included. -/
structure Body where
  span : Span
  statements : List Node

/-- Whether a block ends here. Its closing brace, which is skipped, may be missing at the end of
the text. -/
def blockEnd? : Parse Bool := do
  if ← mark? closeBrace then return true else return (← token) == .finish

/-- Statements up to a closing brace. -/
def statementsToBrace (g : Rules) (m : Mode) : Parse (List Node) :=
  repeated g.bound do
    if ← blockEnd? then return none else return some (← g.statement m)

def body (g : Rules) (m : Mode) : Parse Body := do
  let at_ ← start
  mark openBrace
  let statements ← statementsToBrace g m.inner
  return ⟨← spanFrom at_, statements⟩

/-- A body, or with types perhaps only the end of a statement. -/
def body? (g : Rules) (m : Mode) : Parse (Option Body) := do
  if m.dialect.types && !(← atMark openBrace) then
    semicolon
    return none
  else return some (← body g m)

/-- The mode inside a function. -/
def Mode.inFunction (m : Mode) (async generator : Bool) : Mode :=
  { m.inner with async, generator, inParams := false }

/-- What follows the name of a function: its parameters and its body. Type parameters and the
return type leave no names. -/
structure Callable where
  params : List Target
  body : Option Body

/-- Reads a parameter list by `list` and what stands around it. -/
def callable (g : Rules) (m : Mode) (list : Rules → Mode → Parse (List Target))
    (body : Rules → Mode → Parse (Option Body)) : Parse Callable := do
  let _ ← typeParameters? g m
  let params ← list g { m with inParams := true }
  let _ ← returnType? g m ":"
  return ⟨params, ← body g m⟩

/-- A parameter list and a body that has to be there. -/
def complete (g : Rules) (m : Mode) : Parse Callable :=
  callable g m params fun g m => return some (← body g m)

/-- A parameter list and, with types, perhaps no body. -/
def signature (g : Rules) (m : Mode) : Parse Callable := callable g m params body?

namespace Callable

/-- A function whose parameters may be lowered; nothing, if it has no body. -/
def asFunction (c : Callable) (name : Option String) (span : Span) : List Node :=
  match c.body with
  | some b => [.function name span c.params b.span b.statements]
  | none => []

/-- An accessor of a class; nothing, if it has no body. -/
def asAccessor (c : Callable) (span : Span) : List Node :=
  match c.body with
  | some b => [.closure span c.params b.statements]
  | none => []

/-- A constructor, or an accessor of an object, which opens a scope even without a body. -/
def asClosure (c : Callable) (span : Span) : Node :=
  .closure span c.params ((c.body.map (·.statements)).getD [])

end Callable

/-- Skips `async` and `function` with a star, which tell whether a function is asynchronous and
whether it is a generator. -/
def functionHead : Parse (Bool × Bool) := do
  let async ← word? "async"
  word "function"
  return (async, ← mark? "*")

/-- Whether a function begins here: `function`, or `async` with `function` on the same line. -/
def atFunction : Parse Bool := do
  if ← atWord "function" then return true
  if ← atWord "async" then nextOnLineIs (·.isWord "function") else return false

/-- A function declaration, from `at_` on. -/
def functionDeclaration (g : Rules) (m : Mode) (at_ : Nat) : Parse Node := do
  let (async, generator) ← functionHead
  let id ← ident
  let c ← signature g (m.inFunction async generator)
  let span ← spanFrom at_
  return .group span (.functionName id :: c.asFunction (some id.name) span)

/-- A function expression, by `read` for what follows the name. -/
def functionExpression (g : Rules) (m : Mode) (read : Rules → Mode → Parse Callable) :
    Parse Node := do
  let at_ ← start
  let (async, generator) ← functionHead
  let id ← if (← token).isOneOf ["(", "<"] then pure none else some <$> ident
  let c ← read g (m.inFunction async generator)
  let span ← spanFrom at_
  return .group span ((id.map Node.name).toList ++ c.asFunction (id.map (·.name)) span)

/-! ### Methods -/

/-- What kind of member a word in front of a key announces. -/
inductive MemberForm where
  | plain
  | getter
  | setter
  | method (async generator : Bool)

/-- Whether the word ahead is itself the key of a member and announces nothing. -/
def isKeyItself (c : Cursor) : Bool := !c.token.startsKey

/-- Reads the words and the star in front of a key. -/
def memberForm : Parse MemberForm := do
  if ← mark? "*" then return .method false true
  let c ← get
  let next := c.next
  let star := next.token.isMark "*"
  if c.token.isWord "async" && !next.broken && (star || !isKeyItself next) then
    skip
    return .method true (← mark? "*")
  else if c.token.isWord "get" && !isKeyItself next then
    skip
    return .getter
  else if c.token.isWord "set" && !isKeyItself next then
    skip
    return .setter
  else return .plain

/-- Whether a parameter list, perhaps behind type parameters, follows. -/
def atSignature (m : Mode) : Parse Bool := do
  if m.dialect.types && (← atMark "<") then return true
  atMark "("

/-- The parameter of a setter. Of two the first is the type of `this`. -/
def setterParams : List Target → List Target
  | _ :: t :: _ => [t]
  | ts => ts

end ParamLowering.Grammar
