import ParamLowering.Grammar.Class
set_option autoImplicit false

/-!
Expressions. Binary operators are read as one flat chain, since neither names nor scopes depend
on how they group.
-/

namespace ParamLowering.Grammar

open ParamLowering.Tree Parse

/-! ### Literals and calls -/

/-- An operand that cannot be assigned to. -/
def valueFrom (start : Nat) (parts : List Node) : Parse Operand :=
  return ⟨.group (← spanFrom start) parts, .value⟩

/-- Whether a part of a literal may stand in a pattern. -/
def Operand.fitsPattern (o : Operand) : Bool := o.form != .brokenPattern

/-- A literal of parts that come with the word whether they fit a pattern. -/
def literalFrom (start : Nat) (parts : List (List Node × Bool)) : Parse Operand := do
  let form := if parts.all (·.2) then .pattern else .brokenPattern
  return ⟨.group (← spanFrom start) (parts.flatMap (·.1)), form⟩

/-- An expression, perhaps spread. -/
def spread (g : Rules) (m : Mode) : Parse Operand := do
  let _ ← mark? "..."
  g.assignment m

def arguments (g : Rules) (m : Mode) : Parse (List Node) := do
  mark "("
  return (← items g.bound ")" (spread g m.inner)).map (·.node)

def arrayLiteral (g : Rules) (m : Mode) : Parse Operand := do
  let at_ ← start
  mark "["
  let parts ← items g.bound "]" do
    if ← atMark "," then return ([], true)
    let o ← spread g m.inner
    return ([o.node], o.fitsPattern)
  literalFrom at_ parts

/-- A property by its key: a method, a value or a shorthand, for which any word will do. -/
def keyedProperty (g : Rules) (m : Mode) (start : Nat) (k : Key) : Parse (List Node × Bool) := do
  if ← atSignature m then
    let c ← signature g (m.inFunction false false)
    return (k.parts ++ c.asFunction k.label (← spanFrom start), false)
  else if ← mark? ":" then
    let value ← g.assignment m
    return (k.parts ++ [value.node], value.fitsPattern)
  else match k with
    | .ident id =>
      if ← mark? "=" then return ([.name id, (← g.assignment m).node], true)
      return ([.name id], true)
    | _ => failure

/-- A property of an object literal, and whether it fits a pattern. -/
def property (g : Rules) (m : Mode) : Parse (List Node × Bool) := do
  if ← mark? "..." then
    let o ← g.assignment m
    return ([o.node], o.fitsPattern)
  let at_ ← start
  match ← memberForm with
  | .plain =>
    match ← key g m with
    | .hidden _ => failure
    | k => keyedProperty g m at_ k
  | .method async generator =>
    let k ← key g m
    let c ← signature g (m.inFunction async generator)
    return (k.parts ++ c.asFunction k.label (← spanFrom at_), false)
  | .getter =>
    let k ← key g m
    let c ← signature g (m.inFunction false false)
    return (k.parts ++ [Callable.asClosure ⟨[], c.body⟩ (← spanFrom at_)], false)
  | .setter =>
    let k ← key g m
    let c ← signature g (m.inFunction false false)
    return (k.parts ++ [Callable.asClosure ⟨setterParams c.params, c.body⟩ (← spanFrom at_)], false)

def objectLiteral (g : Rules) (m : Mode) : Parse Operand := do
  let at_ ← start
  mark openBrace
  literalFrom at_ (← items g.bound closeBrace (property g m.inner))

def parenthesized (g : Rules) (m : Mode) : Parse Operand := do
  let at_ ← start
  mark "("
  let node ← g.expression m.inner
  mark ")"
  return ⟨.group (← spanFrom at_) [node], .reference⟩

/-! ### Operands -/

/-- `new`, read with the target or the class and the arguments behind it. -/
def creation (g : Rules) (m : Mode) : Parse Operand := do
  let at_ ← start
  word "new"
  if ← mark? "." then
    word "target"
    valueFrom at_ []
  else
    let callee ← g.operand m false
    require !(← atMark "?.")
    let types ← if m.dialect.types && (← atAngle) then
        pure ((← attempt (typeArguments g m)).getD [])
      else pure []
    let given ← if ← atMark "(" then arguments g m else pure []
    valueFrom at_ (callee.node :: given ++ types)

/-- A call of `import`, perhaps with a phase, or the data of the module. -/
def importExpression (g : Rules) (m : Mode) : Parse Operand := do
  let at_ ← start
  word "import"
  if ← mark? "." then
    if ← word? "meta" then valueFrom at_ []
    else
      if !(← word? "defer") then word "source"
      valueFrom at_ (← arguments g m)
  else valueFrom at_ (← arguments g m)

/-- An expression that is one word. -/
def wordOperand (g : Rules) (m : Mode) (name : String) : Parse Operand := do
  let at_ ← start
  if ["this", "null", "true", "false"].contains name then
    skip
    valueFrom at_ []
  else if name == "super" then
    skip
    require ((← token).isOneOf ["(", "[", "."])
    valueFrom at_ []
  else if ← atFunction then return ⟨← functionExpression g m complete, .value⟩
  else if name == "class" then return ⟨← classExpression g m, .value⟩
  else if name == "new" then creation g m
  else if name == "import" then importExpression g m
  else return ⟨.name (← ident), .reference⟩

/-- An expression without anything behind it. -/
def primary (g : Rules) (m : Mode) : Parse Operand := do
  let at_ ← start
  match ← token with
  | .word name false => wordOperand g m name
  | .word _ true => return ⟨.name (← ident), .reference⟩
  | .number _ | .string _ | .bigint =>
    skip
    valueFrom at_ []
  | .backtick =>
    let parts ← template (g.expression m.inner) false
    valueFrom at_ parts
  | .mark "(" => parenthesized g m
  | .mark "[" => arrayLiteral g m
  | .mark "\x7b" => objectLiteral g m
  | .mark "/" | .mark "/=" =>
    regex
    valueFrom at_ []
  | .mark "<" =>
    require m.dialect.markup
    match g.element m (← get).place with
    | some (node, last) =>
      resume last
      return ⟨node, .value⟩
    | none => failure
  | _ => failure

/-- What stands behind an operand: what there is to visit, and what the whole becomes. -/
abbrev Tail := List Node × OperandForm

/-- A name behind a dot. -/
def memberName : Parse Unit := do
  match ← token with
  | .word .. | .privateName _ => skip
  | _ => failure

def indexTail (g : Rules) (m : Mode) : Parse Tail := do
  mark "["
  let index ← g.expression m.inner
  mark "]"
  return ([index], .reference)

/-- What follows `?.`. -/
def optionalTail (g : Rules) (m : Mode) : Parse Tail := do
  if ← atMark "(" then return (← arguments g m, .reference)
  else if ← atMark "[" then indexTail g m
  else if m.dialect.types && (← atAngle) then
    let types ← typeArguments g m
    return ((← arguments g m) ++ types, .reference)
  else
    memberName
    return ([], .reference)

/-- Type arguments behind an operand, with the call or the template behind them. Without either,
no expression may follow on the line. -/
def typedTail (g : Rules) (m : Mode) : Parse Tail := do
  let types ← typeArguments g m
  if ← atMark "(" then return ((← arguments g m) ++ types, .value)
  else if (← token) == .backtick then
    return (types ++ (← template (g.expression m.inner) true), .value)
  else
    require ((← onNewLine) || !(← token).startsExpression)
    return (types, .reference)

/-- A member, a call or a template behind an operand. -/
def tail? (g : Rules) (m : Mode) (calls : Bool) : Parse (Option Tail) := do
  match ← token with
  | .mark "." =>
    skip
    memberName
    return some ([], .reference)
  | .mark "?." =>
    if calls then
      skip
      return some (← optionalTail g m)
    else return none
  | .mark "[" => return some (← indexTail g m)
  | .mark "(" => if calls then return some (← arguments g m, .value) else return none
  | .backtick => return some (← template (g.expression m.inner) true, .value)
  | .mark "!" =>
    if m.dialect.types && !(← onNewLine) then
      skip
      return some ([], .reference)
    else return none
  | .mark "<" | .mark "<<" =>
    if m.dialect.types && calls then attempt (typedTail g m) else return none
  | _ => return none

/-- An operand with members and, if asked for, calls behind it. -/
def operand (g : Rules) (m : Mode) (calls : Bool) : Parse Operand := do
  let at_ ← start
  let first ← primary g m
  let tails ← repeated g.bound (tail? g m calls)
  match tails.getLast? with
  | none => return first
  | some (_, form) =>
    return ⟨.group (← spanFrom at_) (first.node :: tails.flatMap (·.1)), form⟩

/-! ### Operators -/

/-- An operand, perhaps counted up or down behind. -/
def counted (g : Rules) (m : Mode) : Parse Operand := do
  let at_ ← start
  let o ← g.operand m true
  if (← token).isOneOf ["++", "--"] && !(← onNewLine) then
    skip
    valueFrom at_ [o.node]
  else return o

/-- Whether `await` stands here as a name: outside asynchronous functions, where nothing follows
that it could wait for. -/
def awaitIsName (m : Mode) : Parse Bool := do
  if m.async then return false
  nextIs fun c => c.broken || c.token == .finish || c.token.isOneOf [")", "]", closeBrace, ",", ";"]

/-- An operator in front, and whether it only asserts a type. -/
def prefixOperator? (g : Rules) (m : Mode) : Parse (Option (List Node × Bool)) := do
  match ← token with
  | .mark t =>
    if ["+", "-", "!", "~", "++", "--"].contains t then
      skip
      return some ([], false)
    else if t == "<" && !m.dialect.markup then
      openAngle
      let names ← if ← word? "const" then pure [] else g.type m.inner
      closeAngle
      return some (names, true)
    else return none
  | .word w false =>
    if ["typeof", "void", "delete"].contains w then
      skip
      return some ([], false)
    else if w == "await" && !(← awaitIsName m) then
      skip
      return some ([], false)
    else return none
  | _ => return none

/-- The operand of a prefix operator, or a hidden name that is looked for in an object. -/
def unaryOperand (g : Rules) (m : Mode) : Parse Operand := do
  match ← token with
  | .privateName _ =>
    let at_ ← start
    skip
    require (← atWord "in")
    valueFrom at_ []
  | .word "await" false => return ⟨.name (← anyName), .reference⟩
  | _ => counted g m

def unary (g : Rules) (m : Mode) : Parse Operand := do
  let at_ ← start
  let operators ← repeated g.bound (prefixOperator? g m)
  let o ← unaryOperand g m
  if operators.isEmpty then return o
  let form := if operators.all (·.2) then .reference else .value
  return ⟨.group (← spanFrom at_) (o.node :: operators.flatMap (·.1)), form⟩

def binaryMarks : List String :=
  ["+", "-", "*", "/", "%", "**", "<<", ">>", ">>>", "<", ">", "<=", ">=", "==", "!=", "===", "!==",
   "&", "|", "^", "&&", "||", "??"]

/-- A type behind `as` or `satisfies`. -/
def assertedType (g : Rules) (m : Mode) : Parse (List Node) := do
  if ← word? "const" then return [] else g.type m

/-- An operator with what stands behind it, and whether it only asserts a type. -/
def binaryStep? (g : Rules) (m : Mode) : Parse (Option (List Node × Bool)) := do
  match ← token with
  | .mark t =>
    if binaryMarks.contains t then
      skip
      return some ([(← unary g m).node], false)
    else return none
  | .word w false =>
    if w == "instanceof" || (w == "in" && !m.noIn) then
      skip
      return some ([(← unary g m).node], false)
    else if m.dialect.types && (w == "as" || w == "satisfies") && !(← onNewLine) then
      skip
      return some (← assertedType g m, true)
    else return none
  | _ => return none

def binary (g : Rules) (m : Mode) : Parse Operand := do
  let at_ ← start
  let first ← unary g m
  let steps ← repeated g.bound (binaryStep? g m)
  if steps.isEmpty then return first
  let form := if steps.all (·.2) then .reference else .value
  return ⟨.group (← spanFrom at_) (first.node :: steps.flatMap (·.1)), form⟩

def conditional (g : Rules) (m : Mode) : Parse Operand := do
  let at_ ← start
  let test ← binary g m
  if ← mark? "?" then
    let whenTrue ← g.assignment { m.inner with beforeColon := true }
    mark ":"
    let whenFalse ← g.assignment m
    valueFrom at_ [test.node, whenTrue.node, whenFalse.node]
  else return test

/-! ### Arrows -/

/-- The head of an arrow. -/
structure ArrowHead where
  async : Bool
  params : List Target

/-- Whether `<` opens the type parameters of an arrow. Where it could begin an element as well, a
comma or a bound has to tell. -/
def genericAhead (m : Mode) : Parse Bool := do
  if !m.dialect.types || !(← atMark "<") then return false
  if !m.dialect.markup then return true
  nextIs fun c => c.token.identifier?.isSome &&
    (c.next.token.isMark "," || c.next.token.isWord "extends")

/-- A parameter of an arrow. The name of one with a type takes in the type. -/
def arrowParam : Target → Target
  | .name id span notes => .name ⟨id.name, span⟩ span notes
  | .withDefault target value => .withDefault (arrowParam target) value
  | target => target

/-- The parameters of an arrow up to its sign, which has to be on their line. -/
def arrowParams (g : Rules) (m : Mode) (returns : Bool) : Parse (List Target) := do
  let targets ← if (← atMark "(") || (← genericAhead m) then do
      let _ ← typeParameters? g m
      let targets ← params g m
      if returns then
        let _ ← returnType? g m ":"
      pure (targets.map arrowParam)
    else do
      let id ← ident
      pure [.name id id.span []]
  require ((← atMark "=>") && !(← onNewLine))
  return targets

/-- Whether `async` stands in front of the parameters of an arrow. -/
def asyncAhead : Parse Bool := do
  if ← atWord "async" then
    nextOnLineIs fun t => t.identifier?.isSome || t.isOneOf ["(", "<"]
  else return false

/-- The head of an arrow, perhaps with a return type. -/
def arrowHead (g : Rules) (m : Mode) (returns : Bool) : Parse ArrowHead := do
  if ← asyncAhead then
    skip
    return ⟨true, ← arrowParams g m returns⟩
  else return ⟨false, ← arrowParams g m returns⟩

/-- Whether an arrow may begin here. -/
def arrowPossible (m : Mode) : Parse Bool := do
  if (← atMark "(") || (← asyncAhead) || (← genericAhead m) then return true
  if (← token).identifier?.isSome then nextIs fun c => c.token.isMark "=>" else return false

def arrowTail (g : Rules) (m : Mode) (start : Nat) (head : ArrowHead) : Parse Operand := do
  mark "=>"
  let statements ← if ← atMark openBrace then
      pure (← body g (m.inFunction head.async false)).statements
    else
      pure [(← g.assignment { m with async := head.async, generator := false }).node]
  return ⟨.closure (← spanFrom start) head.params statements, .value⟩

/-- An arrow with a return type before the colon of a conditional, which has to follow. -/
def arrowBeforeColon (g : Rules) (m : Mode) : Parse Operand := do
  let at_ ← start
  let o ← arrowTail g m at_ (← arrowHead g m true)
  require (← atMark ":")
  return o

/-- An arrow, if one begins here. Only its head is on trial. -/
def arrow? (g : Rules) (m : Mode) : Parse (Option Operand) := do
  if !(← arrowPossible m) then return none
  let at_ ← start
  let early ← if m.dialect.types && m.beforeColon then attempt (arrowBeforeColon g m) else pure none
  if early.isSome then return early
  match ← attempt (arrowHead g m (!m.beforeColon)) with
  | some head => return some (← arrowTail g m at_ head)
  | none => return none

/-! ### Assignments -/

def assignMarks : List String :=
  ["+=", "-=", "*=", "/=", "%=", "**=", "<<=", ">>=", ">>>=", "&=", "|=", "^=", "&&=", "||=", "??="]

/-- Whether the expression behind `yield` is missing. -/
def yieldsNothing : Parse Bool := do
  let t ← token
  return (← onNewLine) || t == .finish || t.isWord "in" ||
    t.isOneOf [")", "]", closeBrace, ",", ";", ":", "?"]

def yieldExpression (g : Rules) (m : Mode) : Parse Operand := do
  let at_ ← start
  word "yield"
  require (!m.inParams)
  if ← yieldsNothing then valueFrom at_ []
  else
    let _ ← mark? "*"
    valueFrom at_ [(← g.assignment m).node]

/-- A conditional expression, perhaps with an assignment to it. -/
def plainAssignment (g : Rules) (m : Mode) : Parse Operand := do
  let at_ ← start
  let left ← conditional g m
  let t ← token
  if t.isMark "=" then
    require (left.form == .reference || left.form == .pattern)
    skip
    valueFrom at_ [left.node, (← g.assignment m).node]
  else if t.isOneOf assignMarks then
    require (left.form == .reference)
    skip
    valueFrom at_ [left.node, (← g.assignment m).node]
  else return left

/-- An expression without commas. -/
def assignment (g : Rules) (m : Mode) : Parse Operand := do
  if m.generator && (← atWord "yield") then yieldExpression g m
  else
    match ← arrow? g m with
    | some o => return o
    | none => plainAssignment g m

/-- An expression that may have commas. -/
def expression (g : Rules) (m : Mode) : Parse Node := do
  let at_ ← start
  let first ← g.assignment m
  if ← mark? "," then
    let more ← separated g.bound "," (g.assignment m)
    return .group (← spanFrom at_) (first.node :: more.map (·.node))
  else return first.node

end ParamLowering.Grammar
