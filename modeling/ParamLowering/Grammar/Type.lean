import ParamLowering.Grammar.Binding
set_option autoImplicit false

/-!
Types, by the names in them: type references by their first name, type parameters, the keys of
members, the parameters of function types and the labels of tuples.
-/

namespace ParamLowering.Grammar

open ParamLowering.Tree Parse

/-- Reads one `>`, also as the first part of a longer sign. -/
def closeAngle : Parse Unit := do
  let p := (← get).place
  match p.rest with
  | '>' :: _ => resume (p.skip 1)
  | _ => failure

/-- Reads one `<`, also as the first part of a longer sign. -/
def openAngle : Parse Unit := do
  let p := (← get).place
  match p.rest with
  | '<' :: _ => resume (p.skip 1)
  | _ => failure

def atAngle : Parse Bool := return (← token).isOneOf ["<", "<<"]

/-- Type arguments in angle brackets. -/
def typeArguments (g : Rules) (m : Mode) : Parse (List Node) := do
  openAngle
  let types ← separated g.bound "," (g.type m.inner)
  closeAngle
  return types.flatten

/-- Type arguments, if they follow on the same line. -/
def typeArguments? (g : Rules) (m : Mode) : Parse (List Node) := do
  if (← atAngle) && !(← onNewLine) then typeArguments g m else return []

/-! ### Type parameters -/

/-- Skips a word in front of a type parameter. -/
def varianceWord? : Parse (Option Unit) := do
  let t ← token
  let leads ← nextIs fun c => match c.token with
    | .word w _ => w != "extends"
    | _ => false
  if (t.isWord "const" || t.isWord "in" || t.isWord "out") && leads then
    skip
    return some ()
  else return none

def typeParameter (g : Rules) (m : Mode) : Parse (List Node) := do
  let _ ← repeated g.bound varianceWord?
  let id ← ident
  let bound ← if ← word? "extends" then g.type m.inner else pure []
  let default ← if ← mark? "=" then g.type m.inner else pure []
  return .name id :: bound ++ default

/-- Type parameters up to their closing bracket. -/
def typeParametersFrom (g : Rules) (m : Mode) : Nat → Parse (List Node)
  | 0 => failure
  | bound + 1 => do
    if ← atMark ">" then
      closeAngle
      return []
    let names ← typeParameter g m
    if ← mark? "," then return names ++ (← typeParametersFrom g m bound)
    closeAngle
    return names

/-- Type parameters, if they are there and types are understood. -/
def typeParameters? (g : Rules) (m : Mode) : Parse (List Node) := do
  if m.dialect.types && (← atMark "<") then
    openAngle
    typeParametersFrom g m g.bound
  else return []

/-! ### Function types -/

/-- Whether a token can be the parameter of a type predicate. -/
def isPredicateSubject (t : Token) : Bool := t.isWord "this" || t.identifier?.isSome

/-- Whether an assertion on a parameter begins here, and not a parameter called `asserts`. -/
def assertionAhead : Parse Bool := do
  let c ← get
  let next := c.next
  return c.token.isWord "asserts" && isPredicateSubject next.token && !next.broken &&
    (!next.token.isWord "is" || next.next.token.isWord "is")

/-- Whether a predicate on a parameter begins here. -/
def predicateAhead : Parse Bool := do
  if isPredicateSubject (← token) then nextOnLineIs (·.isWord "is") else return false

/-- The parameter of a predicate with the type it is said to have. -/
def predicate (g : Rules) (m : Mode) : Parse (List Node) := do
  let id ← anyName
  let names ← if ← word? "is" then g.type m else pure []
  return if id.name == "this" then names else .name id :: names

/-- A type, or a predicate on a parameter. -/
def typeOrPredicate (g : Rules) (m : Mode) : Parse (List Node) := do
  if ← assertionAhead then
    skip
    predicate g m
  else if ← predicateAhead then predicate g m
  else g.type m

/-- A return type behind a sign, if one is there. -/
def returnType? (g : Rules) (m : Mode) (sign : String) : Parse (List Node) := do
  let typed ← if m.dialect.types then mark? sign else pure false
  if typed then typeOrPredicate g m.inner else return []

/-- The parameters of a function type, which declare nothing. -/
def mentioned (span : Span) (targets : List Target) : List Node :=
  if targets.isEmpty then [] else [.declaration span .constBinding (targets.map .undeclared)]

/-- Type parameters, parameters and a return type behind `sign`. -/
def signatureType (g : Rules) (m : Mode) (sign : String) : Parse (List Node) := do
  let at_ ← start
  let names ← typeParameters? g m
  let targets ← params g m
  let span ← spanFrom at_
  let result ← returnType? g m sign
  return names ++ mentioned span targets ++ result

/-- A function type; its arrow has to be there. -/
def functionType (g : Rules) (m : Mode) : Parse (List Node) := do
  let at_ ← start
  let names ← typeParameters? g m
  let targets ← params g m
  let span ← spanFrom at_
  mark "=>"
  let result ← typeOrPredicate g m
  return names ++ mentioned span targets ++ result

/-- Whether a parenthesis opens the parameters of a function type. -/
def parametersAhead (g : Rules) (m : Mode) : Parse Bool := ahead do
  mark "("
  if (← atMark ")") || (← atMark "...") then return true
  let _ ← repeated g.bound (accessWord? m)
  let _ ← g.target m.inner
  if (← token).isOneOf [":", ",", "?", "="] then return true
  mark ")"
  atMark "=>"

/-! ### Members -/

/-- The end of a member. -/
def memberEnd : Parse Unit := do
  if ← mark? ";" then return
  if ← mark? "," then return
  let c ← get
  require (c.broken || c.token.isMark closeBrace)

/-- Whether an index signature begins behind the bracket. -/
def indexAhead : Parse Bool := ahead do
  mark "["
  let _ ← ident
  atMark ":"

/-- `[name: type]: type` -/
def indexSignature (g : Rules) (m : Mode) : Parse (List Node) := do
  mark "["
  let id ← ident
  mark ":"
  let keys ← g.type m.inner
  mark "]"
  let values := (← typeNotes? g m.inner).getD []
  return .name id :: keys ++ values

/-- The key of a member of a type; a name is recorded. -/
def memberKey (g : Rules) (m : Mode) : Parse (List Node) := do
  match ← key g m with
  | .ident id => return [.name id]
  | k => return k.parts

/-- Whether the word ahead stands before a key. -/
def leadsKey (name : String) : Parse Bool := do
  if ← atWord name then nextIs fun c => c.token.startsKey else return false

/-- A property or method of a type. -/
def keyedMember (g : Rules) (m : Mode) : Parse (List Node) := do
  if ← leadsKey "readonly" then skip
  if (← atMark "[") && (← indexAhead) then indexSignature g m
  else
    if (← leadsKey "get") || (← leadsKey "set") then skip
    let names ← memberKey g m
    let _ ← mark? "?"
    if (← atMark "(") || (← atMark "<") then
      return names ++ (← signatureType g m ":")
    else return names ++ (← typeNotes? g m).getD []

def typeMember (g : Rules) (m : Mode) : Parse (List Node) := do
  let creates ← if ← atWord "new" then nextIs fun c => c.token.isOneOf ["(", "<"] else pure false
  let names ←
    if creates then
      skip
      signatureType g m ":"
    else if (← atMark "(") || (← atMark "<") then signatureType g m ":"
    else keyedMember g m
  memberEnd
  return names

/-- The members of an interface or a type literal. -/
def typeMembers (g : Rules) (m : Mode) : Parse (List Node) := do
  mark openBrace
  let members ← repeated g.bound do
    if ← mark? closeBrace then return none else return some (← typeMember g m.inner)
  return members.flatten

/-! ### Other types -/

/-- Reads a plus or minus if it is there. -/
def plusOrMinus? : Parse Bool := do
  if ← mark? "+" then return true else mark? "-"

/-- Whether a mapped type begins here. -/
def mappedAhead : Parse Bool := ahead do
  mark openBrace
  if ← plusOrMinus? then atWord "readonly"
  else
    if ← leadsKey "readonly" then skip
    mark "["
    let _ ← ident
    atWord "in"

/-- A modifier of a mapped type, with a sign in front. -/
def mappedModifier? (p : Parse Bool) : Parse Unit := do
  if ← plusOrMinus? then require (← p) else
    let _ ← p

def mappedType (g : Rules) (m : Mode) : Parse (List Node) := do
  mark openBrace
  mappedModifier? (word? "readonly")
  mark "["
  let id ← ident
  word "in"
  let keys ← g.type m.inner
  let renamed ← if ← word? "as" then g.type m.inner else pure []
  mark "]"
  mappedModifier? (mark? "?")
  let values := (← typeNotes? g m.inner).getD []
  if !(← mark? ";") then let _ ← mark? ","
  mark closeBrace
  return .name id :: keys ++ renamed ++ values

/-- An element of a tuple type: a label is a word before a colon, perhaps with a question mark. -/
def tupleElement (g : Rules) (m : Mode) : Parse (List Node) := do
  let _ ← mark? "..."
  let labelled ← ahead do
    let _ ← anyName
    let _ ← mark? "?"
    atMark ":"
  if labelled then
    let id ← anyName
    let _ ← mark? "?"
    mark ":"
    return .name id :: (← g.type m)
  else
    let names ← g.type m
    let _ ← mark? "?"
    return names

/-- A name, perhaps with further names behind dots. -/
def entityName (g : Rules) : Parse Ident := do
  let id ← if ← atWord "this" then anyName else ident
  let _ ← repeated g.bound do
    if ← mark? "." then
      let _ ← anyName
      return some ()
    else return none
  return id

def typeReference (g : Rules) (m : Mode) : Parse (List Node) := do
  let id ← entityName g
  return .name id :: (← typeArguments? g m)

/-- `import("path")` with a name and type arguments behind it. -/
def importType (g : Rules) (m : Mode) : Parse (List Node) := do
  word "import"
  mark "("
  let path ← token
  require (match path with | .string _ => true | _ => false)
  skip
  if ← mark? "," then
    if !(← atMark ")") then
      let _ ← g.assignment m.inner
      let _ ← mark? ","
  mark ")"
  let names ← if ← mark? "." then pure [.name (← entityName g)] else pure []
  return names ++ (← typeArguments? g m)

def typeQuery (g : Rules) (m : Mode) : Parse (List Node) := do
  word "typeof"
  if ← atWord "import" then importType g m else typeReference g m

/-- The words that are types by themselves. -/
def typeWords : List String :=
  ["any", "unknown", "never", "boolean", "number", "string", "symbol", "bigint", "object", "void",
   "null", "undefined", "this", "true", "false"]

/-- A type without operators around it. -/
def primaryType (g : Rules) (m : Mode) : Parse (List Node) := do
  match ← token with
  | .word w _ =>
    if typeWords.contains w && !(← nextIs fun c => c.token.isMark ".") then
      skip
      return []
    else if w == "typeof" then typeQuery g m
    else if w == "import" then importType g m
    else typeReference g m
  | .string _ | .number _ | .bigint =>
    skip
    return []
  | .backtick => return (← template (g.type m.inner) false).flatten
  | .mark "-" =>
    skip
    require (match ← token with | .number _ | .bigint => true | _ => false)
    skip
    return []
  | .mark "(" =>
    skip
    let names ← g.type m.inner
    mark ")"
    return names
  | .mark "[" =>
    skip
    return (← items g.bound "]" (tupleElement g m.inner)).flatten
  | .mark "\x7b" => if ← mappedAhead then mappedType g m else typeMembers g m
  | _ => failure

/-- A type with brackets behind it. -/
def arrayType (g : Rules) (m : Mode) : Parse (List Node) := do
  let names ← primaryType g m
  let more ← repeated g.bound do
    if ← onNewLine then return none
    if !(← mark? "[") then return none
    if ← mark? "]" then return some []
    let index ← g.type m.inner
    mark "]"
    return some index
  return names ++ more.flatten

/-- Skips an operator in front of a type. -/
def typeOperator? : Parse (Option Unit) := do
  let t ← token
  let leads ← nextIs fun c => match c.token with
    | .word w _ => !(["extends", "in", "is", "as"].contains w)
    | .string _ | .number _ | .backtick => true
    | t => t.isOneOf ["(", "[", openBrace]
  if (t.isWord "keyof" || t.isWord "unique" || t.isWord "readonly") && leads then
    skip
    return some ()
  else return none

/-- The constraint of an inferred type. A question mark behind it shows that it was a condition,
unless this type stands in a condition itself. -/
def inferredBound? (inCondition : Bool) (operand : Parse (List Node)) : Parse (List Node) := do
  if ← atWord "extends" then
    let found ← attempt do
      skip
      let names ← operand
      require (inCondition || !(← atMark "?"))
      return names
    return found.getD []
  else return []

/-- Operands of an intersection or a union, with the sign perhaps also in front. -/
def joinedTypes (g : Rules) (sign : String) (operand : Parse (List Node)) :
    Parse (List Node) := do
  let _ ← mark? sign
  return (← separated g.bound sign operand).flatten

/-- Whether a function or constructor type begins here. -/
def functionAhead (g : Rules) (m : Mode) : Parse Bool := do
  if (← atMark "<") || (← atWord "new") then return true
  if ← atWord "abstract" then nextIs fun c => c.token.isWord "new"
  else parametersAhead g m

/-- A type with operators in front, perhaps as the condition behind `extends`. -/
def operatorType (g : Rules) (m : Mode) (inCondition : Bool) : Nat → Parse (List Node)
  | 0 => failure
  | bound + 1 => do
    let _ ← repeated g.bound typeOperator?
    let infers ← if ← atWord "infer" then nextIs fun c => c.token.identifier?.isSome else pure false
    if infers then
      skip
      let id ← ident
      let more ← inferredBound? inCondition
        (joinedTypes g "|" (joinedTypes g "&" (operatorType g m inCondition bound)))
      return .name id :: more
    else if ← functionAhead g m then g.type m
    else arrayType g m

/-- A union of intersections, perhaps as the condition behind `extends`. -/
def unionType (g : Rules) (m : Mode) (inCondition : Bool) : Parse (List Node) :=
  joinedTypes g "|" (joinedTypes g "&" (operatorType g m inCondition g.bound))

/-- A type. -/
def type (g : Rules) (m : Mode) : Parse (List Node) := do
  if ← functionAhead g m then
    let _ ← word? "abstract"
    let _ ← word? "new"
    functionType g m
  else
    let names ← unionType g m false
    if (← atWord "extends") && !(← onNewLine) then
      skip
      let bound ← unionType g m true
      mark "?"
      let whenTrue ← g.type m
      mark ":"
      return names ++ bound ++ whenTrue ++ (← g.type m)
    else return names

end ParamLowering.Grammar
