import ParamLowering.Grammar.Expression
set_option autoImplicit false

/-! Statements, and the declarations that types bring with them. -/

namespace ParamLowering.Grammar

open ParamLowering.Tree Parse

/-- A construct that began at an offset and ends here. -/
def groupFrom (start : Nat) (parts : List Node) : Parse Node :=
  return .group (← spanFrom start) parts

/-- Whether a statement ends here. -/
def atStatementEnd : Parse Bool := do
  let c ← get
  return c.broken || c.token == .finish || c.token.isOneOf [";", closeBrace]

/-! ### Variables -/

/-- A variable with its value. Only `var` may bind the name `let`. -/
def declarator (g : Rules) (m : Mode) (kind : DeclarationKind) : Parse Target := do
  require (kind == .var || !(← atWord "let"))
  let target ← typedTarget g m.inner "!"
  if ← mark? "=" then return .withDefault target (← g.assignment m).node
  return target

def declarators (g : Rules) (m : Mode) (kind : DeclarationKind) : Parse (List Target) :=
  separated g.bound "," (declarator g m kind)

/-- Whether a token can begin what a declaration binds. -/
def startsTarget (t : Token) : Bool := t.identifier?.isSome || t.isOneOf ["[", openBrace]

/-- The kind of the declaration of variables that begins here. A single statement declares none
for its block. -/
def variableKind? (m : Mode) : Parse (Option DeclarationKind) := do
  if ← atWord "var" then return some .var
  else if m.single then return none
  else if ← atWord "const" then return some .constBinding
  else if (← atWord "let") && (← nextIs fun c => startsTarget c.token) then return some .letBinding
  else return none

/-- Whether `using` begins a declaration of resources. -/
def resourcesAhead (m : Mode) : Parse Bool := do
  if !m.dialect.types || m.single then return false
  let c ← get
  let c := if c.token.isWord "await" && !c.next.broken then c.next else c
  let next := c.next
  return c.token.isWord "using" && !next.broken && next.token.identifier?.isSome &&
    (!next.token.isWord "of" || next.next.token.isOneOf ["=", ":", ";"])

/-- Resources, which declare nothing. -/
def resources (g : Rules) (m : Mode) : Parse Node := do
  let at_ ← start
  let _ ← word? "await"
  word "using"
  let targets ← declarators g m .var
  return .declaration (← spanFrom at_) .constBinding (targets.map .undeclared)

/-- Variables without the end of the statement, if a declaration begins here. -/
def variableList? (g : Rules) (m : Mode) : Parse (Option Node) := do
  if ← resourcesAhead m then return some (← resources g m)
  match ← variableKind? m with
  | some kind =>
    let at_ ← start
    skip
    let targets ← declarators g m kind
    return some (.declaration (← spanFrom at_) kind targets)
  | none => return none

/-- The node of a declaration with its place widened to the whole statement. -/
def widened (node : Node) (span : Span) : Node :=
  match node with
  | .declaration _ kind targets => .declaration span kind targets
  | node => node

/-- Passes over what stands between the variables of a declaration and the end of its statement. -/
def passLeftover (g : Rules) (m : Mode) : Parse Unit := do
  if ← atStatementEnd then return
  let _ ← attempt (g.expression m)
  let _ ← repeated g.bound do
    if ← atStatementEnd then return none
    require ((← token) != .stray)
    skip
    return some ()

/-- A declaration of variables as a statement that began at an offset. -/
def variableStatement (g : Rules) (m : Mode) (start : Nat) : Parse Node := do
  match ← variableList? g m with
  | some node =>
    passLeftover g m
    semicolon
    return widened node (← spanFrom start)
  | none => failure

/-! ### Control flow -/

def expressionInParentheses (g : Rules) (m : Mode) : Parse Node := do
  mark "("
  let node ← g.expression m
  mark ")"
  return node

/-- The statement that another one ends with. -/
def single (g : Rules) (m : Mode) : Parse Node := g.statement { m with single := true }

def block (g : Rules) (m : Mode) : Parse Node := do
  let b ← body g m
  return .block b.span b.statements

def ifStatement (g : Rules) (m : Mode) : Parse Node := do
  let at_ ← start
  word "if"
  let test ← expressionInParentheses g m
  let whenTrue ← single g m
  if ← word? "else" then
    let whenFalse ← single g m
    groupFrom at_ [test, whenTrue, whenFalse]
  else groupFrom at_ [test, whenTrue]

/-- An expression, unless the given sign stands there. -/
def expressionUnless (g : Rules) (m : Mode) (sign : String) : Parse (List Node) := do
  if ← atMark sign then return [] else return [← g.expression m]

/-- What stands in the head of a loop behind its first part. -/
def loopRest (g : Rules) (m : Mode) : Parse (List Node) := do
  if ← word? "of" then return [(← g.assignment m).node]
  else if ← word? "in" then return [← g.expression m]
  else
    mark ";"
    let test ← expressionUnless g m ";"
    mark ";"
    return test ++ (← expressionUnless g m ")")

def forStatement (g : Rules) (m : Mode) : Parse Node := do
  let at_ ← start
  word "for"
  let _ ← word? "await"
  mark "("
  let first ← if ← atMark ";" then pure [] else do
    match ← variableList? g { m with noIn := true } with
    | some node => pure [node]
    | none => pure [← g.expression { m with noIn := true }]
  let rest ← loopRest g m
  mark ")"
  let inner ← single g m
  groupFrom at_ (first ++ rest ++ [inner])

def whileStatement (g : Rules) (m : Mode) : Parse Node := do
  let at_ ← start
  word "while"
  let test ← expressionInParentheses g m
  let inner ← single g m
  groupFrom at_ [test, inner]

/-- The test of a loop that ends with it is visited first. -/
def doStatement (g : Rules) (m : Mode) : Parse Node := do
  let at_ ← start
  word "do"
  let inner ← single g m
  word "while"
  let test ← expressionInParentheses g m
  let _ ← mark? ";"
  groupFrom at_ [test, inner]

/-- A case of a `switch` with its statements. -/
def switchCase? (g : Rules) (m : Mode) : Parse (Option (List Node)) := do
  if ← mark? closeBrace then return none
  let test ← if ← word? "default" then pure [] else do
    word "case"
    pure [← g.expression m]
  mark ":"
  let inner ← repeated g.bound do
    if (← atMark closeBrace) || (← atWord "case") || (← atWord "default") then return none
    else return some (← g.statement m)
  return some (test ++ inner)

def switchStatement (g : Rules) (m : Mode) : Parse Node := do
  let at_ ← start
  word "switch"
  let value ← expressionInParentheses g m
  mark openBrace
  let cases ← repeated g.bound (switchCase? g m)
  groupFrom at_ (value :: cases.flatten)

def handler? (g : Rules) (m : Mode) : Parse (List Node) := do
  let at_ ← start
  if ← word? "catch" then
    let param ← if ← mark? "(" then do
        let target ← typedTarget g m "?"
        mark ")"
        pure [target]
      else pure []
    let b ← body g m
    return [.handler (← spanFrom at_) param b.statements]
  else return []

def tryStatement (g : Rules) (m : Mode) : Parse Node := do
  let at_ ← start
  word "try"
  let inner ← block g m
  let handlers ← handler? g m
  let last ← if ← word? "finally" then pure [← block g m] else pure []
  groupFrom at_ (inner :: handlers ++ last)

def returnStatement (g : Rules) (m : Mode) : Parse Node := do
  let at_ ← start
  skip
  let value ← if ← atStatementEnd then pure [] else pure [← g.expression m]
  semicolon
  groupFrom at_ value

def throwStatement (g : Rules) (m : Mode) : Parse Node := do
  let at_ ← start
  skip
  require (!(← onNewLine))
  let value ← g.expression m
  semicolon
  groupFrom at_ [value]

/-- `break` or `continue`, perhaps with a label. -/
def jumpStatement : Parse Node := do
  let at_ ← start
  skip
  let label ← if ← atStatementEnd then pure [] else pure [Node.name (← ident)]
  semicolon
  groupFrom at_ label

def withStatement (g : Rules) (m : Mode) : Parse Node := do
  let at_ ← start
  word "with"
  let value ← expressionInParentheses g m
  let inner ← single g m
  groupFrom at_ [value, inner]

def labelled (g : Rules) (m : Mode) : Parse Node := do
  let at_ ← start
  let id ← ident
  mark ":"
  let inner ← single g m
  groupFrom at_ [.name id, inner]

def expressionStatement (g : Rules) (m : Mode) : Parse Node := do
  let at_ ← start
  let node ← g.expression m
  semicolon
  groupFrom at_ [node]

/-! ### Declarations of types -/

/-- `type name = …` -/
def typeAlias (g : Rules) (m : Mode) (start : Nat) : Parse Node := do
  word "type"
  let id ← ident
  let own ← typeParameters? g m
  mark "="
  let names ← g.type m
  semicolon
  groupFrom start (.name id :: own ++ names)

def interface (g : Rules) (m : Mode) (start : Nat) : Parse Node := do
  word "interface"
  let id ← ident
  let own ← typeParameters? g m
  let bases ← heritage? g m "extends"
  let members ← typeMembers g m
  groupFrom start (.name id :: own ++ bases ++ members)

def enumMember (g : Rules) (m : Mode) : Parse (List Node) := do
  let names ← match ← key g m with
    | .ident id => pure [.name id]
    | .hidden _ => failure
    | k => pure k.parts
  if ← mark? "=" then return names ++ [(← g.assignment m).node] else return names

def enumDeclaration (g : Rules) (m : Mode) (start : Nat) : Parse Node := do
  word "enum"
  let id ← ident
  mark openBrace
  let members ← items g.bound closeBrace (enumMember g m)
  groupFrom start (.name id :: members.flatten)

/-- Statements, imports and exports in braces; a namespace opens no scope. -/
def namespaceBody (g : Rules) (m : Mode) : Parse (List Node) := do
  mark openBrace
  repeated g.bound do
    if ← blockEnd? then return none else return some (← g.item m)

/-- A namespace or module, from its word on. -/
def namespaceDeclaration (g : Rules) (m : Mode) (start : Nat) : Parse Node := do
  skip
  match ← token with
  | .string _ =>
    skip
    let inner ← if ← atMark openBrace then namespaceBody g m else do
      semicolon
      pure []
    groupFrom start inner
  | _ =>
    let names ← separated g.bound "." ident
    let inner ← namespaceBody g m
    groupFrom start (names.map .name ++ inner)

/-- Additions to the global names. -/
def globalDeclaration (g : Rules) (m : Mode) (start : Nat) : Parse Node := do
  let id ← ident
  let inner ← namespaceBody g m
  groupFrom start (.name id :: inner)

/-- What a word announces that declares something for the type checker. -/
inductive TypeDeclaration where
  | typeAlias
  | interface
  | enumeration
  | constantEnumeration
  | namespaceBlock
  | abstractClass
  deriving DecidableEq, Repr

/-- The declaration that begins here, if types are understood. -/
def typeDeclaration? (m : Mode) : Parse (Option TypeDeclaration) := do
  if !m.dialect.types then return none
  match ← token with
  | .word "type" false =>
    return if ← nextOnLineIs (·.identifier?.isSome) then some .typeAlias else none
  | .word "interface" false =>
    return if ← nextOnLineIs (·.identifier?.isSome) then some .interface else none
  | .word "enum" false => return some .enumeration
  | .word "const" false =>
    return if ← nextIs (·.token.isWord "enum") then some .constantEnumeration else none
  | .word "namespace" false =>
    return if ← nextOnLineIs (·.identifier?.isSome) then some .namespaceBlock else none
  | .word "module" false =>
    return if ← nextOnLineIs fun t => t.identifier?.isSome || (match t with
      | .string _ => true
      | _ => false) then some .namespaceBlock else none
  | .word "abstract" false =>
    return if ← nextOnLineIs (·.isWord "class") then some .abstractClass else none
  | _ => return none

def typeDeclaration (g : Rules) (m : Mode) (start : Nat) : TypeDeclaration → Parse Node
  | .typeAlias => typeAlias g m start
  | .interface => interface g m start
  | .enumeration => enumDeclaration g m start
  | .constantEnumeration => do
    skip
    enumDeclaration g m start
  | .namespaceBlock => namespaceDeclaration g m start
  | .abstractClass => do
    skip
    classDeclaration g m start

/-! ### Statements -/

/-- A declaration that began at an offset, if one begins here. -/
def declaration? (g : Rules) (m : Mode) (start : Nat) : Parse (Option Node) := do
  match ← typeDeclaration? m with
  | some kind => return some (← typeDeclaration g m start kind)
  | none =>
    if (← resourcesAhead m) || (← variableKind? m).isSome then
      return some (← variableStatement g m start)
    else if ← atFunction then return some (← functionDeclaration g m start)
    else if ← atWord "class" then return some (← classDeclaration g m start)
    else return none

/-- Whether `declare` stands in front of a declaration. -/
def ambientAhead (m : Mode) : Parse Bool := do
  if m.dialect.types && (← atWord "declare") then
    nextOnLineIs fun t => match t with
      | .word w false => ["var", "let", "const", "function", "async", "class", "abstract", "enum",
          "type", "interface", "namespace", "module", "global", "using"].contains w
      | _ => false
  else return false

/-- A declaration without an implementation. -/
def ambient (g : Rules) (m : Mode) : Parse Node := do
  let at_ ← start
  word "declare"
  if ← atWord "global" then globalDeclaration g m at_
  else match ← declaration? g m at_ with
    | some node => return node
    | none => failure

/-- A statement that begins with a certain word. -/
def wordStatement? (g : Rules) (m : Mode) (name : String) : Parse (Option Node) := do
  if name == "if" then return some (← ifStatement g m)
  else if name == "for" then return some (← forStatement g m)
  else if name == "while" then return some (← whileStatement g m)
  else if name == "do" then return some (← doStatement g m)
  else if name == "switch" then return some (← switchStatement g m)
  else if name == "try" then return some (← tryStatement g m)
  else if name == "return" then return some (← returnStatement g m)
  else if name == "throw" then return some (← throwStatement g m)
  else if name == "break" || name == "continue" then return some (← jumpStatement)
  else if name == "with" then return some (← withStatement g m)
  else if name == "debugger" then
    let at_ ← start
    skip
    semicolon
    return some (← groupFrom at_ [])
  else return none

/-- A statement that does not begin with a word that announces it. -/
def otherStatement (g : Rules) (m : Mode) : Parse Node := do
  if ← ambientAhead m then ambient g m
  else match ← declaration? g m (← start) with
    | some node => return node
    | none =>
      if (← token).identifier?.isSome && (← nextIs fun c => c.token.isMark ":") then
        labelled g m.inner
      else expressionStatement g m.inner

def statement (g : Rules) (m : Mode) : Parse Node := do
  let single := m.single
  let m := m.inner
  match ← token with
  | .mark ";" =>
    let at_ ← start
    skip
    groupFrom at_ []
  | .mark "\x7b" => block g m
  | .word name false =>
    match ← wordStatement? g m name with
    | some node => return node
    | none => otherStatement g { m with single }
  | _ => otherStatement g { m with single }

end ParamLowering.Grammar
