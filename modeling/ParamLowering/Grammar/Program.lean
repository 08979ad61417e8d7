import ParamLowering.Grammar.Markup
import ParamLowering.Grammar.Statement
set_option autoImplicit false

/-!
Whole files: imports, exports and statements; and the record of productions tied to itself.

Every level of nesting in a text takes at least one character and passes through no more than
four of the recursive productions, so that the length of the text bounds how often the record
has to be tied.
-/

namespace ParamLowering.Grammar

open ParamLowering.Tree Parse

/-! ### Imports and exports -/

/-- A name, or a string in its place, which mentions no identifier. -/
def moduleName : Parse (List Ident) := do
  match ← token with
  | .string _ =>
    skip
    return []
  | _ => return [← anyName]

/-- The words that cannot be names in a module, beside those that can never be. -/
def reservedInModules : List String :=
  ["await", "enum", "implements", "interface", "let", "package", "private", "protected", "public",
   "yield"]

/-- Whether an import can bind a name without giving it another one. -/
def canBind (names : List Ident) : Bool :=
  !names.isEmpty && names.all fun id => !(Token.reserved ++ reservedInModules).contains id.name

/-- An imported or exported name with the name that it gets, both of them mentioned. A word `type`
may stand in front. What an import binds has to be a name. -/
def specifier (g : Rules) (m : Mode) (binds : Bool) : Parse (List Node) := do
  let names ← repeated g.bound do
    if (← token).isOneOf [",", closeBrace] then return none
    else return some ((← get), ← moduleName)
  let isAs (c : Cursor) : Bool := c.token.isWord "as"
  let isType (c : Cursor) : Bool := m.dialect.types && c.token.isWord "type"
  match names with
  | [(_, a)] =>
    require (!binds || canBind a)
    return a.map .name
  | [(t, _), (_, a)] =>
    require (isType t && (!binds || canBind a))
    return a.map .name
  | [(_, a), (s, _), (b, names)] =>
    require (isAs s && (!binds || b.token.identifier?.isSome))
    return (a ++ names).map .name
  | [(t, _), (_, a), (s, _), (b, names)] =>
    require (isType t && isAs s && (!binds || b.token.identifier?.isSome))
    return (a ++ names).map .name
  | _ => failure

/-- Names in braces. -/
def specifiers (g : Rules) (m : Mode) (binds : Bool) : Parse (List Node) := do
  mark openBrace
  return (← items g.bound closeBrace (specifier g m binds)).flatten

/-- The path of a module, with attributes where types are understood. -/
def modulePath (g : Rules) (m : Mode) : Parse (List Node) := do
  match ← token with
  | .string _ =>
    skip
    let attributed ← if !m.dialect.types then pure false
      else if ← atWord "with" then pure true
      else pure ((← atWord "assert") && !(← onNewLine))
    if attributed then
      skip
      return [(← objectLiteral g m).node]
    else return []
  | _ => failure

/-- `from` with the path of a module. -/
def fromModule (g : Rules) (m : Mode) : Parse (List Node) := do
  word "from"
  modulePath g m

/-- `* as name` -/
def wholeModule : Parse (List Node) := do
  mark "*"
  word "as"
  return [.name (← ident)]

/-- The names of an import behind its word. -/
def importClause (g : Rules) (m : Mode) : Parse (List Node) := do
  if ← atMark "*" then wholeModule
  else if ← atMark openBrace then specifiers g m true
  else
    let id ← ident
    if ← mark? "," then
      let more ← if ← atMark "*" then wholeModule else specifiers g m true
      return .name id :: more
    else return [.name id]

/-- What an import by `=` stands for. -/
def importedReference (g : Rules) : Parse (List Node) := do
  let calls ← if ← atWord "require" then nextIs fun c => c.token.isMark "(" else pure false
  if calls then
    skip
    mark "("
    let path ← token
    require (match path with | .string _ => true | _ => false)
    skip
    mark ")"
    return []
  else return [.name (← entityName g)]

/-- An import by `=`, if one follows. -/
def importEquals? (g : Rules) (m : Mode) (start : Nat) : Parse (Option Node) := do
  if !m.dialect.types || !(← token).identifier?.isSome then return none
  if !(← nextIs fun c => c.token.isMark "=") then return none
  let id ← ident
  mark "="
  let names ← importedReference g
  semicolon
  return some (← groupFrom start (.name id :: names))

/-- Skips `type` where it marks an import or export of types. -/
def typeOnly (m : Mode) : Parse Unit := do
  if m.dialect.types && (← atWord "type") then
    let marks ← nextIs fun c => c.token.isOneOf [openBrace, "*"] ||
      (c.token.identifier?.isSome && (!c.token.isWord "from" || c.next.token.isWord "from"))
    if marks then skip

/-- The rest of an import that names a module. -/
def importFrom (g : Rules) (m : Mode) (start : Nat) : Parse Node := do
  let names ← match ← token with
    | .string _ => modulePath g m
    | _ => do
      let names ← importClause g m
      pure (names ++ (← fromModule g m))
  semicolon
  groupFrom start names

def importDeclaration (g : Rules) (m : Mode) : Parse Node := do
  let at_ ← start
  word "import"
  typeOnly m
  match ← importEquals? g m at_ with
  | some node => return node
  | none => importFrom g m at_

/-- The rest of a default export. -/
def exportDefault (g : Rules) (m : Mode) : Parse Node := do
  let at_ ← start
  if ← atFunction then functionExpression g m signature
  else if ← atWord "class" then classExpression g m
  else match ← typeDeclaration? m with
    | some .abstractClass =>
      skip
      classExpression g m
    | some .interface => interface g m at_
    | _ =>
      let o ← g.assignment m
      semicolon
      return o.node

/-- An export that only types have, if one follows. -/
def typedExport? (g : Rules) (m : Mode) (start : Nat) : Parse (Option Node) := do
  if !m.dialect.types then return none
  else if ← mark? "=" then
    let value ← g.expression m
    semicolon
    return some value
  else if (← atWord "as") && (← nextIs fun c => c.token.isWord "namespace") then
    skip
    skip
    let id ← ident
    semicolon
    return some (.name id)
  else if ← word? "import" then
    typeOnly m
    match ← importEquals? g m start with
    | some node => return some node
    | none => failure
  else return none

/-- Names exported from here or from another module, if such an export follows. -/
def namedExport? (g : Rules) (m : Mode) (start : Nat) : Parse (Option Node) := do
  typeOnlyNames
  if ← mark? "*" then
    let names ← if ← word? "as" then pure ((← moduleName).map Node.name) else pure []
    let more ← fromModule g m
    semicolon
    return some (← groupFrom start (names ++ more))
  else if ← atMark openBrace then
    let names ← specifiers g m false
    let more ← if ← atWord "from" then fromModule g m else pure []
    semicolon
    return some (← groupFrom start (names ++ more))
  else return none
where
  typeOnlyNames : Parse Unit := do
    if m.dialect.types && (← atWord "type") then
      if ← nextIs fun c => c.token.isOneOf [openBrace, "*"] then skip

def exportDeclaration (g : Rules) (m : Mode) : Parse Node := do
  let at_ ← start
  word "export"
  if ← word? "default" then exportDefault g m
  else match ← typedExport? g m at_ with
    | some node => return node
    | none => match ← namedExport? g m at_ with
      | some node => return node
      | none =>
        if ← ambientAhead m then ambient g m
        else match ← declaration? g m (← start) with
          | some node => return node
          | none => failure

/-- A statement, an import or an export. -/
def item (g : Rules) (m : Mode) : Parse Node := do
  let m := m.inner
  if ← atWord "export" then exportDeclaration g m
  else if ← atWord "import" then
    if ← nextIs fun c => c.token.isOneOf ["(", "."] then g.statement m else importDeclaration g m
  else g.statement m

/-! ### Files -/

/-- The productions, tied `depth` times. -/
def rules (bound : Nat) : Nat → Rules
  | 0 => Rules.stuck
  | depth + 1 => {
      bound
      expression := fun m c => expression (rules bound depth) m c
      assignment := fun m c => assignment (rules bound depth) m c
      operand := fun m calls c => operand (rules bound depth) m calls c
      target := fun m c => target (rules bound depth) m c
      type := fun m c => type (rules bound depth) m c
      statement := fun m c => statement (rules bound depth) m c
      item := fun m c => item (rules bound depth) m c
      element := fun m p => markup (rules bound depth) m p }

/-- The statements of a file. -/
def program (g : Rules) (m : Mode) : Parse (List Node) :=
  repeated g.bound do
    if (← token) == .finish then return none else return some (← g.item m)

/-- Reads a file; nothing, if it cannot be read. -/
def parse (dialect : Dialect) (source : List Char) : Option (List Node) :=
  let length := source.length
  let g := rules (length + 2) (4 * length + 16)
  ((program g { dialect }).run (Cursor.ofSource source)).map (·.1)

end ParamLowering.Grammar
