import ParamLowering.NameSet
import ParamLowering.Tree
import ParamLowering.Warning
set_option autoImplicit false

/-!
Finding the functions of a file whose parameters may be lowered, together with all scopes and
all names of the file.

A function with a parameter list that cannot be lowered is left out with a warning. So is one
that stands inside the parameter list of a function to be lowered, because its text moves with
that list. Arrows, accessors and constructors get a scope and are never lowered.
-/

namespace ParamLowering

open ParamLowering.Tree

/-! ### Parameter lists -/

/-- A parameter list in the form that the lowering takes. -/
structure ParamList where
  params : List Param := []
  defaults : List DefaultValue := []
  rest : Option RestParam := none
  thisParam : Option Span := none

/-- A property of an object pattern, unless its value or its key is refused. -/
def PatternProperty.ofValue (key : Option PropertyKey) (value : Except SkipReason Pattern)
    (default : Option Span) : Except SkipReason PatternProperty :=
  match value with
  | .error r => .error r
  | .ok p => match key with
    | some key => .ok (.mk key p default)
    | none => .error .bigKey

/-- A place of an array pattern in front of the places after it. -/
def PatternElement.before (value : Except SkipReason Pattern) (default : Option Span)
    (later : Except SkipReason (List PatternElement × Option Pattern)) :
    Except SkipReason (List PatternElement × Option Pattern) :=
  match value with
  | .error r => .error r
  | .ok p => match later with
    | .error r => .error r
    | .ok (es, rest) => .ok (.item p default :: es, rest)

mutual
/-- A target as a pattern of the lowering. -/
def Tree.Target.pattern : Target → Except SkipReason Pattern
  | .name id .. => .ok (.ident id.name id.span)
  | .object span fields _ => match Field.properties fields with
    | .ok props => .ok (.object span props)
    | .error r => .error r
  | .array span slots _ => match Slot.elements slots none with
    | .ok (elements, rest) => .ok (.array span elements rest)
    | .error r => .error r
  | .rest .. | .withDefault .. | .undeclared _ => .error .unsupportedTarget
termination_by structural x => x

def Tree.Field.properties : List Field → Except SkipReason (List PatternProperty)
  | [] => .ok []
  | f :: fs => match f.property with
    | .error r => .error r
    | .ok p => match Field.properties fs with
      | .error r => .error r
      | .ok ps => .ok (p :: ps)
termination_by structural x => x

/-- A field as a property; its value is looked at before its key. -/
def Tree.Field.property : Field → Except SkipReason PatternProperty
  | .keyed key _ (.withDefault target value) =>
    PatternProperty.ofValue key target.pattern (some value.span)
  | .keyed key _ target => PatternProperty.ofValue key target.pattern none
  | .shorthand id default =>
    .ok (.mk (.ident id.name) (.ident id.name id.span) (default.map (·.span)))
  | .rest _ => .error .objectRest
termination_by structural x => x

/-- The elements of an array pattern and its rest element, of which the last one counts. -/
def Tree.Slot.elements : List Slot → Option Pattern →
    Except SkipReason (List PatternElement × Option Pattern)
  | [], rest => .ok ([], rest)
  | .hole :: ss, rest => match Slot.elements ss rest with
    | .error r => .error r
    | .ok (es, rest) => .ok (.hole :: es, rest)
  | .item (.rest _ target _) :: ss, _ => match target.pattern with
    | .error r => .error r
    | .ok p => Slot.elements ss (some p)
  | .item (.withDefault target value) :: ss, rest =>
    PatternElement.before target.pattern (some value.span) (Slot.elements ss rest)
  | .item target :: ss, rest =>
    PatternElement.before target.pattern none (Slot.elements ss rest)
termination_by structural x => x
end

namespace ParamList

/-- Adds a parameter. -/
def add (list : ParamList) (target : Target) : Except SkipReason ParamList :=
  match target with
  | .rest span (.name id ..) _ => .ok { list with rest := some ⟨id.name, span⟩ }
  | .rest .. => .error .restPattern
  | .withDefault inner value => match inner.pattern with
    | .error r => .error r
    | .ok p => .ok { list with
        params := list.params ++ [⟨p, inner.span⟩]
        defaults := list.defaults ++ [⟨value.span, value.name?⟩] }
  | target =>
    if !list.defaults.isEmpty then .error .plainAfterDefaulted
    else match target.pattern with
      | .error r => .error r
      | .ok p => .ok { list with params := list.params ++ [⟨p, target.span⟩] }

def addAll : ParamList → List Target → Except SkipReason ParamList
  | list, [] => .ok list
  | list, t :: ts => match list.add t with
    | .error r => .error r
    | .ok list => addAll list ts

/-- Reads a parameter list; a first parameter `this` exists for the type checker only. -/
def ofTargets : List Target → Except SkipReason ParamList
  | [] => .ok {}
  | .name id span notes :: ts =>
    if id.name = "this" then addAll { thisParam := some span } ts
    else addAll {} (.name id span notes :: ts)
  | ts => addAll {} ts

end ParamList

/-! ### The walk -/

/-- What is known on the way down. -/
structure Surroundings where
  /-- The number of the file in its run. -/
  file : Nat
  /-- The line of an offset. -/
  lineAt : Nat → Nat
  scope : ScopeId
  /-- Whether this is part of a parameter list that is going to be lowered. -/
  inParameters : Bool

/-- What was found so far. -/
structure Findings where
  scopes : ScopeRegistry
  names : NameSet
  /-- Warnings in the order they were raised. -/
  warnings : List Warning
  /-- Functions with their scopes, in the order they were met. -/
  found : List (FunctionNode × ScopeId)

namespace Findings

variable (st : Findings)

def record (name : String) : Findings := { st with names := st.names.add name }

def declare (scope : ScopeId) (kind : DeclarationKind) (position : Option Position)
    (id : Ident) : Findings :=
  { st with scopes := (st.scopes.declare scope id.name ⟨kind, id.span, position⟩).2 }

def declareAll (scope : ScopeId) (kind : DeclarationKind) (position : Option Position)
    (ids : List Ident) : Findings :=
  ids.foldl (fun st id => st.declare scope kind position id) st

/-- The findings with a new scope; its number is the number of scopes before. -/
def push (kind : ScopeKind) (parent : ScopeId) : Findings :=
  { st with scopes := (st.scopes.push kind parent).2 }

def skip (line : Nat) (function : Option String) (reason : SkipReason) : Findings :=
  { st with warnings :=
      st.warnings ++ [⟨line, .skippedFunction (function.getD "<anonymous>") reason.text⟩] }

/-- Declares the names of one parameter. -/
def declareParam (scope : ScopeId) (index : Nat) (target : Target) : Findings :=
  st.declareAll scope .param (some (target.position index)) target.bound

/-- Declares the parameters from `index` on. A function that is lowered declares what it moves
into its body itself, so that only its plain parameters are declared here. -/
def declareParams (scope : ScopeId) (lowered : Bool) : Nat → List Target → Findings → Findings
  | _, [], st => st
  | index, t :: ts, st =>
    declareParams scope lowered (index + 1) ts
      (if !lowered || t.isName then st.declareParam scope index t else st)

end Findings

/-- A function as the lowering sees it, still without a number of its own. -/
def Surroundings.functionNode (env : Surroundings) (name : Option String) (span : Span)
    (params : List Target) (bodySpan : Span) (body : List Node) :
    Except SkipReason FunctionNode :=
  (ParamList.ofTargets params).map fun list => {
    id := ⟨env.file, 0⟩
    name
    span
    line := env.lineAt span.start
    params := list.params
    defaults := list.defaults
    rest := list.rest
    thisParam := list.thisParam
    body := ⟨bodySpan, body.head?.map (·.span)⟩ }

/-- Whether a function that was read is going to be lowered. -/
def Surroundings.isLowered (env : Surroundings) (f : Except SkipReason FunctionNode) : Bool :=
  match f with
  | .error _ => false
  | .ok f => !env.inParameters && f.isModern

/-- Keeps a function for the lowering, or warns about it. -/
def Findings.note (st : Findings) (env : Surroundings) (name : Option String) (span : Span)
    (scope : ScopeId) (f : Except SkipReason FunctionNode) : Findings :=
  match f with
  | .error reason => st.skip (env.lineAt span.start) name reason
  | .ok f =>
    if !env.inParameters then { st with found := st.found ++ [(f, scope)] }
    else if f.isModern then st.skip (env.lineAt span.start) name .insideParameters
    else st

mutual
/-- Adds what a part of the tree holds. -/
def Tree.Node.collect (env : Surroundings) : Node → Findings → Findings
  | .name id, st => st.record id.name
  | .group _ parts, st => Node.collectAll env parts st
  | .functionName id, st =>
    (st.record id.name).declare (st.scopes.closestHoist env.scope) .function none id
  | .className id, st => (st.declare env.scope .classBinding none id).record id.name
  | .function name span params bodySpan body, st =>
    let scope := st.scopes.size
    let f := env.functionNode name span params bodySpan body
    let lowered := env.isLowered f
    let st := (st.push .function env.scope).note env name span scope f
    let st := Findings.declareParams scope lowered 0 params st
    let st := Target.collectAll { env with scope, inParameters := env.inParameters || lowered }
      params st
    Node.collectAll { env with scope } body st
  | .closure _ params body, st =>
    let scope := st.scopes.size
    let st := Target.collectParams { env with scope } 0 params (st.push .function env.scope)
    Node.collectAll { env with scope } body st
  | .block _ body, st =>
    Node.collectAll { env with scope := st.scopes.size } body (st.push .block env.scope)
  | .handler _ param body, st =>
    let scope := st.scopes.size
    let st := (st.push .block env.scope).declareAll scope .letBinding none
      (param.flatMap (·.bound))
    Node.collectAll { env with scope } body (Target.collectAll { env with scope } param st)
  | .declaration _ kind targets, st =>
    let scope := if kind = .var then st.scopes.closestHoist env.scope else env.scope
    Target.collectAll env targets (st.declareAll scope kind none (targets.flatMap (·.bound)))
termination_by structural x => x

def Tree.Node.collectAll (env : Surroundings) : List Node → Findings → Findings
  | [], st => st
  | n :: ns, st => Node.collectAll env ns (n.collect env st)
termination_by structural x => x

/-- Declares the parameters of a function that is never lowered, each right before its visit. -/
def Tree.Target.collectParams (env : Surroundings) : Nat → List Target → Findings → Findings
  | _, [], st => st
  | index, t :: ts, st =>
    Target.collectParams env (index + 1) ts (t.collect env (st.declareParam env.scope index t))
termination_by structural _ x => x

def Tree.Target.collectAll (env : Surroundings) : List Target → Findings → Findings
  | [], st => st
  | t :: ts, st => Target.collectAll env ts (t.collect env st)
termination_by structural x => x

def Tree.Target.collect (env : Surroundings) : Target → Findings → Findings
  | .name id _ notes, st => Node.collectAll env notes (st.record id.name)
  | .object _ fields notes, st => Node.collectAll env notes (Field.collectAll env fields st)
  | .array _ slots notes, st => Node.collectAll env notes (Slot.collectAll env slots st)
  | .rest _ target notes, st => Node.collectAll env notes (target.collect env st)
  | .withDefault target value, st => value.collect env (target.collect env st)
  | .undeclared target, st => target.collect env st
termination_by structural x => x

def Tree.Field.collectAll (env : Surroundings) : List Field → Findings → Findings
  | [], st => st
  | f :: fs, st => Field.collectAll env fs (f.collect env st)
termination_by structural x => x

def Tree.Field.collect (env : Surroundings) : Field → Findings → Findings
  | .keyed _ keyParts value, st => value.collect env (Node.collectAll env keyParts st)
  | .shorthand id none, st => st.record id.name
  | .shorthand id (some value), st => value.collect env (st.record id.name)
  | .rest target, st => target.collect env st
termination_by structural x => x

def Tree.Slot.collectAll (env : Surroundings) : List Slot → Findings → Findings
  | [], st => st
  | .hole :: ss, st => Slot.collectAll env ss st
  | .item target :: ss, st => Slot.collectAll env ss (target.collect env st)
termination_by structural x => x
end

/-! ### The result -/

/-- The functions of a file, and what was found beside them. -/
structure Discovery where
  /-- The functions by their place in the file. -/
  functions : List FunctionNode
  scopes : ScopeRegistry
  names : NameSet
  /-- Warnings in the order they were raised. -/
  warnings : List Warning

namespace Discovery

/-- Numbers functions from `next` on and gives each its scope. -/
def number (file : Nat) : Nat → List (FunctionNode × ScopeId) → ScopeRegistry →
    List FunctionNode × ScopeRegistry
  | _, [], scopes => ([], scopes)
  | next, (f, scope) :: more, scopes =>
    let (functions, scopes) := number file (next + 1) more (scopes.associate ⟨file, next⟩ scope)
    ({ f with id := ⟨file, next⟩ } :: functions, scopes)

/-- All that the statements of a file hold; `names` are the names taken before. -/
def ofStatements (file : Nat) (lineAt : Nat → Nat) (statements : List Node) (names : NameSet) :
    Discovery :=
  let env : Surroundings := ⟨file, lineAt, ScopeRegistry.moduleScope, false⟩
  let st := Node.collectAll env statements ⟨ScopeRegistry.initial, names, [], []⟩
  let sorted := Sorting.sort (fun a b => decide (a.1.span.start ≤ b.1.span.start)) st.found
  let (functions, scopes) := number file 0 sorted st.scopes
  ⟨functions, scopes, st.names, st.warnings⟩

end Discovery

end ParamLowering
