import ParamLowering.Edit
import ParamLowering.Layout
import ParamLowering.Lowering.Declaration
import ParamLowering.Warning
set_option autoImplicit false

/-!
Lowering the parameters of one function.

Patterns, defaults and the rest parameter leave the parameter list and come back as statements
at the start of the body that read `arguments`. Each replaced parameter gives one insertion at
the anchor and one removal. What a function declares and warns about stays even if the function
fails later; its edits do not.
-/

namespace ParamLowering

structure LoweringOptions where
  /-- The stem of temporaries and placeholders. -/
  stem : String := "$D"
  /-- Whether temporaries are set to `null` after use. -/
  cleanup : Bool := true
  deriving DecidableEq, Repr

/-- What a pass changes besides its edits; `σ` is the state of the extractor. -/
structure PassState (σ : Type) where
  scopes : ScopeRegistry
  names : NameSet
  /-- Warnings in the order they were raised. -/
  warnings : List Warning
  extractor : σ

/-- What a pass works with. -/
structure PassContext (σ : Type) where
  source : List Char
  options : LoweringOptions
  extractor : Extractor σ

/-- A step of a pass. A step that fails keeps what it changed before. -/
abbrev Lower (σ : Type) := ExceptT LoweringError (StateM (PassState σ))

/-- One replaced parameter. -/
structure Replacement where
  position : Position
  /-- The statement for the body. -/
  prologue : String
  /-- What happens to the parameter list. -/
  removal : Edit
  /-- The user's names that the statement declares. -/
  registered : List String

/-- What a pass did to a function. -/
structure Outcome where
  /-- The positional parameters replaced, in order. -/
  replaced : List Nat := []
  restReplaced : Bool := false
  /-- The user's names declared by generated statements, in order. -/
  registered : List String := []
  edits : List Edit := []

namespace Outcome

def isUnchanged (o : Outcome) : Bool := o.edits.isEmpty

end Outcome

/-- A function together with its layout and the scope of its `var` declarations. -/
structure Subject where
  function : FunctionNode
  layout : Layout
  hoist : ScopeId

namespace Subject

variable (s : Subject)

/-- A deletion. One that reaches the end of the list also takes a trailing comma. -/
def remove (start stop : Nat) : Edit :=
  let stop := match s.layout.trailingComma with
    | some comma => if s.layout.listEnd = some stop then comma.stop else stop
    | none => stop
  Edit.delete ⟨start, stop⟩ .removal

/-- The end of the list element before a positional parameter. -/
def previousEnd : Nat → Option Nat
  | 0 => s.function.thisParam.map (·.stop)
  | index + 1 => s.function.params[index]?.map (·.span.stop)

/-- Whether a later parameter without a default keeps its name, and with it the slots before. -/
def keepsSlot (index : Nat) : Bool :=
  ((s.function.params.take s.layout.firstDefault).drop (index + 1)).any
    (!·.pattern.isDestructuring)

end Subject

namespace Lower

variable {σ : Type}

/-- Declares a user's name in the scope of the function and takes it. -/
def register (hoist : ScopeId) (origin : Span) (position : Position) (name : String) :
    Lower σ Unit :=
  modify fun st => { st with
    scopes := (st.scopes.declare hoist name ⟨.var, origin, some position⟩).2
    names := st.names.add name }

def registerAll (hoist : ScopeId) (origin : Span) (position : Position) (names : List String) :
    Lower σ Unit :=
  names.forM (register hoist origin position)

def warn (line : Nat) (kind : WarningKind) : Lower σ Unit :=
  modify fun st => { st with warnings := st.warnings ++ [⟨line, kind⟩] }

/-- Takes a pattern apart by the extractor of the pass. -/
def extract (cx : PassContext σ) (pattern : Pattern) (source : SourceExpr) :
    Lower σ Extraction := do
  let st ← get
  let (answer, names, extractor) := cx.extractor.run pattern source st.names st.extractor
  set { st with names, extractor }
  MonadExcept.ofExcept answer

/-- A fresh parameter name for a slot that has to stay. -/
def placeholder (cx : PassContext σ) (hoist : ScopeId) (origin : Span) (index : Nat) :
    Lower σ String := do
  let st ← get
  let (name, names) := st.names.fresh cx.options.stem
  set { st with
    names
    scopes := (st.scopes.declare hoist name ⟨.param, origin, some (.index index)⟩).2 }
  return name

/-- What happens to a pattern in the list: a placeholder where the slot has to stay, or a
removal from the end of the element before. -/
def destructuredRemoval (cx : PassContext σ) (s : Subject) (index : Nat) (param : Param) :
    Lower σ Edit :=
  if s.keepsSlot index then do
    let name ← placeholder cx s.hoist param.span index
    return Edit.replace param.span name .removal
  else
    return s.remove ((s.previousEnd index).getD param.span.start) param.span.stop

/-- Replaces a pattern without a default. -/
def destructured (cx : PassContext σ) (s : Subject) (index : Nat) (param : Param) :
    Lower σ Replacement := do
  let x ← extract cx param.pattern (.argument index)
  let prologue ← MonadExcept.ofExcept (x.declaration s.layout.indent cx.options.cleanup)
  registerAll s.hoist param.span (.index index) x.leafNames
  let removal ← destructuredRemoval cx s index param
  return { position := .index index, prologue, removal, registered := x.leafNames }

/-- Replaces the patterns among the parameters from `index` on. -/
def destructuredFrom (cx : PassContext σ) (s : Subject) :
    Nat → List Param → Lower σ (List Replacement)
  | _, [] => return []
  | index, param :: params =>
    if param.pattern.isDestructuring then do
      let r ← destructured cx s index param
      return r :: (← destructuredFrom cx s (index + 1) params)
    else destructuredFrom cx s (index + 1) params

/-- The statement for a defaulted parameter and the names that it declares. -/
def defaultedPrologue (cx : PassContext σ) (s : Subject) (index : Nat) (param : Param)
    (default : DefaultValue) : Lower σ (String × List String) := do
  let text ← MonadExcept.ofExcept (default.span.textOrError cx.source)
  match param.pattern with
  | .ident name _ => do
    if default.ident = some name then
      warn s.function.line (.selfReferentialDefault name)
    register s.hoist default.span (.index index) name
    return (s!"var {name} = {argumentRead index}; if ({name} === void 0) {name} = {text};{s.layout.indent}",
      [name])
  | .object .. | .array .. => do
    let x ← extract cx param.pattern (.defaultedArgument index text)
    registerAll s.hoist default.span (.index index) x.leafNames
    let prologue ← MonadExcept.ofExcept (x.declaration s.layout.indent cx.options.cleanup)
    return (prologue, x.leafNames)

/-- Replaces a parameter with a default. The removal begins after whichever ended last, the
previous parameter or the previous default. -/
def defaulted (cx : PassContext σ) (s : Subject) (index : Nat) (param : Param)
    (default : DefaultValue) (previousDefault : Option Nat) : Lower σ Replacement := do
  let (prologue, registered) ← defaultedPrologue cx s index param default
  let start := match s.previousEnd index, previousDefault with
    | some a, some b => max a b
    | some a, none => a
    | none, some b => b
    | none, none => param.span.start
  let removal := s.remove start default.span.stop
  return { position := .index index, prologue, removal, registered }

/-- Replaces the parameters with defaults from `index` on. -/
def defaultedFrom (cx : PassContext σ) (s : Subject) :
    Nat → Option Nat → List (Param × DefaultValue) → Lower σ (List Replacement)
  | _, _, [] => return []
  | index, previousDefault, (param, default) :: more => do
    let r ← defaulted cx s index param default previousDefault
    return r :: (← defaultedFrom cx s (index + 1) (some default.span.stop) more)

/-- Replaces the rest parameter, which slices off every positional argument. -/
def restReplacement (s : Subject) : Lower σ (List Replacement) :=
  match s.function.rest with
  | none => return []
  | some rest => do
    register s.hoist rest.span .rest rest.name
    let previous := (s.function.defaults.getLast?.map (·.span.stop)).or
      ((s.function.params.getLast?.map (·.span.stop)).or (s.function.thisParam.map (·.stop)))
    return [{
      position := .rest
      prologue := s!"var {rest.name} = [].slice.call(arguments, {s.layout.paramCount});{s.layout.indent}"
      removal := s.remove (previous.getD rest.span.start) rest.span.stop
      registered := [rest.name] }]

/-- All replacements of a function, in the order of its parameters. -/
def replacements (cx : PassContext σ) (s : Subject) : Lower σ (List Replacement) := do
  let plain := s.function.params.take s.layout.firstDefault
  let rest := s.function.params.drop s.layout.firstDefault
  let first ← destructuredFrom cx s 0 plain
  let second ← defaultedFrom cx s s.layout.firstDefault none (rest.zip s.function.defaults)
  let third ← restReplacement s
  return first ++ second ++ third

end Lower

/-- The edits of one replacement. -/
def Replacement.edits (anchor : Nat) (r : Replacement) : List Edit :=
  [Edit.insertAt anchor r.prologue .prologue, r.removal]

/-- The index of a replaced positional parameter. -/
def Position.index? : Position → Option Nat
  | .index i => some i
  | .rest => none

def Outcome.ofReplacements (anchor : Nat) (rs : List Replacement) : Outcome where
  replaced := rs.filterMap (·.position.index?)
  restReplaced := rs.any fun r => r.position == .rest
  registered := rs.flatMap (·.registered)
  edits := rs.flatMap (·.edits anchor)

/-- Lowers the parameters of a function. A function whose layout is sound and whose parameters
are plain is left alone, whether it has a scope or not. -/
def lowerFunction {σ : Type} (cx : PassContext σ) (f : FunctionNode) : Lower σ Outcome := do
  let layout ← MonadExcept.ofExcept (Layout.ofFunction f cx.source)
  if !f.isModern then
    return {}
  let st ← get
  match st.scopes.scopeOf? f.id with
  | none => throw (.missingScope f.line)
  | some scope =>
    let rs ← Lower.replacements cx ⟨f, layout, st.scopes.closestHoist scope⟩
    return .ofReplacements layout.anchor rs

end ParamLowering
