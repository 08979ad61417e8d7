import ParamLowering.LoweringError
import ParamLowering.NameSet
import ParamLowering.Pattern
import ParamLowering.Text.Quoted
set_option autoImplicit false

/-!
Taking a destructuring pattern apart.

Extraction turns a pattern and the expression it destructures into bindings, to be evaluated in
order, and definitions, to be evaluated after them. A nested leaf waits as a definition as long
as nothing is read after it; the next binding first turns all waiting definitions into bindings,
so that values are read in source order. Every intermediate value gets a fresh temporary.
-/

namespace ParamLowering

/-- The expression that a pattern destructures. -/
inductive SourceExpr where
  /-- Cheap and without effect, so that it may be repeated. -/
  | reference (text : String)
  /-- To be evaluated once, into a temporary. -/
  | compound (text : String)
  deriving DecidableEq, Repr

/-- The read of an argument of the running call. -/
def argumentRead (index : Nat) : String := s!"arguments[{index}]"

namespace SourceExpr

def argument (index : Nat) : SourceExpr := .reference (argumentRead index)

/-- An argument, or the default where the argument is missing. -/
def defaultedArgument (index : Nat) (default : String) : SourceExpr :=
  .compound s!"{argumentRead index} !== void 0 ? {argumentRead index} : {default}"

end SourceExpr

/-- How a value is read out of its container. -/
inductive Accessor where
  | property (name : String)
  | index (i : Nat)
  /-- The text of an expression that gives the key. -/
  | computed (expr : String)
  deriving DecidableEq, Repr

namespace Accessor

def isNameStart (c : Char) : Bool :=
  ('a' ≤ c && c ≤ 'z') || ('A' ≤ c && c ≤ 'Z') || c == '_' || c == '$'

def isNamePart (c : Char) : Bool := isNameStart c || ('0' ≤ c && c ≤ '9')

/-- Whether a text is an identifier of ASCII letters, digits, `_` and `$`. -/
def isAsciiName : List Char → Bool
  | [] => false
  | c :: cs => isNameStart c && cs.all isNamePart

/-- The suffix that reads the value: `.name`, `["a-b"]`, `[0]` or `[expr]`. -/
def render : Accessor → String
  | property name =>
    if isAsciiName name.toList then "." ++ name
    else "[" ++ String.ofList (Text.quoted name.toList) ++ "]"
  | index i => s!"[{i}]"
  | computed expr => "[" ++ expr ++ "]"

end Accessor

/-- The right side of a binding. -/
inductive Initializer where
  /-- An expression as it stands. -/
  | whole (text : String)
  /-- A value read out of a container. -/
  | read (base : String) (accessor : Accessor)
  /-- The value of a temporary, or a default where that is undefined. -/
  | guarded (temporary : String) (default : String)
  /-- The elements of a container from `count` on. -/
  | tail (base : String) (count : Nat)
  deriving DecidableEq, Repr

def Initializer.render : Initializer → String
  | whole text => text
  | read base accessor => base ++ accessor.render
  | guarded temporary default => s!"{temporary} === void 0 ? {default} : {temporary}"
  | tail base count => s!"[].slice.call({base}, {count})"

structure Binding where
  name : String
  kind : DeclarationKind := .var
  init : Initializer
  /-- Set to `null` again at the end of the declaration. -/
  needsCleanup : Bool := false
  /-- Not a name of the pattern. -/
  generated : Bool := false
  deriving DecidableEq, Repr

/-- Reads `accessor` out of `temporary` into `target`, after all bindings. -/
structure Definition where
  target : Pattern
  temporary : String
  accessor : Accessor

/-- What extraction gives: bindings in order, then definitions in order. -/
structure Extraction where
  bindings : List Binding := []
  definitions : List Definition := []

namespace Extraction

/-- The name that a definition fills, unless its target is not a name. -/
def simpleTarget (d : Definition) : Except LoweringError String :=
  match d.target with
  | .ident name _ => .ok name
  | .object .. | .array .. => .error (.targetNotSimple d.temporary)

/-- The waiting definitions as bindings. -/
def settled : List Definition → Except LoweringError (List Binding)
  | [] => .ok []
  | d :: ds => match simpleTarget d with
    | .error e => .error e
    | .ok name => match settled ds with
      | .error e => .error e
      | .ok bs => .ok ({ name, init := .read d.temporary d.accessor } :: bs)

/-- Adds a binding, behind all that waits. -/
def bind (x : Extraction) (b : Binding) : Except LoweringError Extraction :=
  match settled x.definitions with
  | .error e => .error e
  | .ok bs => .ok { bindings := x.bindings ++ bs ++ [b], definitions := [] }

/-- Lets a definition wait. -/
def defer (x : Extraction) (d : Definition) : Extraction :=
  { x with definitions := x.definitions ++ [d] }

end Extraction

/-- The names taken and the extraction so far. -/
structure ExtractionState where
  names : NameSet
  out : Extraction := {}

/-- A step of extraction. A step that fails still keeps the names it took. -/
abbrev Extracting := ExceptT LoweringError (StateM ExtractionState)

namespace Extracting

def bind (b : Binding) : Extracting Unit := do
  let s ← get
  match s.out.bind b with
  | .error e => throw e
  | .ok out => set { s with out }

def defer (d : Definition) : Extracting Unit :=
  modify fun s => { s with out := s.out.defer d }

/-- Binds a fresh temporary and gives its name. -/
def temporary (stem : String) (init : Initializer) : Extracting String := do
  let s ← get
  let (name, names) := s.names.fresh stem
  set { s with names }
  Extracting.bind { name, init, needsCleanup := true, generated := true }
  return name

end Extracting

/-- Where extraction takes default and key texts from, and how it calls its temporaries. -/
structure ExtractionContext where
  source : List Char
  stem : String

namespace ExtractionContext

variable (cx : ExtractionContext)

def slice (range : Span) : Extracting String :=
  match range.textOrError cx.source with
  | .ok text => return text
  | .error e => throw e

def accessorOf : PropertyKey → Extracting Accessor
  | .ident name | .str name => return .property name
  | .num text => return .computed text
  | .computed expr => return .computed (← cx.slice expr)

/-- The temporary that holds a value, or its default where the value is undefined. -/
def guarded (t : String) : Option Span → Extracting String
  | none => return t
  | some range => do
    let text ← cx.slice range
    Extracting.temporary cx.stem (.guarded t text)

/-- Extracts one value out of its container. A leaf is bound at once at the top and may wait
below it; a pattern gets a temporary, from which `inside` goes on. -/
def element (base : String) (top : Bool) (accessor : Accessor) (value : Pattern)
    (default : Option Span) (inside : String → Extracting Unit) : Extracting Unit :=
  match value, default with
  | .ident name span, none =>
    if top then Extracting.bind { name, init := .read base accessor }
    else Extracting.defer { target := .ident name span, temporary := base, accessor }
  | .ident name _, some range => do
    let text ← cx.slice range
    let t ← Extracting.temporary cx.stem (.read base accessor)
    Extracting.bind { name, init := .guarded t text }
  | .object .., default | .array .., default => do
    let t ← Extracting.temporary cx.stem (.read base accessor)
    inside (← cx.guarded t default)

/-- Extracts what remains of an array. -/
def remainder (base : String) (count : Nat) (value : Pattern)
    (inside : String → Extracting Unit) : Extracting Unit :=
  match value with
  | .ident name _ => Extracting.bind { name, init := .tail base count }
  | .object .. | .array .. => do
    inside (← Extracting.temporary cx.stem (.tail base count))

mutual
/-- Extracts a pattern whose value is `base`. -/
def parts (base : String) (top : Bool) : Pattern → Extracting Unit
  | .ident name _ => Extracting.bind { name, init := .whole base }
  | .object _ props => properties base top props
  | .array _ elements none => items base top 0 elements
  | .array _ elements (some rest) => do
    items base top 0 elements
    cx.remainder base elements.length rest fun t => parts t false rest

def properties (base : String) (top : Bool) : List PatternProperty → Extracting Unit
  | [] => return
  | .mk key value default :: props => do
    let accessor ← cx.accessorOf key
    cx.element base top accessor value default fun t => parts t false value
    properties base top props

/-- The places of an array from `index` on. -/
def items (base : String) (top : Bool) (index : Nat) : List PatternElement → Extracting Unit
  | [] => return
  | .hole :: elements => items base top (index + 1) elements
  | .item value default :: elements => do
    cx.element base top (.index index) value default fun t => parts t false value
    items base top (index + 1) elements
end

/-- The text to read the value of a source expression from, as often as needed. -/
def baseOf : SourceExpr → Extracting String
  | .reference text => return text
  | .compound text => Extracting.temporary cx.stem (.whole text)

/-- Extracts a pattern from a source expression. -/
def extract (pattern : Pattern) (source : SourceExpr) : Extracting Unit := do
  cx.parts (← cx.baseOf source) true pattern

end ExtractionContext

/-- A way to take patterns apart, with a state of its own. The names taken and the state are
given back also on failure. -/
structure Extractor (σ : Type) where
  run : Pattern → SourceExpr → NameSet → σ → Except LoweringError Extraction × NameSet × σ

/-- Extraction by the rules of this module; it has no state of its own. -/
def ExtractionContext.extractor (cx : ExtractionContext) : Extractor Unit where
  run pattern source names _ :=
    match (cx.extract pattern source).run.run { names } with
    | (.ok (), s) => (.ok s.out, s.names, ())
    | (.error e, s) => (.error e, s.names, ())

/-- An extractor that gives prepared answers one after another, and empty ones at the end. -/
def scriptedExtractor : Extractor (List Extraction) where
  run _ _ names
    | [] => (.ok {}, names, [])
    | x :: xs => (.ok x, names, xs)

end ParamLowering
