import ParamLowering.Span
set_option autoImplicit false

/-!
Scopes and what they declare.

A registry holds the scopes of one file in the order of their creation. A scope is named by its
place in that order; place 0 is the module scope, and every other scope names a parent. The first
declaration of a name in a scope stays.
-/

namespace ParamLowering

/-- The place of a scope in its registry. -/
abbrev ScopeId := Nat

inductive ScopeKind where
  | module
  | function
  | block
  deriving DecidableEq, Repr

/-- Whether `var` declarations come to rest in scopes of this kind. -/
def ScopeKind.isHoist : ScopeKind → Bool
  | .module | .function => true
  | .block => false

inductive DeclarationKind where
  | var
  | letBinding
  | constBinding
  | function
  | classBinding
  | param
  deriving DecidableEq, Repr

/-- Where in a parameter list a declared name gets its value. -/
inductive Position where
  | index (i : Nat)
  | rest
  deriving DecidableEq, Repr

structure Declaration where
  kind : DeclarationKind
  origin : Span
  position : Option Position
  deriving DecidableEq, Repr

/-- Names a function: the number of its file in the run, and its own number in the file. -/
structure FunctionId where
  file : Nat
  index : Nat
  deriving DecidableEq, Repr, Inhabited

structure Scope where
  kind : ScopeKind
  parent : Option ScopeId
  /-- Declared names, oldest first. -/
  bindings : List (String × Declaration) := []
  deriving Repr

namespace Scope

def get? (s : Scope) (name : String) : Option Declaration := s.bindings.lookup name

/-- The scope with one more declaration; a name that it has already stays as it is. -/
def declare (s : Scope) (name : String) (d : Declaration) : Scope :=
  if (s.get? name).isSome then s else { s with bindings := s.bindings ++ [(name, d)] }

end Scope

structure ScopeRegistry where
  /-- All scopes, oldest first. -/
  scopes : List Scope
  /-- Which scope belongs to which function, latest first. -/
  owners : List (FunctionId × ScopeId)
  deriving Repr

namespace ScopeRegistry

/-- Only the module scope. -/
def initial : ScopeRegistry := ⟨[⟨.module, none, []⟩], []⟩

def moduleScope : ScopeId := 0

def size (r : ScopeRegistry) : Nat := r.scopes.length

/-- A new scope below `parent`. -/
def push (r : ScopeRegistry) (kind : ScopeKind) (parent : ScopeId) : ScopeId × ScopeRegistry :=
  (r.scopes.length, { r with scopes := r.scopes ++ [⟨kind, some parent, []⟩] })

/-- The declaration of a name in one scope, its parents left out. -/
def get? (r : ScopeRegistry) (id : ScopeId) (name : String) : Option Declaration :=
  r.scopes[id]?.bind (·.get? name)

/-- Declares a name in a scope; says whether it was new there. -/
def declare (r : ScopeRegistry) (id : ScopeId) (name : String) (d : Declaration) :
    Bool × ScopeRegistry :=
  ((r.get? id name).isNone, { r with scopes := r.scopes.modify id (·.declare name d) })

/-- The first `steps` scopes met on the way up from a scope, that scope first. -/
def chainUpTo (r : ScopeRegistry) : Nat → ScopeId → List ScopeId
  | 0, _ => []
  | steps + 1, id => match r.scopes[id]? with
    | none => []
    | some s => id :: (match s.parent with
      | none => []
      | some parent => chainUpTo r steps parent)

/-- A scope and the scopes around it, innermost first. As a parent is older than its child, no
chain has more members than the registry has scopes. -/
def chain (r : ScopeRegistry) (id : ScopeId) : List ScopeId := r.chainUpTo r.scopes.length id

/-- The nearest declaration of a name, and the scope that holds it. -/
def lookup (r : ScopeRegistry) (id : ScopeId) (name : String) : Option (ScopeId × Declaration) :=
  (r.chain id).findSome? fun scope => (r.get? scope name).map fun d => (scope, d)

def isHoist (r : ScopeRegistry) (id : ScopeId) : Bool :=
  (r.scopes[id]?.map (·.kind.isHoist)).getD true

/-- The nearest scope, the given one included, where `var` declarations come to rest. -/
def closestHoist (r : ScopeRegistry) (id : ScopeId) : ScopeId :=
  ((r.chain id).find? r.isHoist).getD moduleScope

/-- Gives a function its scope; the latest word counts. -/
def associate (r : ScopeRegistry) (function : FunctionId) (id : ScopeId) : ScopeRegistry :=
  { r with owners := (function, id) :: r.owners }

def scopeOf? (r : ScopeRegistry) (function : FunctionId) : Option ScopeId :=
  r.owners.lookup function

end ScopeRegistry

end ParamLowering
