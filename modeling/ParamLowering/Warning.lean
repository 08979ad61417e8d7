set_option autoImplicit false

/-! What a user is told about a function without the run being stopped. -/

namespace ParamLowering

/-- Why the parameters of a function are not lowered. -/
inductive SkipReason where
  | restPattern
  | plainAfterDefaulted
  | objectRest
  | bigKey
  | unsupportedTarget
  /-- The function stands in the parameter list of a function that is lowered. -/
  | insideParameters
  deriving DecidableEq, Repr

def SkipReason.text : SkipReason → String
  | .restPattern => "rest parameter binds a pattern"
  | .plainAfterDefaulted => "parameter without a default follows a defaulted parameter"
  | .objectRest => "object rest element in a parameter pattern"
  | .bigKey => "bigint property key in a parameter pattern"
  | .unsupportedTarget => "unsupported binding target in a parameter"
  | .insideParameters => "nested inside a rewritten parameter list"

inductive WarningKind where
  /-- The default of a parameter is the parameter itself. -/
  | selfReferentialDefault (name : String)
  /-- The function is left as it is; the reason in words. -/
  | skippedFunction (function : String) (reason : String)
  deriving DecidableEq, Repr

structure Warning where
  line : Nat
  kind : WarningKind
  deriving DecidableEq, Repr

namespace Warning

def message (w : Warning) : String :=
  match w.kind with
  | .selfReferentialDefault name =>
    s!"parameter '{name}' has a default value referring to itself; the outer binding named '{name}' is shadowed"
  | .skippedFunction function reason => s!"function '{function}' left unchanged: {reason}"

def display (w : Warning) : String := s!"line {w.line}: {w.message}"

end Warning

end ParamLowering
