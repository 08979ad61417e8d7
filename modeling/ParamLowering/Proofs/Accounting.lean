import Mathlib.Data.List.Perm.Basic
import ParamLowering.Proofs.ReadList
import ParamLowering.Proofs.Walk
import ParamLowering.Run
set_option autoImplicit false

/-!
No function with a modern list is lost.

Every function of a tree whose list uses a pattern, a default or a rest parameter comes back with
the functions found or as one of the warnings, and never as both.
-/

namespace ParamLowering

open ParamLowering.Tree

/-! ### Lists -/

namespace ParamList

/-- Whether a list uses a pattern, a default or a rest parameter. -/
def isModern (list : ParamList) : Bool :=
  list.rest.isSome || !list.defaults.isEmpty || list.params.any (·.pattern.isDestructuring)

variable {list list' : ParamList} {t : Target} {ts : List Target} {r : SkipReason}

theorem isDestructuring_of_pattern {p : Pattern} (h : t.pattern = .ok p) :
    p.isDestructuring = !t.isName := by
  cases t with
  | name id span notes => cases h; rfl
  | object span fields notes =>
    rw [Target.pattern] at h
    split at h <;> cases h
    rfl
  | array span slots notes =>
    rw [Target.pattern] at h
    split at h <;> cases h
    rfl
  | rest span target notes => cases h
  | withDefault target value => cases h
  | undeclared target => cases h

theorem isModern_add (h : list.add t = .ok list') :
    list'.isModern = (list.isModern || !t.isName) := by
  rcases add_eq_ok h with ⟨span, id, idSpan, ns, notes, rfl, rfl⟩ |
    ⟨inner, value, p, rfl, -, rfl⟩ | ⟨-, p, hp, rfl⟩
  · simp [isModern, Target.isName]
  · simp [isModern, Target.isName]
  · simp [isModern, isDestructuring_of_pattern hp, Bool.or_assoc]

/-- A name is refused only behind a default. -/
theorem isModern_of_add_error (h : list.add t = .error r) : (list.isModern || !t.isName) = true := by
  cases t with
  | name id span notes =>
    cases hdefaults : list.defaults.isEmpty with
    | true => simp [add, hdefaults, Target.pattern] at h
    | false => simp [isModern, hdefaults]
  | object | array | rest | withDefault | undeclared => simp [Target.isName]

theorem isModern_addAll (h : list.addAll ts = .ok list') :
    list'.isModern = (list.isModern || ts.any (!·.isName)) := by
  induction ts generalizing list with
  | nil =>
    obtain rfl := Except.ok.inj h
    simp
  | cons t ts ih =>
    obtain ⟨longer, hlonger, hmore⟩ := addAll_cons h
    rw [ih hmore, isModern_add hlonger, List.any_cons, Bool.or_assoc]

theorem isModern_of_addAll_error (h : list.addAll ts = .error r) :
    (list.isModern || ts.any (!·.isName)) = true := by
  induction ts generalizing list with
  | nil => cases h
  | cons t ts ih =>
    rw [List.any_cons, ← Bool.or_assoc]
    rw [addAll] at h
    split at h
    · rename_i hadd
      rw [isModern_of_add_error hadd, Bool.true_or]
    · rename_i longer hlonger
      rw [← isModern_add hlonger]
      exact ih h

/-- What is read from a list is modern if something in the list is more than a name. -/
theorem isModern_ofTargets (h : ofTargets ts = .ok list) :
    list.isModern = ts.any (!·.isName) := by
  rcases ofTargets_cases ts with ⟨heq, -⟩ | ⟨id, span, notes, more, rfl, -, heq⟩
  · exact isModern_addAll (heq.symm.trans h)
  · exact isModern_addAll (heq.symm.trans h)

theorem isModern_of_ofTargets_error (h : ofTargets ts = .error r) :
    ts.any (!·.isName) = true := by
  rcases ofTargets_cases ts with ⟨heq, -⟩ | ⟨id, span, notes, more, rfl, -, heq⟩
  · exact isModern_of_addAll_error (heq.symm.trans h)
  · exact isModern_of_addAll_error (heq.symm.trans h)

end ParamList

/-! ### Functions -/

namespace Tree

/-- Whether a construct is a function whose list uses a pattern, a default or a rest parameter. -/
def Node.isModernFunction : Node → Bool
  | .function _ _ params _ _ => params.any (!·.isName)
  | _ => false

/-- Why a function is not kept: because of its list, or else because of its place. -/
def skipReason (params : List Target) : SkipReason :=
  match ParamList.ofTargets params with
  | .error reason => reason
  | .ok _ => .insideParameters

/-- A function stands behind an entry if the entry is what it reads as, but for its number. -/
def Node.ReadsAs (file : Nat) (lineAt : Nat → Nat) (n : Node) (f : FunctionNode) : Prop :=
  ∃ name span params bodySpan body, n = .function name span params bodySpan body ∧
    readFunction file lineAt name span params bodySpan body = .ok { f with id := ⟨file, 0⟩ }

/-- A function stands behind a warning if the warning tells its line, its name and the reason. -/
def Node.WarnedBy (lineAt : Nat → Nat) (n : Node) (w : Warning) : Prop :=
  ∃ name span params bodySpan body, n = .function name span params bodySpan body ∧
    w = ⟨lineAt span.start, .skippedFunction (name.getD "<anonymous>") (skipReason params).text⟩

theorem Node.opensScope_of_isModernFunction {n : Node} (h : n.isModernFunction = true) :
    n.opensScope = true := by
  cases n with
  | function => rfl
  | closure | block | handler => rfl
  | name | group | functionName | className | declaration => cases h

theorem filter_openers (ns : List Node) :
    (openers ns).filter (·.isModernFunction) = ns.filter (·.isModernFunction) := by
  rw [openers, List.filter_filter]
  refine List.filter_congr fun n _ => ?_
  cases h : n.isModernFunction with
  | true => rw [Node.opensScope_of_isModernFunction h]; rfl
  | false => rfl

end Tree

namespace Surroundings

variable {env : Surroundings} {name : Option String} {span : Span} {params : List Target}
  {bodySpan : Span} {body : List Node}

theorem functionNode_eq_error {reason : SkipReason}
    (h : env.functionNode name span params bodySpan body = .error reason) :
    ParamList.ofTargets params = .error reason := by
  rw [functionNode] at h
  cases hparams : ParamList.ofTargets params with
  | ok list =>
    rw [hparams] at h
    cases h
  | error r =>
    rw [hparams] at h
    exact congrArg Except.error (Except.error.inj h)

theorem isModern_of_functionNode {f : FunctionNode}
    (h : env.functionNode name span params bodySpan body = .ok f) :
    f.isModern = params.any (!·.isName) := by
  obtain ⟨list, hlist, rfl⟩ := functionNode_eq_ok h
  exact ParamList.isModern_ofTargets hlist

end Surroundings

/-! ### The walk -/

namespace Findings

variable (st : Findings)

@[simp] theorem warnings_declareAll (scope : ScopeId) (kind : DeclarationKind)
    (position : Option Position) (ids : List Ident) :
    (st.declareAll scope kind position ids).warnings = st.warnings := by
  rw [declareAll]
  induction ids generalizing st with
  | nil => rfl
  | cons id ids ih => rw [List.foldl_cons, ih]; rfl

@[simp] theorem warnings_declareParams (scope : ScopeId) (lowered : Bool) (index : Nat)
    (targets : List Target) :
    (declareParams scope lowered index targets st).warnings = st.warnings := by
  induction targets generalizing index st with
  | nil => rfl
  | cons t ts ih =>
    rw [declareParams, ih]
    split
    · exact warnings_declareAll st _ _ _ _
    · rfl

theorem functions_enterFunction (env : Surroundings) (name : Option String) (span : Span)
    (params : List Target) (bodySpan : Span) (body : List Node) :
    (st.enterFunction env name span params bodySpan body).functions = st.functions ++
      keep env.inParameters (env.functionNode name span params bodySpan body) := by
  rw [enterFunction, functions_declareParams, functions_note, functions_push]

/-- Why a function that was read, or was not, is warned about, if it is. -/
def refusal (hidden : Bool) (f : Except SkipReason FunctionNode) : Option SkipReason :=
  match f with
  | .error reason => some reason
  | .ok f => if hidden && f.isModern then some .insideParameters else none

theorem warnings_enterFunction (env : Surroundings) (name : Option String) (span : Span)
    (params : List Target) (bodySpan : Span) (body : List Node) :
    (st.enterFunction env name span params bodySpan body).warnings = st.warnings ++
      ((refusal env.inParameters (env.functionNode name span params bodySpan body)).map fun reason =>
        (⟨env.lineAt span.start,
          .skippedFunction (name.getD "<anonymous>") reason.text⟩ : Warning)).toList := by
  rw [enterFunction, warnings_declareParams]
  cases env.functionNode name span params bodySpan body with
  | error reason => rfl
  | ok f =>
    cases hhidden : env.inParameters with
    | false => simp [note, hhidden, refusal, push]
    | true => cases hf : f.isModern <;> simp [note, hhidden, hf, refusal, push, skip]

end Findings

/-- A part of the walk accounts for the functions among some constructs: those with a modern list
divide into the functions found and the warnings raised on the way. -/
structure Accounts (file : Nat) (lineAt : Nat → Nat) (os : List Node) (a b : Findings)
    (returned skipped : List Node) (fs : List FunctionNode) (ws : List Warning) : Prop where
  functions : b.functions = a.functions ++ fs
  warnings : b.warnings = a.warnings ++ ws
  divided : (returned ++ skipped).Perm (os.filter (·.isModernFunction))
  read : List.Forall₂ (Node.ReadsAs file lineAt) returned (fs.filter (·.isModern))
  warned : List.Forall₂ (Node.WarnedBy lineAt) skipped ws

namespace Accounts

variable {file : Nat} {lineAt : Nat → Nat} {os ps returned skipped returned' skipped' : List Node}
  {a b c : Findings} {fs gs : List FunctionNode} {ws vs : List Warning}

/-- Nothing is found and nothing is lost. -/
theorem of_eq (hos : os.filter (·.isModernFunction) = []) (hf : b.functions = a.functions)
    (hw : b.warnings = a.warnings) : Accounts file lineAt os a b [] [] [] [] :=
  ⟨by simp [hf], by simp [hw], by rw [hos]; exact .nil, .nil, .nil⟩

theorem append (h : Accounts file lineAt os a b returned skipped fs ws)
    (h' : Accounts file lineAt ps b c returned' skipped' gs vs) :
    Accounts file lineAt (os ++ ps) a c (returned ++ returned') (skipped ++ skipped')
      (fs ++ gs) (ws ++ vs) where
  functions := by rw [h'.functions, h.functions, List.append_assoc]
  warnings := by rw [h'.warnings, h.warnings, List.append_assoc]
  divided := by
    rw [List.filter_append]
    refine List.Perm.trans ?_ (h.divided.append h'.divided)
    simp only [List.append_assoc]
    refine List.Perm.append_left returned ?_
    rw [← List.append_assoc, ← List.append_assoc]
    exact List.perm_append_comm.append_right skipped'
  read := by
    rw [List.filter_append]
    exact List.rel_append h.read h'.read
  warned := List.rel_append h.warned h'.warned

end Accounts

/-- Entering the list of a function accounts for the function: it is kept, or warned about, or its
list is plain. -/
theorem Findings.enterFunction_accounts (st : Findings) (env : Surroundings) (name : Option String)
    (span : Span) (params : List Target) (bodySpan : Span) (body : List Node) :
    ∃ returned skipped fs ws, Accounts env.file env.lineAt
      [.function name span params bodySpan body] st
      (st.enterFunction env name span params bodySpan body) returned skipped fs ws := by
  let n := Node.function name span params bodySpan body
  have hfunctions := st.functions_enterFunction env name span params bodySpan body
  have hwarnings := st.warnings_enterFunction env name span params bodySpan body
  have hmodern : n.isModernFunction = params.any (!·.isName) := rfl
  cases hread : env.functionNode name span params bodySpan body with
  | error reason =>
    have hparams := Surroundings.functionNode_eq_error hread
    have hn : n.isModernFunction = true := ParamList.isModern_of_ofTargets_error hparams
    rw [hread] at hfunctions hwarnings
    refine ⟨[], [n], [], _, hfunctions, hwarnings, by simp [hn, n], .nil,
      .cons ⟨_, _, _, _, _, rfl, ?_⟩ .nil⟩
    rw [skipReason, hparams]
  | ok f =>
    have hf : n.isModernFunction = f.isModern :=
      (Surroundings.isModern_of_functionNode hread).symm
    obtain ⟨list, hparams, hlist⟩ := Surroundings.functionNode_eq_ok hread
    rw [hread] at hfunctions hwarnings
    cases hhidden : env.inParameters with
    | false =>
      rw [hhidden] at hfunctions hwarnings
      cases hplain : f.isModern with
      | false =>
        exact ⟨[], [], [f], [], hfunctions, hwarnings, by simp [hf, hplain, n], by simp [hplain],
          .nil⟩
      | true =>
        have hself : n.ReadsAs env.file env.lineAt f :=
          ⟨_, _, _, _, _, rfl, hread.trans (by rw [hlist])⟩
        exact ⟨[n], [], [f], [], hfunctions, hwarnings, by simp [hf, hplain, n],
          by simpa [hplain] using hself, .nil⟩
    | true =>
      rw [hhidden] at hfunctions hwarnings
      cases hplain : f.isModern with
      | false =>
        rw [refusal, hplain] at hwarnings
        exact ⟨[], [], [], [], hfunctions, hwarnings, by simp [hf, hplain, n], .nil, .nil⟩
      | true =>
        rw [refusal, hplain] at hwarnings
        refine ⟨[], [n], [], _, hfunctions, hwarnings, by simp [hf, hplain, n], .nil,
          .cons ⟨_, _, _, _, _, rfl, ?_⟩ .nil⟩
        rw [skipReason, hparams]

/-- A walk accounts for all functions in its part of the tree. -/
theorem Walked.accounts {own : Option ScopeId} {env : Surroundings} {os : List Node}
    {a b : Findings} (h : Walked own env os a b) :
    ∃ returned skipped fs ws, Accounts env.file env.lineAt os a b returned skipped fs ws := by
  induction h with
  | done st => exact ⟨_, _, _, _, .of_eq rfl rfl rfl⟩
  | seq first second ihfirst ihsecond =>
    obtain ⟨_, _, _, _, hfirst⟩ := ihfirst
    obtain ⟨_, _, _, _, hsecond⟩ := ihsecond
    exact ⟨_, _, _, _, hfirst.append hsecond⟩
  | record st name => exact ⟨_, _, _, _, .of_eq rfl rfl rfl⟩
  | declare st scope kind ids => exact ⟨_, _, _, _, .of_eq rfl (by simp) (by simp)⟩
  | param st index target => exact ⟨_, _, _, _, .of_eq rfl (by simp) (st.warnings_declareAll ..)⟩
  | @scope own env n xs a b kind hn inside ih =>
    obtain ⟨_, _, _, _, hinside⟩ := ih
    have hother : [n].filter (·.isModernFunction) = [] := by
      cases n with
      | function => cases hn
      | closure | block | handler | name | group | functionName | className | declaration => rfl
    have hpush : Accounts env.file env.lineAt [n] a (a.push kind env.scope) [] [] [] [] :=
      .of_eq hother rfl rfl
    exact ⟨_, _, _, _, hpush.append hinside⟩
  | @function own env name span params bodySpan body xs ys a b c list statements ihlist ihbody =>
    obtain ⟨_, _, _, _, hself⟩ := a.enterFunction_accounts env name span params bodySpan body
    obtain ⟨_, _, _, _, hlist⟩ := ihlist
    obtain ⟨_, _, _, _, hbody⟩ := ihbody
    exact ⟨_, _, _, _, hself.append (hlist.append hbody)⟩

/-! ### The result -/

namespace Discovery

theorem number_filter_isModern {file : Nat} (next : Nat) (found : List (FunctionNode × ScopeId))
    (r : ScopeRegistry) {ns : List Node} {lineAt : Nat → Nat}
    (h : List.Forall₂ (Node.ReadsAs file lineAt) ns ((found.map (·.1)).filter (·.isModern))) :
    List.Forall₂ (Node.ReadsAs file lineAt) ns
      ((number file next found r).1.filter (·.isModern)) := by
  induction found generalizing next r ns with
  | nil => exact h
  | cons p found ih =>
    have hmodern : FunctionNode.isModern { p.1 with id := ⟨file, next⟩ } = p.1.isModern := rfl
    rw [number]
    simp only [List.map_cons, List.filter_cons, hmodern] at h ⊢
    split at h
    · rename_i hp
      rw [if_pos hp]
      cases h with
      | cons hread hmore => exact .cons hread (ih _ _ hmore)
    · rename_i hp
      rw [if_neg hp]
      exact ih _ _ h

/-- The functions of a tree with a pattern, a default or a rest parameter divide into the modern
ones among the functions returned and those that a warning was raised for; and there are no other
warnings. -/
theorem accounts_for_modern (file : Nat) (lineAt : Nat → Nat) (statements : List Node)
    (names : NameSet) :
    ∃ returned skipped : List Node,
      (returned ++ skipped).Perm ((Node.nodesAll statements).filter (·.isModernFunction)) ∧
      List.Forall₂ (Node.ReadsAs file lineAt) returned
        ((ofStatements file lineAt statements names).functions.filter (·.isModern)) ∧
      List.Forall₂ (Node.WarnedBy lineAt) skipped
        (ofStatements file lineAt statements names).warnings := by
  let env : Surroundings := ⟨file, lineAt, ScopeRegistry.moduleScope, false⟩
  let st := Node.collectAll env statements ⟨ScopeRegistry.initial, names, [], []⟩
  let sorted := Sorting.sort (fun a b => decide (a.1.span.start ≤ b.1.span.start)) st.found
  obtain ⟨returned, skipped, fs, ws, hfs, hws, hdivided, hread, hwarned⟩ :=
    (Node.collectAll_walked statements none env ⟨.initial, names, [], []⟩).accounts
  have hfunctions : st.found.map (·.1) = fs := hfs.trans (List.nil_append fs)
  have hwarnings : st.warnings = ws := hws.trans (List.nil_append ws)
  have hperm : (fs.filter (·.isModern)).Perm ((sorted.map (·.1)).filter (·.isModern)) := by
    rw [← hfunctions]
    exact (((Sorting.sort_perm _ st.found).map _).filter _).symm
  -- the functions were put in order afterwards
  have hswap : Relation.Comp List.Perm (List.Forall₂ (Node.ReadsAs file lineAt)) returned
      ((sorted.map (·.1)).filter (·.isModern)) := by
    rw [← List.forall₂_comp_perm_eq_perm_comp_forall₂]
    exact ⟨_, hread, hperm⟩
  obtain ⟨returned', hreturned, hread'⟩ := hswap
  refine ⟨returned', skipped, ?_, number_filter_isModern 0 sorted st.scopes hread', ?_⟩
  · rw [← filter_openers]
    exact (hreturned.symm.append_right skipped).trans hdivided
  · rw [← hwarnings] at hwarned
    exact hwarned

end Discovery

/-- `function f({[function ({b}) {}]: a});`, a signature with a function in its list. -/
def signatureSource : List Char :=
  "function f(\x7b[function (\x7bb\x7d) \x7b\x7d]: a\x7d);".toList

/-- Behind the name `f`, the list of the signature holds a function with a body and a pattern. As
the list of a signature is not walked, it is neither found nor warned about. -/
theorem Run.discover_misses_signature :
    (Grammar.signature (Grammar.rules 40 40) { dialect := SourceFile.dialect "a.ts" }
        (Grammar.Cursor.ofPlace ⟨signatureSource.drop 10, 10⟩ 10 false)).map (fun r =>
      (r.1.body.isNone, ((Target.nodesAll r.1.params).filter (·.isModernFunction)).map (·.span))) =
      some (true, [⟨13, 30⟩]) ∧
    (Run.discover 0 "a.ts" signatureSource NameSet.empty).map (fun d =>
      (d.functions.map (·.span), d.warnings)) = some ([], []) := by
  decide +kernel

end ParamLowering
