import ParamLowering.Proofs.Ownership
import ParamLowering.Proofs.Reading.Program
import ParamLowering.Run
set_option autoImplicit false

/-!
The ranges of discovered functions in the text of their file.

A function is discovered from a node of the tree, and the node addresses the text from which the
tree was read. That is the text without a byte order mark, so that the offsets of a file with a
mark lead into its text at the wrong places.
-/

namespace ParamLowering

open ParamLowering.Grammar ParamLowering.Tree

variable {text : List Char}

/-! ### Parameter lists -/

/-- A parameter that is a pattern begins with its sign. -/
def Param.Opens (text : List Char) (p : Param) : Prop :=
  match p.pattern with
  | .ident .. => True
  | .object span _ => span = p.span ∧ span.Opens text openBrace
  | .array span .. => span = p.span ∧ span.Opens text "["

theorem Tree.Target.Opens.pattern {t : Target} (h : t.Opens text) {p : Pattern}
    (hp : t.pattern = .ok p) : Param.Opens text ⟨p, t.span⟩ := by
  cases t with
  | name id span notes =>
    obtain rfl := Except.ok.inj hp
    trivial
  | object span fields notes =>
    rw [Target.pattern] at hp
    split at hp
    · obtain rfl := Except.ok.inj hp
      exact ⟨rfl, h⟩
    · cases hp
  | array span slots notes =>
    rw [Target.pattern] at hp
    split at hp
    · obtain rfl := Except.ok.inj hp
      exact ⟨rfl, h⟩
    · cases hp
  | rest | withDefault | undeclared => cases hp

namespace ParamList

/-- The patterns and the rest parameter of a list begin with their signs. -/
structure Opens (text : List Char) (list : ParamList) : Prop where
  params : ∀ p ∈ list.params, p.Opens text
  rest : ∀ r ∈ list.rest, r.span.Opens text "..."

variable {list list' : ParamList}

theorem Opens.add (h : list.Opens text) {t : Target} (ht : t.Opens text)
    (hadd : list.add t = .ok list') : list'.Opens text := by
  have hparams : ∀ p : Param, p.Opens text → ∀ q ∈ list.params ++ [p], q.Opens text :=
    fun p hp => List.forall_mem_append.2 ⟨h.params, by simpa using hp⟩
  rcases add_eq_ok hadd with ⟨span, id, _, _, _, rfl, rfl⟩ | ⟨inner, value, p, rfl, hp, rfl⟩ |
    ⟨-, p, hp, rfl⟩
  · exact ⟨h.params, by simpa using show span.Opens text "..." from ht⟩
  · exact ⟨hparams _ (Target.Opens.pattern (t := inner) ht hp), h.rest⟩
  · exact ⟨hparams _ (ht.pattern hp), h.rest⟩

theorem Opens.addAll (h : list.Opens text) {ts : List Target} (hts : ∀ t ∈ ts, t.Opens text)
    (hadd : list.addAll ts = .ok list') : list'.Opens text := by
  induction ts generalizing list with
  | nil =>
    obtain rfl := Except.ok.inj hadd
    exact h
  | cons t ts ih =>
    obtain ⟨ht, hts⟩ := List.forall_mem_cons.1 hts
    obtain ⟨next, hnext, hmore⟩ := addAll_cons hadd
    exact ih (h.add ht hnext) hts hmore

theorem opens_of_ofTargets {ts : List Target} (hts : ∀ t ∈ ts, t.Opens text)
    (h : ofTargets ts = .ok list) : list.Opens text := by
  have hempty : ∀ thisParam, Opens text { thisParam } := fun _ => ⟨by simp, by simp⟩
  rcases ofTargets_cases ts with ⟨heq, -⟩ | ⟨id, span, notes, more, rfl, -, heq⟩
  · exact (hempty none).addAll hts (heq.symm.trans h)
  · exact (hempty _).addAll (List.forall_mem_cons.1 hts).2 (heq.symm.trans h)

end ParamList

/-! ### Functions -/

/-- The ranges of a function address a text: the patterns among its parameters and its rest
parameter begin with their signs, its body begins and ends with its braces, and its first
statement lies behind the opening brace. -/
structure FunctionNode.Addresses (text : List Char) (f : FunctionNode) : Prop where
  params : ∀ p ∈ f.params, p.Opens text
  rest : ∀ r ∈ f.rest, r.span.Opens text "..."
  bodyOpens : f.body.span.Opens text openBrace
  bodyCloses : f.body.span.Closes text
  firstStatement : ∀ s ∈ f.body.firstStatement, f.body.span.start + 1 ≤ s.start

theorem Tree.FunctionOpens.addresses {file : Nat} {lineAt : Nat → Nat} {name : Option String}
    {span bodySpan : Span} {params : List Target} {body : List Node} {f : FunctionNode}
    (h : FunctionOpens text params bodySpan body)
    (hf : readFunction file lineAt name span params bodySpan body = .ok f) :
    f.Addresses text := by
  obtain ⟨list, hlist, rfl⟩ := Surroundings.functionNode_eq_ok hf
  obtain ⟨hparams, hrest⟩ := ParamList.opens_of_ofTargets h.params hlist
  refine ⟨hparams, hrest, h.opens, h.closes, ?_⟩
  cases body with
  | nil => simp
  | cons s body => exact fun t ht => Option.some.inj ht ▸ h.statements s (by simp)

/-! ### Files -/

/-- All nodes of a file address its text without a byte order mark. -/
theorem SourceFile.nodes_address {name : String} {source : List Char} {statements : List Node}
    (h : statements? name source = some statements) :
    ∀ n ∈ Node.nodesAll statements, n.Addresses (withoutMark source) :=
  Node.forall_nodesAll.2 (parse_fitAll h)

/-- A file declares variables by the words for them. -/
theorem SourceFile.nodes_declareVariables {name : String} {source : List Char}
    {statements : List Node} (h : statements? name source = some statements) :
    ∀ n ∈ Node.nodesAll statements, n.DeclaresVariables := by
  intro n hn
  have hn := nodes_address h n hn
  cases n with
  | declaration => exact hn
  | _ => trivial

namespace Run

variable {file : Nat} {name : String} {source : List Char} {names : NameSet} {d : Discovery}

/-- Whatever a run read before, the functions discovered in a file address its text without a
byte order mark. -/
theorem discover_addresses (h : discover file name source names = some d) :
    ∀ f ∈ d.functions, f.Addresses (SourceFile.withoutMark source) := by
  obtain ⟨statements, hstatements, rfl⟩ := Option.map_eq_some_iff.1 h
  intro f hf
  obtain ⟨k, n, hk, ⟨_, _, _, _, _, rfl, hread⟩, -⟩ := Discovery.function_opener names hf
  have hnode := (List.mem_filter.1 (List.mem_of_getElem? hk)).1
  have hf := FunctionOpens.addresses (SourceFile.nodes_address hstatements _ hnode) hread
  exact ⟨hf.params, hf.rest, hf.bodyOpens, hf.bodyCloses, hf.firstStatement⟩

/-- A function with an object pattern and a rest parameter. -/
def patternSource : List Char := "function f(\x7ba\x7d, ...r) \x7b a; \x7d".toList

theorem discover_addresses_pattern : ∃ d,
    discover 0 "a.js" patternSource NameSet.empty = some d ∧
    d.functions.map (·.body.span) = [⟨22, 28⟩] ∧
    ∀ f ∈ d.functions, f.Addresses (SourceFile.withoutMark patternSource) := by
  have hfound : (discover 0 "a.js" patternSource NameSet.empty).map
      (fun d => d.functions.map (·.body.span)) = some [⟨22, 28⟩] := by decide +kernel
  obtain ⟨d, hd, hspans⟩ := Option.map_eq_some_iff.1 hfound
  exact ⟨d, hd, hspans, discover_addresses hd⟩

/-- Behind a byte order mark. -/
def markedSource : List Char := Char.ofNat 0xFEFF :: "function f(\x7ba\x7d) \x7b\x7d".toList

/-- With a byte order mark in front, the ranges lead to other text than the pattern and the
body. -/
theorem discover_misses_marked :
    (discover 0 "a.js" markedSource NameSet.empty).map (fun d => d.functions.map fun f =>
      (f.params.map (·.span.text? markedSource), f.body.span.text? markedSource)) =
      some [([some " f(".toList], some "\x7d)".toList)] := by
  decide +kernel

/-- The brace of a body may be missing at the end of the text. -/
example : (discover 0 "a.js" "function f(\x7ba\x7d) \x7b x".toList NameSet.empty).map
    (fun d => d.functions.map (·.body.span)) = some [⟨16, 19⟩] := by decide +kernel

end Run

end ParamLowering
