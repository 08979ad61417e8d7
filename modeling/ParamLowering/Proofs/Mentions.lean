import ParamLowering.Discovery
import ParamLowering.Proofs.NameHistory
import ParamLowering.Proofs.Subtree
set_option autoImplicit false

/-!
The identifiers of a tree, and that discovery takes the name of every one of them.
-/

namespace ParamLowering

open ParamLowering.Tree

namespace Tree

mutual
/-- The identifiers of a part of the tree: names that are read, written, declared or mentioned in
a type, wherever they stand. -/
def Node.identifiers : Node → List Ident
  | .name id | .functionName id | .className id => [id]
  | .group _ parts => Node.identifiersAll parts
  | .function _ _ params _ body | .closure _ params body | .handler _ params body =>
    Target.identifiersAll params ++ Node.identifiersAll body
  | .block _ body => Node.identifiersAll body
  | .declaration _ _ targets => Target.identifiersAll targets

def Node.identifiersAll : List Node → List Ident
  | [] => []
  | n :: ns => n.identifiers ++ Node.identifiersAll ns

def Target.identifiers : Target → List Ident
  | .name id _ notes => id :: Node.identifiersAll notes
  | .object _ fields notes => Field.identifiersAll fields ++ Node.identifiersAll notes
  | .array _ slots notes => Slot.identifiersAll slots ++ Node.identifiersAll notes
  | .rest _ target notes => target.identifiers ++ Node.identifiersAll notes
  | .withDefault target value => target.identifiers ++ value.identifiers
  | .undeclared target => target.identifiers

def Target.identifiersAll : List Target → List Ident
  | [] => []
  | t :: ts => t.identifiers ++ Target.identifiersAll ts

def Field.identifiers : Field → List Ident
  | .keyed _ keyParts value => Node.identifiersAll keyParts ++ value.identifiers
  | .shorthand id none => [id]
  | .shorthand id (some value) => id :: value.identifiers
  | .rest target => target.identifiers

def Field.identifiersAll : List Field → List Ident
  | [] => []
  | f :: fs => f.identifiers ++ Field.identifiersAll fs

def Slot.identifiersAll : List Slot → List Ident
  | [] => []
  | .hole :: ss => Slot.identifiersAll ss
  | .item target :: ss => target.identifiers ++ Slot.identifiersAll ss
end

theorem append_subset_append {α : Type} {xs ys xs' ys' : List α} (hx : xs ⊆ xs') (hy : ys ⊆ ys') :
    xs ++ ys ⊆ xs' ++ ys' := by
  intro a ha
  rw [List.mem_append] at ha ⊢
  exact ha.imp (@hx a) (@hy a)

theorem subset_of_mem_append {m : Node} {ms ms' : List Node} {is xs ys : List Ident}
    (hx : m ∈ ms → is ⊆ xs) (hy : m ∈ ms' → is ⊆ ys) (hm : m ∈ ms ++ ms') : is ⊆ xs ++ ys := by
  rcases List.mem_append.1 hm with hm | hm
  · exact List.subset_append_of_subset_left ys (hx hm)
  · exact List.subset_append_of_subset_right xs (hy hm)

theorem identifiers_of_mem_cons {n m : Node} {ms : List Node}
    (h : m ∈ ms → m.identifiers ⊆ n.identifiers) (hm : m ∈ n :: ms) :
    m.identifiers ⊆ n.identifiers := by
  rcases List.mem_cons.1 hm with rfl | hm
  · exact List.Subset.refl _
  · exact h hm

mutual
/-- A part mentions what the parts below it mention. -/
theorem Node.identifiers_subset : ∀ (n m : Node), m ∈ n.nodes → m.identifiers ⊆ n.identifiers
  | .name _, m, hm | .functionName _, m, hm | .className _, m, hm => by
    obtain rfl := List.mem_singleton.1 hm
    exact List.Subset.refl _
  | .group _ parts, m, hm => identifiers_of_mem_cons (Node.identifiersAll_subset parts m) hm
  | .function _ _ params _ body, m, hm | .closure _ params body, m, hm
  | .handler _ params body, m, hm =>
    identifiers_of_mem_cons (subset_of_mem_append (Target.identifiersAll_subset params m)
      (Node.identifiersAll_subset body m)) hm
  | .block _ body, m, hm => identifiers_of_mem_cons (Node.identifiersAll_subset body m) hm
  | .declaration _ _ targets, m, hm =>
    identifiers_of_mem_cons (Target.identifiersAll_subset targets m) hm

theorem Node.identifiersAll_subset : ∀ (ns : List Node) (m : Node), m ∈ Node.nodesAll ns →
    m.identifiers ⊆ Node.identifiersAll ns
  | n :: ns, m, hm =>
    subset_of_mem_append (Node.identifiers_subset n m) (Node.identifiersAll_subset ns m) hm

theorem Target.identifiers_subset : ∀ (t : Target) (m : Node), m ∈ t.nodes →
    m.identifiers ⊆ t.identifiers
  | .name _ _ notes, m, hm =>
    List.subset_cons_of_subset _ (Node.identifiersAll_subset notes m hm)
  | .object _ fields notes, m, hm =>
    subset_of_mem_append (Field.identifiersAll_subset fields m) (Node.identifiersAll_subset notes m) hm
  | .array _ slots notes, m, hm =>
    subset_of_mem_append (Slot.identifiersAll_subset slots m) (Node.identifiersAll_subset notes m) hm
  | .rest _ target notes, m, hm =>
    subset_of_mem_append (Target.identifiers_subset target m) (Node.identifiersAll_subset notes m) hm
  | .withDefault target value, m, hm =>
    subset_of_mem_append (Target.identifiers_subset target m) (Node.identifiers_subset value m) hm
  | .undeclared target, m, hm => Target.identifiers_subset target m hm

theorem Target.identifiersAll_subset : ∀ (ts : List Target) (m : Node), m ∈ Target.nodesAll ts →
    m.identifiers ⊆ Target.identifiersAll ts
  | t :: ts, m, hm =>
    subset_of_mem_append (Target.identifiers_subset t m) (Target.identifiersAll_subset ts m) hm

theorem Field.identifiers_subset : ∀ (f : Field) (m : Node), m ∈ f.nodes →
    m.identifiers ⊆ f.identifiers
  | .keyed _ keyParts value, m, hm =>
    subset_of_mem_append (Node.identifiersAll_subset keyParts m) (Target.identifiers_subset value m) hm
  | .shorthand _ (some value), m, hm =>
    List.subset_cons_of_subset _ (Node.identifiers_subset value m hm)
  | .rest target, m, hm => Target.identifiers_subset target m hm

theorem Field.identifiersAll_subset : ∀ (fs : List Field) (m : Node), m ∈ Field.nodesAll fs →
    m.identifiers ⊆ Field.identifiersAll fs
  | f :: fs, m, hm =>
    subset_of_mem_append (Field.identifiers_subset f m) (Field.identifiersAll_subset fs m) hm

theorem Slot.identifiersAll_subset : ∀ (ss : List Slot) (m : Node), m ∈ Slot.nodesAll ss →
    m.identifiers ⊆ Slot.identifiersAll ss
  | .hole :: ss, m, hm => Slot.identifiersAll_subset ss m hm
  | .item target :: ss, m, hm =>
    subset_of_mem_append (Target.identifiers_subset target m) (Slot.identifiersAll_subset ss m) hm
end

mutual
/-- A target mentions what it binds. -/
theorem Target.bound_subset : ∀ t : Target, t.bound ⊆ t.identifiers
  | .name id _ _ => List.cons_subset_cons id (List.nil_subset _)
  | .object _ fields _ => List.subset_append_of_subset_left _ (Field.boundAll_subset fields)
  | .array _ slots _ => List.subset_append_of_subset_left _ (Slot.boundAll_subset slots)
  | .rest _ target _ | .withDefault target _ =>
    List.subset_append_of_subset_left _ (Target.bound_subset target)
  | .undeclared _ => List.nil_subset _

theorem Field.boundAll_subset : ∀ fs : List Field, Field.boundAll fs ⊆ Field.identifiersAll fs
  | [] => List.Subset.refl _
  | f :: fs => append_subset_append (Field.bound_subset f) (Field.boundAll_subset fs)

theorem Field.bound_subset : ∀ f : Field, f.bound ⊆ f.identifiers
  | .keyed _ _ value => List.subset_append_of_subset_right _ (Target.bound_subset value)
  | .shorthand _ none => List.Subset.refl _
  | .shorthand id (some _) => List.cons_subset_cons id (List.nil_subset _)
  | .rest target => Target.bound_subset target

theorem Slot.boundAll_subset : ∀ ss : List Slot, Slot.boundAll ss ⊆ Slot.identifiersAll ss
  | [] => List.Subset.refl _
  | .hole :: ss => Slot.boundAll_subset ss
  | .item target :: ss => append_subset_append (Target.bound_subset target)
      (Slot.boundAll_subset ss)
end

theorem Target.bound_subset_of_mem {ts : List Target} {t : Target} (h : t ∈ ts) :
    t.bound ⊆ Target.identifiersAll ts := by
  induction ts with
  | nil => cases h
  | cons u ts ih =>
    rcases List.mem_cons.1 h with rfl | h
    · exact List.subset_append_of_subset_left _ (Target.bound_subset t)
    · exact List.subset_append_of_subset_right _ (ih h)

end Tree

namespace NameSet

/-- Takes the names of identifiers, one after another. -/
def addAll (s : NameSet) (ids : List Ident) : NameSet := ids.foldl (fun s id => s.add id.name) s

theorem addAll_append (s : NameSet) (xs ys : List Ident) :
    s.addAll (xs ++ ys) = (s.addAll xs).addAll ys := List.foldl_append

theorem addAll_history (stem : String) (s : NameSet) (ids : List Ident) :
    History stem s (ids.map fun id => .mentioned id.name) (s.addAll ids) := by
  induction ids generalizing s with
  | nil => exact .nil s
  | cons id ids ih => exact .mentioned (ih (s.add id.name))

end NameSet

namespace Findings

variable (st : Findings)

@[simp] theorem names_declareAll (scope : ScopeId) (kind : DeclarationKind)
    (position : Option Position) (ids : List Ident) :
    (st.declareAll scope kind position ids).names = st.names := by
  rw [declareAll]
  induction ids generalizing st with
  | nil => rfl
  | cons id ids ih => rw [List.foldl_cons, ih]; rfl

@[simp] theorem names_declareParams (scope : ScopeId) (lowered : Bool) (index : Nat)
    (targets : List Target) :
    (declareParams scope lowered index targets st).names = st.names := by
  induction targets generalizing index st with
  | nil => rfl
  | cons t ts ih =>
    rw [declareParams, ih]
    split
    · exact names_declareAll st _ _ _ _
    · rfl

@[simp] theorem names_note (env : Surroundings) (name : Option String) (span : Span)
    (scope : ScopeId) (f : Except SkipReason FunctionNode) :
    (st.note env name span scope f).names = st.names := by
  cases f with
  | error reason => rfl
  | ok f =>
    rw [note]
    split
    · rfl
    · split <;> rfl

end Findings

mutual
/-- The walk takes the name of every identifier, whatever it makes of the construct around it. -/
theorem Tree.Node.collect_names : ∀ (n : Node) (env : Surroundings) (st : Findings),
    (n.collect env st).names = st.names.addAll n.identifiers
  | .name _, _, _ | .functionName _, _, _ | .className _, _, _ => rfl
  | .group _ parts, env, st => Node.collectAll_names parts env st
  | .function name span params bodySpan body, env, st => by
    rw [Node.collect, Node.collectAll_names body, Target.collectAll_names params,
      Findings.names_declareParams, Findings.names_note, Node.identifiers, NameSet.addAll_append]
    rfl
  | .closure _ params body, env, st => by
    rw [Node.collect, Node.collectAll_names body, Target.collectParams_names params,
      Node.identifiers, NameSet.addAll_append]
    rfl
  | .block _ body, env, st => Node.collectAll_names body _ _
  | .handler _ param body, env, st => by
    rw [Node.collect, Node.collectAll_names body, Target.collectAll_names param,
      Findings.names_declareAll, Node.identifiers, NameSet.addAll_append]
    rfl
  | .declaration _ kind targets, env, st => by
    rw [Node.collect, Target.collectAll_names targets, Findings.names_declareAll, Node.identifiers]

theorem Tree.Node.collectAll_names : ∀ (ns : List Node) (env : Surroundings) (st : Findings),
    (Node.collectAll env ns st).names = st.names.addAll (Node.identifiersAll ns)
  | [], _, _ => rfl
  | n :: ns, env, st => by
    rw [Node.collectAll, Node.collectAll_names ns, Node.collect_names n, Node.identifiersAll,
      NameSet.addAll_append]

theorem Tree.Target.collectParams_names : ∀ (ts : List Target) (env : Surroundings) (index : Nat)
    (st : Findings),
    (Target.collectParams env index ts st).names = st.names.addAll (Target.identifiersAll ts)
  | [], _, _, _ => rfl
  | t :: ts, env, index, st => by
    rw [Target.collectParams, Target.collectParams_names ts, Target.collect_names t,
      Findings.declareParam, Findings.names_declareAll, Target.identifiersAll,
      NameSet.addAll_append]

theorem Tree.Target.collectAll_names : ∀ (ts : List Target) (env : Surroundings) (st : Findings),
    (Target.collectAll env ts st).names = st.names.addAll (Target.identifiersAll ts)
  | [], _, _ => rfl
  | t :: ts, env, st => by
    rw [Target.collectAll, Target.collectAll_names ts, Target.collect_names t,
      Target.identifiersAll, NameSet.addAll_append]

theorem Tree.Target.collect_names : ∀ (t : Target) (env : Surroundings) (st : Findings),
    (t.collect env st).names = st.names.addAll t.identifiers
  | .name _ _ notes, env, st => by
    rw [Target.collect, Node.collectAll_names notes]
    rfl
  | .object _ fields notes, env, st => by
    rw [Target.collect, Node.collectAll_names notes, Field.collectAll_names fields,
      Target.identifiers, NameSet.addAll_append]
  | .array _ slots notes, env, st => by
    rw [Target.collect, Node.collectAll_names notes, Slot.collectAll_names slots,
      Target.identifiers, NameSet.addAll_append]
  | .rest _ target notes, env, st => by
    rw [Target.collect, Node.collectAll_names notes, Target.collect_names target,
      Target.identifiers, NameSet.addAll_append]
  | .withDefault target value, env, st => by
    rw [Target.collect, Node.collect_names value, Target.collect_names target,
      Target.identifiers, NameSet.addAll_append]
  | .undeclared target, env, st => Target.collect_names target env st

theorem Tree.Field.collectAll_names : ∀ (fs : List Field) (env : Surroundings) (st : Findings),
    (Field.collectAll env fs st).names = st.names.addAll (Field.identifiersAll fs)
  | [], _, _ => rfl
  | f :: fs, env, st => by
    rw [Field.collectAll, Field.collectAll_names fs, Field.collect_names f, Field.identifiersAll,
      NameSet.addAll_append]

theorem Tree.Field.collect_names : ∀ (f : Field) (env : Surroundings) (st : Findings),
    (f.collect env st).names = st.names.addAll f.identifiers
  | .keyed _ keyParts value, env, st => by
    rw [Field.collect, Target.collect_names value, Node.collectAll_names keyParts,
      Field.identifiers, NameSet.addAll_append]
  | .shorthand _ none, _, _ => rfl
  | .shorthand _ (some value), env, st => Node.collect_names value env _
  | .rest target, env, st => Target.collect_names target env st

theorem Tree.Slot.collectAll_names : ∀ (ss : List Slot) (env : Surroundings) (st : Findings),
    (Slot.collectAll env ss st).names = st.names.addAll (Slot.identifiersAll ss)
  | [], _, _ => rfl
  | .hole :: ss, env, st => Slot.collectAll_names ss env st
  | .item target :: ss, env, st => by
    rw [Slot.collectAll, Slot.collectAll_names ss, Target.collect_names target,
      Slot.identifiersAll, NameSet.addAll_append]
end

/-- After discovery the names of all identifiers of a file are taken. -/
theorem Discovery.names_ofStatements (file : Nat) (lineAt : Nat → Nat) (statements : List Node)
    (names : NameSet) : (Discovery.ofStatements file lineAt statements names).names =
      names.addAll (Node.identifiersAll statements) :=
  Node.collectAll_names statements _ _

end ParamLowering
