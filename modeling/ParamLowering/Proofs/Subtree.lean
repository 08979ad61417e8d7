import ParamLowering.Tree
set_option autoImplicit false

/-! All nodes of a tree, however deep they stand. -/

namespace ParamLowering.Tree

mutual
/-- A node with all nodes below it. -/
@[simp] def Node.nodes : Node → List Node
  | .name id => [.name id]
  | .functionName id => [.functionName id]
  | .className id => [.className id]
  | .group span parts => .group span parts :: Node.nodesAll parts
  | .function name span params bodySpan body =>
    .function name span params bodySpan body :: (Target.nodesAll params ++ Node.nodesAll body)
  | .closure span params body =>
    .closure span params body :: (Target.nodesAll params ++ Node.nodesAll body)
  | .block span body => .block span body :: Node.nodesAll body
  | .handler span param body =>
    .handler span param body :: (Target.nodesAll param ++ Node.nodesAll body)
  | .declaration span kind targets => .declaration span kind targets :: Target.nodesAll targets

@[simp] def Node.nodesAll : List Node → List Node
  | [] => []
  | n :: ns => n.nodes ++ Node.nodesAll ns

/-- The nodes below a target. -/
@[simp] def Target.nodes : Target → List Node
  | .name _ _ notes => Node.nodesAll notes
  | .object _ fields notes => Field.nodesAll fields ++ Node.nodesAll notes
  | .array _ slots notes => Slot.nodesAll slots ++ Node.nodesAll notes
  | .rest _ target notes => target.nodes ++ Node.nodesAll notes
  | .withDefault target value => target.nodes ++ value.nodes
  | .undeclared target => target.nodes

@[simp] def Target.nodesAll : List Target → List Node
  | [] => []
  | t :: ts => t.nodes ++ Target.nodesAll ts

@[simp] def Field.nodes : Field → List Node
  | .keyed _ keyParts value => Node.nodesAll keyParts ++ value.nodes
  | .shorthand _ none => []
  | .shorthand _ (some value) => value.nodes
  | .rest target => target.nodes

@[simp] def Field.nodesAll : List Field → List Node
  | [] => []
  | f :: fs => f.nodes ++ Field.nodesAll fs

@[simp] def Slot.nodesAll : List Slot → List Node
  | [] => []
  | .hole :: ss => Slot.nodesAll ss
  | .item target :: ss => target.nodes ++ Slot.nodesAll ss
end

/-- What declares variables declares them by `var`, `let` or `const`. -/
def Node.DeclaresVariables : Node → Prop
  | .declaration _ kind _ => kind = .var ∨ kind = .letBinding ∨ kind = .constBinding
  | _ => True

section

variable {P : Node → Prop}

theorem Node.forall_nodesAll {ns : List Node} :
    (∀ m ∈ Node.nodesAll ns, P m) ↔ ∀ n ∈ ns, ∀ m ∈ n.nodes, P m := by
  induction ns with
  | nil => simp [Node.nodesAll]
  | cons n ns ih => rw [Node.nodesAll, List.forall_mem_append, List.forall_mem_cons, ih]

theorem Target.forall_nodesAll {ts : List Target} :
    (∀ m ∈ Target.nodesAll ts, P m) ↔ ∀ t ∈ ts, ∀ m ∈ t.nodes, P m := by
  induction ts with
  | nil => simp [Target.nodesAll]
  | cons t ts ih => rw [Target.nodesAll, List.forall_mem_append, List.forall_mem_cons, ih]

theorem Field.forall_nodesAll {fs : List Field} :
    (∀ m ∈ Field.nodesAll fs, P m) ↔ ∀ f ∈ fs, ∀ m ∈ f.nodes, P m := by
  induction fs with
  | nil => simp [Field.nodesAll]
  | cons f fs ih => rw [Field.nodesAll, List.forall_mem_append, List.forall_mem_cons, ih]

/-- The target in a place of an array pattern. -/
def Slot.target? : Slot → Option Target
  | .hole => none
  | .item target => some target

theorem Slot.forall_nodesAll {ss : List Slot} :
    (∀ m ∈ Slot.nodesAll ss, P m) ↔ ∀ s ∈ ss, ∀ t ∈ s.target?, ∀ m ∈ t.nodes, P m := by
  induction ss with
  | nil => simp [Slot.nodesAll]
  | cons s ss ih =>
    cases s with
    | hole => simp [Slot.nodesAll, Slot.target?, ih]
    | item target =>
      rw [Slot.nodesAll, List.forall_mem_append, List.forall_mem_cons, ih]
      simp [Slot.target?]

end

end ParamLowering.Tree
