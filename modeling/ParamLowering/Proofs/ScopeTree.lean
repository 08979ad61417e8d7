import Mathlib.Data.List.Nodup
import ParamLowering.Proofs.Merge
import ParamLowering.Proofs.Steps
import ParamLowering.Proofs.Subtree
import ParamLowering.Discovery
set_option autoImplicit false

/-!
Scopes form a tree, and every function that was found has a scope of its own in it.

Scopes are only added below scopes that are there, and declarations go where their kind may
stand, both while the tree is walked and while functions are lowered.
-/

namespace ParamLowering

open ParamLowering.Tree

/-! ### Registries -/

/-- The declarations that may stand in a scope of a kind. -/
def ScopeKind.admits : ScopeKind → DeclarationKind → Bool
  | .module, kind => kind != .param
  | .function, _ => true
  | .block, kind => kind == .letBinding || kind == .constBinding || kind == .classBinding

theorem ScopeKind.admits_of_isHoist {k : ScopeKind} (hk : k.isHoist = true) {kind : DeclarationKind}
    (hkind : kind ≠ .param) : k.admits kind = true := by
  cases k <;> simp_all [admits, isHoist]

theorem ScopeKind.admits_variable (k : ScopeKind) {kind : DeclarationKind}
    (hkind : kind = .letBinding ∨ kind = .constBinding ∨ kind = .classBinding) :
    k.admits kind = true := by
  rcases hkind with rfl | rfl | rfl <;> cases k <;> rfl

namespace Scope

theorem declare_kind (s : Scope) (name : String) (d : Declaration) :
    (s.declare name d).kind = s.kind := by
  rw [declare]
  split <;> rfl

theorem declare_parent (s : Scope) (name : String) (d : Declaration) :
    (s.declare name d).parent = s.parent := by
  rw [declare]
  split <;> rfl

theorem mem_declare {s : Scope} {name : String} {d : Declaration} {b : String × Declaration}
    (h : b ∈ (s.declare name d).bindings) : b ∈ s.bindings ∨ b = (name, d) := by
  rw [declare] at h
  split at h
  · exact .inl h
  · simpa using h

end Scope

namespace ScopeRegistry

/-- The kind of the scope at a place. -/
def kindAt (r : ScopeRegistry) (id : ScopeId) : Option ScopeKind := r.scopes[id]?.map (·.kind)

/-- Scopes that form a tree below the module scope, with declarations where they may stand. -/
structure Sound (r : ScopeRegistry) : Prop where
  root : ∃ s : Scope, r.scopes[moduleScope]? = some s ∧ s.kind = .module ∧ s.parent = none
  parents : ∀ (id : ScopeId) (s : Scope), r.scopes[id]? = some s → id ≠ moduleScope →
    ∃ parent, s.parent = some parent ∧ parent < id
  admits : ∀ (id : ScopeId) (s : Scope), r.scopes[id]? = some s →
    ∀ b ∈ s.bindings, s.kind.admits b.2.kind = true

variable {r : ScopeRegistry}

theorem kindAt_eq_some {id : ScopeId} {k : ScopeKind} :
    r.kindAt id = some k ↔ ∃ s, r.scopes[id]? = some s ∧ s.kind = k := Option.map_eq_some_iff

theorem lt_size_of_kindAt {id : ScopeId} {k : ScopeKind} (h : r.kindAt id = some k) :
    id < r.size := by
  obtain ⟨s, hs, -⟩ := kindAt_eq_some.1 h
  exact (List.getElem?_eq_some_iff.1 hs).1

theorem sound_initial : initial.Sound where
  root := ⟨_, rfl, rfl, rfl⟩
  parents := by
    intro id s hs hid
    match id, hs with
    | 0, _ => exact absurd rfl hid
  admits := by
    intro id s hs
    match id, hs with
    | 0, hs => cases hs; simp

theorem getElem?_declare (r : ScopeRegistry) (id other : ScopeId) (name : String)
    (d : Declaration) : (r.declare id name d).2.scopes[other]? =
      r.scopes[other]?.map fun s => if id = other then s.declare name d else s :=
  List.getElem?_modify _ _ _ _

@[simp] theorem kindAt_declare (r : ScopeRegistry) (id other : ScopeId) (name : String)
    (d : Declaration) : (r.declare id name d).2.kindAt other = r.kindAt other := by
  rw [kindAt, getElem?_declare, Option.map_map, kindAt]
  congr 1
  funext s
  simp only [Function.comp_apply]
  split
  · exact s.declare_kind name d
  · rfl

theorem Sound.declare (h : r.Sound) {id : ScopeId} {name : String} {d : Declaration}
    (hd : ∀ k, r.kindAt id = some k → k.admits d.kind = true) : (r.declare id name d).2.Sound := by
  have hold : ∀ {other s'}, (r.declare id name d).2.scopes[other]? = some s' →
      ∃ s, r.scopes[other]? = some s ∧ s'.kind = s.kind ∧ s'.parent = s.parent ∧
        ∀ b ∈ s'.bindings, b ∈ s.bindings ∨ id = other ∧ b = (name, d) := by
    intro other s' hs'
    rw [getElem?_declare] at hs'
    obtain ⟨s, hs, rfl⟩ := Option.map_eq_some_iff.1 hs'
    refine ⟨s, hs, ?_⟩
    split
    · rename_i heq
      exact ⟨s.declare_kind name d, s.declare_parent name d,
        fun b hb => (Scope.mem_declare hb).imp_right fun hb => ⟨heq, hb⟩⟩
    · exact ⟨rfl, rfl, fun b hb => .inl hb⟩
  refine ⟨?_, fun other s' hs' hother => ?_, fun other s' hs' b hb => ?_⟩
  · obtain ⟨s, hs, hkind, hparent⟩ := h.root
    refine ⟨_, by rw [getElem?_declare, hs]; rfl, ?_⟩
    split
    · exact ⟨(s.declare_kind name d).trans hkind, (s.declare_parent name d).trans hparent⟩
    · exact ⟨hkind, hparent⟩
  · obtain ⟨s, hs, -, hparent, -⟩ := hold hs'
    rw [hparent]
    exact h.parents other s hs hother
  · obtain ⟨s, hs, hkind, -, hbindings⟩ := hold hs'
    rw [hkind]
    rcases hbindings b hb with hb | ⟨rfl, rfl⟩
    · exact h.admits other s hs b hb
    · exact hd s.kind (kindAt_eq_some.2 ⟨s, hs, rfl⟩)

theorem kindAt_push_size (r : ScopeRegistry) (kind : ScopeKind) (parent : ScopeId) :
    (r.push kind parent).2.kindAt r.size = some kind := by
  simp [kindAt, push, size]

theorem kindAt_push {kind : ScopeKind} {parent id : ScopeId} {k : ScopeKind}
    (h : r.kindAt id = some k) : (r.push kind parent).2.kindAt id = some k := by
  rw [← h, kindAt, kindAt, push, List.getElem?_append_left (lt_size_of_kindAt h)]

theorem Sound.push (h : r.Sound) (kind : ScopeKind) {parent : ScopeId} (hparent : parent < r.size) :
    (r.push kind parent).2.Sound := by
  have hcases : ∀ {id s}, (r.push kind parent).2.scopes[id]? = some s →
      r.scopes[id]? = some s ∨ id = r.size ∧ s = ⟨kind, some parent, []⟩ := by
    intro id s hs
    rw [ScopeRegistry.push, List.getElem?_append] at hs
    split at hs
    · exact .inl hs
    · rename_i hge
      obtain ⟨hlt, heq⟩ := List.getElem?_eq_some_iff.1 hs
      rw [List.length_singleton] at hlt
      refine .inr ⟨by rw [size]; omega, ?_⟩
      simpa using heq.symm
  refine ⟨?_, fun id s hs hid => ?_, fun id s hs b hb => ?_⟩
  · obtain ⟨s, hs, hroot⟩ := h.root
    have hlt := (List.getElem?_eq_some_iff.1 hs).1
    exact ⟨s, by rw [ScopeRegistry.push, List.getElem?_append_left hlt, hs], hroot⟩
  · rcases hcases hs with hs | ⟨rfl, rfl⟩
    · exact h.parents id s hs hid
    · exact ⟨parent, rfl, hparent⟩
  · rcases hcases hs with hs | ⟨rfl, rfl⟩
    · exact h.admits id s hs b hb
    · cases hb

/-- Variables come to rest in no block. -/
theorem Sound.closestHoist (h : r.Sound) (id : ScopeId) {k : ScopeKind}
    (hk : r.kindAt (r.closestHoist id) = some k) : k.isHoist = true := by
  obtain ⟨s, hs, rfl⟩ := kindAt_eq_some.1 hk
  rw [ScopeRegistry.closestHoist] at hs
  cases hfind : (r.chain id).find? r.isHoist with
  | none =>
    obtain ⟨root, hroot, hkind, -⟩ := h.root
    rw [hfind, Option.getD_none, hroot] at hs
    obtain rfl := Option.some.inj hs
    rw [hkind]
    rfl
  | some found =>
    rw [hfind, Option.getD_some] at hs
    have hfound := List.find?_some hfind
    simpa [isHoist, hs] using hfound

/-- The scope of a function is where its variables come to rest. -/
theorem closestHoist_function {id : ScopeId} (h : r.kindAt id = some .function) :
    r.closestHoist id = id := by
  obtain ⟨s, hs, hkind⟩ := kindAt_eq_some.1 h
  have hlt := (List.getElem?_eq_some_iff.1 hs).1
  obtain ⟨n, hn⟩ : ∃ n, r.scopes.length = n + 1 := ⟨r.scopes.length - 1, by omega⟩
  have hhoist : r.isHoist id = true := by simp [isHoist, hs, hkind, ScopeKind.isHoist]
  rw [closestHoist, chain, hn, chainUpTo, hs]
  simp [hhoist]

end ScopeRegistry

/-! ### The walk -/

namespace Findings

/-- Sound scopes, with a scope of its own for every function found. -/
structure Scoped (st : Findings) : Prop where
  sound : st.scopes.Sound
  functions : ∀ p ∈ st.found, st.scopes.kindAt p.2 = some .function
  distinct : (st.found.map (·.2)).Nodup

/-- A step of the walk arrives at sound scopes, and every scope has kept its kind. -/
structure Walks (st st' : Findings) : Prop where
  result : st'.Scoped
  kinds : ∀ id k, st.scopes.kindAt id = some k → st'.scopes.kindAt id = some k

variable {st st' st'' : Findings}

theorem Scoped.walks (h : st.Scoped) : st.Walks st := ⟨h, fun _ _ hk => hk⟩

theorem Walks.trans (h : st.Walks st') (h' : st'.Walks st'') : st.Walks st'' :=
  ⟨h'.result, fun id k hk => h'.kinds id k (h.kinds id k hk)⟩

theorem Scoped.record (h : st.Scoped) (name : String) : st.Walks (st.record name) :=
  ⟨⟨h.sound, h.functions, h.distinct⟩, fun _ _ hk => hk⟩

theorem Scoped.declare (h : st.Scoped) {scope : ScopeId} {kind : DeclarationKind}
    (hkind : ∀ k, st.scopes.kindAt scope = some k → k.admits kind = true)
    (position : Option Position) (id : Ident) :
    st.Walks (st.declare scope kind position id) where
  result := {
    sound := h.sound.declare hkind
    functions := fun p hp => (ScopeRegistry.kindAt_declare ..).trans (h.functions p hp)
    distinct := h.distinct }
  kinds := fun _ _ hk => (ScopeRegistry.kindAt_declare ..).trans hk

theorem Scoped.declareAll (h : st.Scoped) {scope : ScopeId} {kind : DeclarationKind}
    (hkind : ∀ k, st.scopes.kindAt scope = some k → k.admits kind = true)
    (position : Option Position) (ids : List Ident) :
    st.Walks (st.declareAll scope kind position ids) := by
  induction ids generalizing st with
  | nil => exact h.walks
  | cons id ids ih =>
    have hone := h.declare hkind position id
    refine hone.trans (ih hone.result fun k hk => hkind k ?_)
    rw [← hk]
    exact (ScopeRegistry.kindAt_declare ..).symm

theorem Scoped.declareParam (h : st.Scoped) {scope : ScopeId}
    (hscope : st.scopes.kindAt scope = some .function) (index : Nat) (target : Target) :
    st.Walks (st.declareParam scope index target) := by
  refine h.declareAll (fun k hk => ?_) _ _
  obtain rfl := Option.some.inj (hscope.symm.trans hk)
  rfl

theorem Scoped.declareParams (h : st.Scoped) {scope : ScopeId}
    (hscope : st.scopes.kindAt scope = some .function) (lowered : Bool) (index : Nat)
    (targets : List Target) : st.Walks (declareParams scope lowered index targets st) := by
  induction targets generalizing index st with
  | nil => exact h.walks
  | cons t ts ih =>
    rw [Findings.declareParams]
    split
    · have hone := h.declareParam hscope index t
      exact hone.trans (ih hone.result (hone.kinds _ _ hscope) (index + 1))
    · exact ih h hscope (index + 1)

theorem Scoped.push (h : st.Scoped) (kind : ScopeKind) {parent : ScopeId} {k : ScopeKind}
    (hparent : st.scopes.kindAt parent = some k) : st.Walks (st.push kind parent) where
  result := {
    sound := h.sound.push kind (ScopeRegistry.lt_size_of_kindAt hparent)
    functions := fun p hp => ScopeRegistry.kindAt_push (h.functions p hp)
    distinct := h.distinct }
  kinds := fun _ _ hk => ScopeRegistry.kindAt_push hk

theorem push_kindAt (st : Findings) (kind : ScopeKind) (parent : ScopeId) :
    (st.push kind parent).scopes.kindAt st.scopes.size = some kind :=
  ScopeRegistry.kindAt_push_size _ _ _

theorem note_scopes (st : Findings) (env : Surroundings) (name : Option String) (span : Span)
    (scope : ScopeId) (f : Except SkipReason FunctionNode) :
    (st.note env name span scope f).scopes = st.scopes := by
  cases f with
  | error reason => rfl
  | ok f =>
    rw [note]
    split
    · rfl
    · split <;> rfl

/-- A function gets a new scope, whether it is kept or not. -/
theorem Scoped.pushFunction (h : st.Scoped) {k : ScopeKind} (env : Surroundings)
    (hparent : st.scopes.kindAt env.scope = some k) (name : Option String) (span : Span)
    (f : Except SkipReason FunctionNode) :
    st.Walks ((st.push .function env.scope).note env name span st.scopes.size f) := by
  have hpush := h.push .function hparent
  have hskip : ∀ line reason, st.Walks ((st.push .function env.scope).skip line name reason) :=
    fun _ _ => ⟨⟨hpush.result.sound, hpush.result.functions, hpush.result.distinct⟩, hpush.kinds⟩
  cases f with
  | error reason => exact hskip _ _
  | ok f =>
    rw [note]
    split
    · refine ⟨⟨hpush.result.sound, fun p hp => ?_, ?_⟩, hpush.kinds⟩
      · rcases List.mem_append.1 hp with hp | hp
        · exact hpush.result.functions p hp
        · rw [List.mem_singleton.1 hp]
          exact st.push_kindAt .function env.scope
      · -- every scope given before is older than the new one
        have hnew : st.scopes.size ∉ st.found.map (·.2) := by
          intro hmem
          obtain ⟨p, hp, heq⟩ := List.mem_map.1 hmem
          exact Nat.ne_of_lt (ScopeRegistry.lt_size_of_kindAt (h.functions p hp)) heq
        have hlast : (st.found ++ [(f, st.scopes.size)]).map (·.2) =
          st.found.map (·.2) ++ [st.scopes.size] := List.map_append
        exact hlast ▸ List.Nodup.append h.distinct (List.nodup_singleton _)
          (List.disjoint_singleton.2 hnew)
    · split
      · exact hskip _ _
      · exact hpush

/-- A part of the walk that takes place in a scope of a kind. -/
def WalksIn (scope : ScopeId) (k : ScopeKind) (part : Findings → Findings) : Prop :=
  ∀ st : Findings, st.Scoped → st.scopes.kindAt scope = some k → st.Walks (part st)

variable {scope : ScopeId} {k : ScopeKind}

theorem walksIn_record (name : String) : WalksIn scope k (·.record name) :=
  fun _ hst _ => hst.record name

theorem WalksIn.before {first second : Findings → Findings} (h : WalksIn scope k first)
    (h' : WalksIn scope k second) : WalksIn scope k fun st => second (first st) := by
  intro st hst hk
  have hfirst := h st hst hk
  exact hfirst.trans (h' _ hfirst.result (hfirst.kinds _ _ hk))

end Findings

section

open Findings

mutual
theorem Tree.Node.collect_walks (env : Surroundings) (k : ScopeKind) :
    ∀ n : Node, (∀ m ∈ n.nodes, m.DeclaresVariables) → WalksIn env.scope k (n.collect env)
  | .name id, _ => walksIn_record id.name
  | .group _ parts, h => Node.collectAll_walks env k parts (List.forall_mem_cons.1 h).2
  | .functionName id, _ => by
    intro st hst _
    have hrecord := hst.record id.name
    refine hrecord.trans (hrecord.result.declare (fun k hk => ?_) none id)
    exact ScopeKind.admits_of_isHoist (hst.sound.closestHoist env.scope hk) (by decide)
  | .className id, _ => by
    intro st hst _
    have hclass : ∀ k, st.scopes.kindAt env.scope = some k → k.admits .classBinding = true :=
      fun k _ => k.admits_variable (by decide)
    have hdeclare := hst.declare hclass none id
    exact hdeclare.trans (hdeclare.result.record id.name)
  | .function name span params bodySpan body, h => by
    intro st hst hk
    obtain ⟨hparams, hbody⟩ := List.forall_mem_append.1 (List.forall_mem_cons.1 h).2
    let f := env.functionNode name span params bodySpan body
    have hnew := hst.pushFunction env hk name span f
    have hscope : ((st.push .function env.scope).note env name span st.scopes.size f).scopes.kindAt
        st.scopes.size = some .function := by
      rw [note_scopes]
      exact st.push_kindAt _ _
    have hdeclare := hnew.result.declareParams hscope (env.isLowered f) 0 params
    have hparts := (Target.collectAll_walks { env with
        scope := st.scopes.size, inParameters := env.inParameters || env.isLowered f }
      .function params hparams).before
      (Node.collectAll_walks { env with scope := st.scopes.size } .function body hbody)
    exact (hnew.trans hdeclare).trans
      (hparts _ hdeclare.result (hdeclare.kinds _ _ hscope))
  | .closure _ params body, h => by
    intro st hst hk
    obtain ⟨hparams, hbody⟩ := List.forall_mem_append.1 (List.forall_mem_cons.1 h).2
    have hnew := hst.push .function hk
    have hparts := (Target.collectParams_walks { env with scope := st.scopes.size } 0 params
      hparams).before (Node.collectAll_walks { env with scope := st.scopes.size } .function body hbody)
    exact hnew.trans (hparts _ hnew.result (st.push_kindAt _ _))
  | .block _ body, h => by
    intro st hst hk
    have hnew := hst.push .block hk
    exact hnew.trans (Node.collectAll_walks { env with scope := st.scopes.size } .block body
      (List.forall_mem_cons.1 h).2 _ hnew.result (st.push_kindAt _ _))
  | .handler _ param body, h => by
    intro st hst hk
    obtain ⟨hparam, hbody⟩ := List.forall_mem_append.1 (List.forall_mem_cons.1 h).2
    have hnew := hst.push .block hk
    have hlet : ∀ k, (st.push .block env.scope).scopes.kindAt st.scopes.size = some k →
        k.admits .letBinding = true := fun k _ => k.admits_variable (by decide)
    have hdeclare := hnew.result.declareAll hlet none (param.flatMap (·.bound))
    have hparts := (Target.collectAll_walks { env with scope := st.scopes.size } .block param
      hparam).before (Node.collectAll_walks { env with scope := st.scopes.size } .block body hbody)
    exact (hnew.trans hdeclare).trans
      (hparts _ hdeclare.result (hdeclare.kinds _ _ (st.push_kindAt _ _)))
  | .declaration span kind targets, h => by
    intro st hst hk
    obtain ⟨hkind, htargets⟩ := List.forall_mem_cons.1 h
    -- only `var` leaves its block
    have hadmits : ∀ k, st.scopes.kindAt
        (if kind = .var then st.scopes.closestHoist env.scope else env.scope) = some k →
        k.admits kind = true := by
      intro k hk
      rcases hkind with rfl | hlet
      · exact ScopeKind.admits_of_isHoist (hst.sound.closestHoist env.scope hk) (by decide)
      · exact k.admits_variable (hlet.imp_right .inl)
    have hdeclare := hst.declareAll hadmits none (targets.flatMap (·.bound))
    exact hdeclare.trans (Target.collectAll_walks env k targets htargets _ hdeclare.result
      (hdeclare.kinds _ _ hk))

theorem Tree.Node.collectAll_walks (env : Surroundings) (k : ScopeKind) :
    ∀ ns : List Node, (∀ m ∈ Node.nodesAll ns, m.DeclaresVariables) →
      WalksIn env.scope k (Node.collectAll env ns)
  | [], _ => fun _ hst _ => hst.walks
  | n :: ns, h =>
    (Node.collect_walks env k n (List.forall_mem_append.1 h).1).before
      (Node.collectAll_walks env k ns (List.forall_mem_append.1 h).2)

theorem Tree.Target.collectParams_walks (env : Surroundings) (index : Nat) :
    ∀ ts : List Target, (∀ m ∈ Target.nodesAll ts, m.DeclaresVariables) →
      WalksIn env.scope .function (Target.collectParams env index ts)
  | [], _ => fun _ hst _ => hst.walks
  | t :: ts, h => by
    obtain ⟨ht, hts⟩ := List.forall_mem_append.1 h
    have hdeclare : WalksIn env.scope .function (·.declareParam env.scope index t) :=
      fun _ hst hk => hst.declareParam hk index t
    exact (hdeclare.before (Target.collect_walks env .function t ht)).before
      (Target.collectParams_walks env (index + 1) ts hts)

theorem Tree.Target.collectAll_walks (env : Surroundings) (k : ScopeKind) :
    ∀ ts : List Target, (∀ m ∈ Target.nodesAll ts, m.DeclaresVariables) →
      WalksIn env.scope k (Target.collectAll env ts)
  | [], _ => fun _ hst _ => hst.walks
  | t :: ts, h =>
    (Target.collect_walks env k t (List.forall_mem_append.1 h).1).before
      (Target.collectAll_walks env k ts (List.forall_mem_append.1 h).2)

theorem Tree.Target.collect_walks (env : Surroundings) (k : ScopeKind) :
    ∀ t : Target, (∀ m ∈ t.nodes, m.DeclaresVariables) → WalksIn env.scope k (t.collect env)
  | .name id _ notes, h => (walksIn_record id.name).before (Node.collectAll_walks env k notes h)
  | .object _ fields notes, h =>
    (Field.collectAll_walks env k fields (List.forall_mem_append.1 h).1).before
      (Node.collectAll_walks env k notes (List.forall_mem_append.1 h).2)
  | .array _ slots notes, h =>
    (Slot.collectAll_walks env k slots (List.forall_mem_append.1 h).1).before
      (Node.collectAll_walks env k notes (List.forall_mem_append.1 h).2)
  | .rest _ target notes, h =>
    (Target.collect_walks env k target (List.forall_mem_append.1 h).1).before
      (Node.collectAll_walks env k notes (List.forall_mem_append.1 h).2)
  | .withDefault target value, h =>
    (Target.collect_walks env k target (List.forall_mem_append.1 h).1).before
      (Node.collect_walks env k value (List.forall_mem_append.1 h).2)
  | .undeclared target, h => Target.collect_walks env k target h

theorem Tree.Field.collectAll_walks (env : Surroundings) (k : ScopeKind) :
    ∀ fs : List Field, (∀ m ∈ Field.nodesAll fs, m.DeclaresVariables) →
      WalksIn env.scope k (Field.collectAll env fs)
  | [], _ => fun _ hst _ => hst.walks
  | f :: fs, h =>
    (Field.collect_walks env k f (List.forall_mem_append.1 h).1).before
      (Field.collectAll_walks env k fs (List.forall_mem_append.1 h).2)

theorem Tree.Field.collect_walks (env : Surroundings) (k : ScopeKind) :
    ∀ f : Field, (∀ m ∈ f.nodes, m.DeclaresVariables) → WalksIn env.scope k (f.collect env)
  | .keyed _ keyParts value, h =>
    (Node.collectAll_walks env k keyParts (List.forall_mem_append.1 h).1).before
      (Target.collect_walks env k value (List.forall_mem_append.1 h).2)
  | .shorthand id none, _ => walksIn_record id.name
  | .shorthand id (some value), h =>
    (walksIn_record id.name).before (Node.collect_walks env k value h)
  | .rest target, h => Target.collect_walks env k target h

theorem Tree.Slot.collectAll_walks (env : Surroundings) (k : ScopeKind) :
    ∀ ss : List Slot, (∀ m ∈ Slot.nodesAll ss, m.DeclaresVariables) →
      WalksIn env.scope k (Slot.collectAll env ss)
  | [], _ => fun _ hst _ => hst.walks
  | .hole :: ss, h => Slot.collectAll_walks env k ss h
  | .item t :: ss, h =>
    (Target.collect_walks env k t (List.forall_mem_append.1 h).1).before
      (Slot.collectAll_walks env k ss (List.forall_mem_append.1 h).2)
end

end

/-! ### Numbers -/

namespace Discovery

variable {file : Nat}

theorem number_getElem? (next : Nat) (found : List (FunctionNode × ScopeId)) (r : ScopeRegistry)
    (k : Nat) : (number file next found r).1[k]? =
      found[k]?.map fun p => { p.1 with id := ⟨file, next + k⟩ } := by
  induction found generalizing next k r with
  | nil => rfl
  | cons p found ih =>
    cases k with
    | zero => rfl
    | succ k =>
      have hnext : next + (k + 1) = next + 1 + k := by omega
      rw [hnext]
      exact ih (next + 1) _ k

theorem number_scopes (next : Nat) (found : List (FunctionNode × ScopeId)) (r : ScopeRegistry) :
    (number file next found r).2.scopes = r.scopes := by
  induction found generalizing next r with
  | nil => rfl
  | cons p found ih => exact ih (next + 1) _

/-- Numbers below the first stay with their scopes. -/
theorem number_scopeOf?_of_lt {next k : Nat} (found : List (FunctionNode × ScopeId))
    (r : ScopeRegistry) (hk : k < next) :
    (number file next found r).2.scopeOf? ⟨file, k⟩ = r.scopeOf? ⟨file, k⟩ := by
  induction found generalizing next r with
  | nil => rfl
  | cons p found ih =>
    refine (ih _ (Nat.lt_succ_of_lt hk)).trans ?_
    have hne : (⟨file, k⟩ == (⟨file, next⟩ : FunctionId)) = false := by
      simpa using Nat.ne_of_lt hk
    rw [ScopeRegistry.scopeOf?, ScopeRegistry.associate, List.lookup_cons, hne]
    rfl

theorem number_scopeOf? (next : Nat) {found : List (FunctionNode × ScopeId)} (r : ScopeRegistry)
    {k : Nat} {p : FunctionNode × ScopeId} (hk : found[k]? = some p) :
    (number file next found r).2.scopeOf? ⟨file, next + k⟩ = some p.2 := by
  induction found generalizing next k r with
  | nil => cases hk
  | cons q found ih =>
    cases k with
    | zero =>
      obtain rfl := Option.some.inj hk
      refine (number_scopeOf?_of_lt found _ (Nat.lt_succ_self next)).trans ?_
      rw [ScopeRegistry.scopeOf?, ScopeRegistry.associate, List.lookup_cons, beq_self_eq_true]
    | succ k =>
      have hnext : next + (k + 1) = next + 1 + k := by omega
      rw [hnext]
      exact ih (next + 1) _ hk

end Discovery

/-- Functions in the order of the text, numbered, each with a function scope of its own among
sound scopes. -/
structure ScopeTree (file : Nat) (functions : List FunctionNode) (scopes : ScopeRegistry) :
    Prop where
  ordered : functions.Pairwise fun f g => f.span.start ≤ g.span.start
  numbered : ∀ (k : Nat) (f : FunctionNode), functions[k]? = some f → f.id = ⟨file, k⟩
  sound : scopes.Sound
  own : ∀ f ∈ functions, ∃ id, scopes.scopeOf? f.id = some id ∧ scopes.kindAt id = some .function
  distinct : functions.Pairwise fun f g => scopes.scopeOf? f.id ≠ scopes.scopeOf? g.id

theorem Findings.Scoped.numbered_tree {st : Findings} (h : st.Scoped) (file : Nat)
    {found : List (FunctionNode × ScopeId)} (hfound : found.Perm st.found)
    (hordered : found.Pairwise fun p q => p.1.span.start ≤ q.1.span.start) :
    ScopeTree file (Discovery.number file 0 found st.scopes).1
      (Discovery.number file 0 found st.scopes).2 := by
  have hkinds : ∀ id, (Discovery.number file 0 found st.scopes).2.kindAt id = st.scopes.kindAt id :=
    fun id => by rw [ScopeRegistry.kindAt, Discovery.number_scopes, ScopeRegistry.kindAt]
  have hdistinct : (found.map (·.2)).Nodup := (hfound.map _).nodup_iff.2 h.distinct
  have hget : ∀ {k : Nat} {f : FunctionNode},
      (Discovery.number file 0 found st.scopes).1[k]? = some f →
      ∃ p, found[k]? = some p ∧ f.span = p.1.span ∧ f.id = ⟨file, k⟩ ∧
        (Discovery.number file 0 found st.scopes).2.scopeOf? f.id = some p.2 := by
    intro k f hf
    rw [Discovery.number_getElem?] at hf
    obtain ⟨p, hp, rfl⟩ := Option.map_eq_some_iff.1 hf
    refine ⟨p, hp, rfl, by rw [Nat.zero_add], ?_⟩
    exact Discovery.number_scopeOf? 0 st.scopes hp
  have hsound : (Discovery.number file 0 found st.scopes).2.Sound := by
    have hscopes : (Discovery.number file 0 found st.scopes).2.scopes = st.scopes.scopes :=
      Discovery.number_scopes 0 found st.scopes
    exact ⟨hscopes ▸ h.sound.root, hscopes ▸ h.sound.parents, hscopes ▸ h.sound.admits⟩
  refine ⟨List.pairwise_iff_getElem.2 fun i j hi hj hij => ?_, fun k f hf => ?_, hsound,
    fun f hf => ?_, List.pairwise_iff_getElem.2 fun i j hi hj hij => ?_⟩
  · obtain ⟨p, hp, hspan, -⟩ := hget (List.getElem?_eq_getElem hi)
    obtain ⟨q, hq, hspan', -⟩ := hget (List.getElem?_eq_getElem hj)
    obtain ⟨hi', rfl⟩ := List.getElem?_eq_some_iff.1 hp
    obtain ⟨hj', rfl⟩ := List.getElem?_eq_some_iff.1 hq
    rw [hspan, hspan']
    exact List.pairwise_iff_getElem.1 hordered i j hi' hj' hij
  · obtain ⟨p, -, -, hid, -⟩ := hget hf
    exact hid
  · obtain ⟨k, hk⟩ := List.getElem?_of_mem hf
    obtain ⟨p, hp, -, -, hscope⟩ := hget hk
    refine ⟨p.2, hscope, (hkinds p.2).trans (h.functions p ?_)⟩
    exact hfound.mem_iff.1 (List.mem_of_getElem? hp)
  · obtain ⟨p, hp, -, -, hscope⟩ := hget (List.getElem?_eq_getElem hi)
    obtain ⟨q, hq, -, -, hscope'⟩ := hget (List.getElem?_eq_getElem hj)
    obtain ⟨hi', rfl⟩ := List.getElem?_eq_some_iff.1 hp
    obtain ⟨hj', rfl⟩ := List.getElem?_eq_some_iff.1 hq
    rw [hscope, hscope', Ne, Option.some_inj]
    have hne := List.pairwise_iff_getElem.1 (List.pairwise_map.1 hdistinct) i j hi' hj' hij
    exact hne

/-! ### Passes -/

/-- A step of a pass that declares the variables of a function in `hoist`: functions keep their
scopes, scopes keep their kinds, and sound scopes stay sound. -/
structure ScopesKept {σ : Type} (hoist : ScopeId) (a b : PassState σ) : Prop where
  owners : b.scopes.owners = a.scopes.owners
  kinds : ∀ id, b.scopes.kindAt id = a.scopes.kindAt id
  sound : a.scopes.kindAt hoist = some .function → a.scopes.Sound → b.scopes.Sound

section

variable {σ : Type} {hoist : ScopeId} {a b c : PassState σ}

theorem ScopesKept.of_eq (h : b.scopes = a.scopes) : ScopesKept hoist a b :=
  ⟨by rw [h], fun _ => by rw [h], fun _ hsound => h.symm ▸ hsound⟩

theorem ScopesKept.trans (h : ScopesKept hoist a b) (h' : ScopesKept hoist b c) :
    ScopesKept hoist a c :=
  ⟨h'.owners.trans h.owners, fun id => (h'.kinds id).trans (h.kinds id),
    fun hhoist hsound => h'.sound ((h.kinds hoist).trans hhoist) (h.sound hhoist hsound)⟩

theorem ScopesKept.of_declare {name : String} {d : Declaration}
    (h : b.scopes = (a.scopes.declare hoist name d).2) : ScopesKept hoist a b where
  owners := by rw [h]; rfl
  kinds id := by rw [h, ScopeRegistry.kindAt_declare]
  sound hhoist hsound := by
    rw [h]
    refine hsound.declare fun k hk => ?_
    obtain rfl := Option.some.inj (hhoist.symm.trans hk)
    rfl

theorem ScopesKept.stepsKeep (cx : PassContext σ) (hoist : ScopeId) :
    Lower.StepsKeep cx hoist (ScopesKept hoist) where
  refl _ := .of_eq rfl
  trans _ _ _ h h' := h.trans h'
  register _ _ _ := keeps_modify fun _ => .of_declare rfl
  warn _ _ := keeps_modify fun _ => .of_eq rfl
  extract pattern source := keeps_get_bind fun st => by
    obtain ⟨answer, names, state⟩ := cx.extractor.run pattern source st.names st.extractor
    cases answer <;> exact .of_eq rfl
  placeholder _ _ := keeps_get_bind fun _ => .of_declare rfl

namespace ScopeTree

variable {file : Nat} {functions : List FunctionNode}

theorem of_kept (h : ScopeTree file functions a.scopes) (hkept : ScopesKept hoist a b)
    (hhoist : a.scopes.kindAt hoist = some .function) : ScopeTree file functions b.scopes where
  ordered := h.ordered
  numbered := h.numbered
  sound := hkept.sound hhoist h.sound
  own f hf := by
    obtain ⟨id, hid, hkind⟩ := h.own f hf
    exact ⟨id, by rw [ScopeRegistry.scopeOf?, hkept.owners]; exact hid, (hkept.kinds id).trans hkind⟩
  distinct := by
    simp only [ScopeRegistry.scopeOf?, hkept.owners]
    exact h.distinct

/-- A pass over one of the functions, whether it succeeds or fails. -/
theorem keeps_lowerFunction (cx : PassContext σ) {f : FunctionNode} (hf : f ∈ functions) :
    Keeps (fun a b => ScopeTree file functions a.scopes → ScopeTree file functions b.scopes)
      (lowerFunction cx f) := by
  intro a h
  obtain ⟨scope, hscope, hkind⟩ := h.own f hf
  have hpass := lowerFunction_keeps hscope (ScopesKept.stepsKeep cx _)
  rw [ScopeRegistry.closestHoist_function hkind] at hpass
  exact h.of_kept hpass hkind

end ScopeTree

/-- The state after passes over functions in turn. A pass that fails does not keep the next one
from running. -/
def Lower.passes (cx : PassContext σ) (fs : List FunctionNode) (st : PassState σ) : PassState σ :=
  fs.foldl (fun st f => ((lowerFunction cx f).run.run st).2) st

theorem ScopeTree.passes {file : Nat} {functions fs : List FunctionNode} {st : PassState σ}
    (h : ScopeTree file functions st.scopes) (cx : PassContext σ) (hfs : fs ⊆ functions) :
    ScopeTree file functions (Lower.passes cx fs st).scopes := by
  induction fs generalizing st with
  | nil => exact h
  | cons f fs ih =>
    obtain ⟨hf, hfs⟩ := List.cons_subset.1 hfs
    exact ih (keeps_lowerFunction cx hf st h) hfs

end

/-- The walk over a file finds a scope tree, and passes over the functions that were found, in
any order, leave one. -/
theorem Discovery.scopes_form_tree {statements : List Node}
    (h : ∀ n ∈ Node.nodesAll statements, n.DeclaresVariables) (file : Nat) (lineAt : Nat → Nat)
    (names : NameSet) :
    ScopeTree file (ofStatements file lineAt statements names).functions
      (ofStatements file lineAt statements names).scopes ∧
    ∀ (σ : Type) (cx : PassContext σ) (fs : List FunctionNode) (st : PassState σ),
      fs ⊆ (ofStatements file lineAt statements names).functions →
      st.scopes = (ofStatements file lineAt statements names).scopes →
      ScopeTree file (ofStatements file lineAt statements names).functions
        (Lower.passes cx fs st).scopes := by
  have hinitial : Findings.Scoped ⟨.initial, names, [], []⟩ :=
    ⟨ScopeRegistry.sound_initial, by simp, .nil⟩
  have hwalk := Node.collectAll_walks ⟨file, lineAt, ScopeRegistry.moduleScope, false⟩ .module
    statements h _ hinitial rfl
  let le (p q : FunctionNode × ScopeId) : Bool := decide (p.1.span.start ≤ q.1.span.start)
  have hsorted := @Sorting.sort_pairwise _ le
    (fun p q h => by simp only [le, decide_eq_false_iff_not, decide_eq_true_eq] at h ⊢; omega)
    (fun p q r h h' => by simp only [le, decide_eq_true_eq] at h h' ⊢; omega)
  have htree := hwalk.result.numbered_tree file (Sorting.sort_perm _ _)
    ((hsorted _).imp of_decide_eq_true)
  exact ⟨htree, fun σ cx fs st hfs hst => ScopeTree.passes (hst ▸ htree) cx hfs⟩

/-- `function f({a}) { { let b; var c } }` -/
def hoistedStatements : List Node :=
  [.group ⟨0, 36⟩ [.functionName ⟨"f", ⟨9, 10⟩⟩,
    .function (some "f") ⟨0, 36⟩ [.object ⟨11, 14⟩ [.shorthand ⟨"a", ⟨12, 13⟩⟩ none] []] ⟨16, 36⟩
      [.block ⟨18, 34⟩ [.declaration ⟨20, 26⟩ .letBinding [.name ⟨"b", ⟨24, 25⟩⟩ ⟨24, 25⟩ []],
        .declaration ⟨27, 32⟩ .var [.name ⟨"c", ⟨31, 32⟩⟩ ⟨31, 32⟩ []]]]]]

theorem hoistedStatements_declareVariables :
    ∀ n ∈ Node.nodesAll hoistedStatements, n.DeclaresVariables := by
  simp [hoistedStatements, Node.nodesAll, Node.nodes, Target.nodesAll, Target.nodes, Field.nodesAll,
    Field.nodes, Node.DeclaresVariables]

theorem Discovery.scopes_form_tree_hoisted :
    (∀ n ∈ Node.nodesAll hoistedStatements, n.DeclaresVariables) ∧
    ScopeTree 0 (ofStatements 0 (fun _ => 1) hoistedStatements {}).functions
      (ofStatements 0 (fun _ => 1) hoistedStatements {}).scopes ∧
    ∀ (σ : Type) (cx : PassContext σ) (fs : List FunctionNode) (st : PassState σ),
      fs ⊆ (ofStatements 0 (fun _ => 1) hoistedStatements {}).functions →
      st.scopes = (ofStatements 0 (fun _ => 1) hoistedStatements {}).scopes →
      ScopeTree 0 (ofStatements 0 (fun _ => 1) hoistedStatements {}).functions
        (Lower.passes cx fs st).scopes :=
  ⟨hoistedStatements_declareVariables,
    Discovery.scopes_form_tree hoistedStatements_declareVariables 0 (fun _ => 1) {}⟩

/-- The variable leaves the block, and the pattern of the list is still undeclared. -/
example : (Discovery.ofStatements 0 (fun _ => 1) hoistedStatements {}).scopes.scopes.map
    (fun s => (s.kind, s.parent, s.bindings.map (·.1))) =
      [(.module, none, ["f"]), (.function, some 0, ["c"]), (.block, some 1, ["b"])] := by decide

end ParamLowering
