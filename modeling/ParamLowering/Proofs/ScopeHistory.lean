import Mathlib.Data.List.Induction
import ParamLowering.Proofs.Calls
import ParamLowering.Proofs.ScopeTree
set_option autoImplicit false

/-!
A registry by the calls made to it.

What a registry answers is read off the calls made so far: the first declaration of a name in a
scope counts, a name is looked up along the parents as they were given, and the latest scope of a
function is its scope. The walk along the parents ends, as a parent was there before its child.
-/

namespace ParamLowering

/-- A call that may change a registry. -/
inductive ScopeCall where
  | push (kind : ScopeKind) (parent : ScopeId)
  | declare (scope : ScopeId) (name : String) (declaration : Declaration)
  | associate (function : FunctionId) (scope : ScopeId)
  deriving DecidableEq, Repr

namespace ScopeCall

/-- The scope that a call names. -/
def named : ScopeCall → ScopeId
  | push _ id | declare id _ _ | associate _ id => id

/-- Kind and parent of the scope that a call makes. -/
def frame? : ScopeCall → Option (ScopeKind × Option ScopeId)
  | push kind parent => some (kind, some parent)
  | declare .. | associate .. => none

/-- What a call would declare in a scope. -/
def declared? (id : ScopeId) : ScopeCall → Option (String × Declaration)
  | declare scope name d => if scope = id then some (name, d) else none
  | push .. | associate .. => none

/-- The scope that a call gives to a function. -/
def association? (f : FunctionId) : ScopeCall → Option ScopeId
  | associate g id => if g = f then some id else none
  | push .. | declare .. => none

end ScopeCall

inductive ScopeAnswer where
  | scope (id : ScopeId)
  | isNew (new : Bool)
  | nothing
  deriving DecidableEq, Repr

def ScopeAnswer.scope? : ScopeAnswer → Option ScopeId
  | .scope id => some id
  | .isNew _ | .nothing => none

def ScopeRegistry.perform (r : ScopeRegistry) : ScopeCall → ScopeAnswer × ScopeRegistry
  | .push kind parent => (.scope (r.push kind parent).1, (r.push kind parent).2)
  | .declare id name d => (.isNew (r.declare id name d).1, (r.declare id name d).2)
  | .associate f id => (.nothing, r.associate f id)

/-! ### What calls say -/

namespace ScopeHistory

/-- The registry after some calls, oldest first. -/
def registry (calls : List ScopeCall) : ScopeRegistry :=
  (performAll ScopeRegistry.perform .initial calls).2

def answers (calls : List ScopeCall) : List ScopeAnswer :=
  (performAll ScopeRegistry.perform .initial calls).1

/-- The scopes that the registry gave out. -/
def given (calls : List ScopeCall) : List ScopeId :=
  ScopeRegistry.moduleScope :: (answers calls).filterMap (·.scope?)

/-- Every call names a scope that was given out before it. -/
def UsesGiven (calls : List ScopeCall) : Prop :=
  ∀ (i : Nat) (h : i < calls.length), calls[i].named ∈ given (calls.take i)

instance (calls : List ScopeCall) : Decidable (UsesGiven calls) :=
  inferInstanceAs (Decidable (∀ (i : Nat) (_ : i < calls.length), _))

/-- Kind and parent of every scope, oldest first. -/
def frames (calls : List ScopeCall) : List (ScopeKind × Option ScopeId) :=
  (.module, none) :: calls.filterMap (·.frame?)

def kindOf (calls : List ScopeCall) (id : ScopeId) : Option ScopeKind :=
  (frames calls)[id]?.map (·.1)

/-- Everything that was to be declared in a scope, oldest first. -/
def declarations (calls : List ScopeCall) (id : ScopeId) : List (String × Declaration) :=
  calls.filterMap (·.declared? id)

/-- What counts in a scope for a name: the first declaration. -/
def declaration? (calls : List ScopeCall) (id : ScopeId) (name : String) : Option Declaration :=
  (declarations calls id).lookup name

/-- The scopes that a function was given, oldest first. -/
def associations (calls : List ScopeCall) (f : FunctionId) : List ScopeId :=
  calls.filterMap (·.association? f)

/-- The entries with a name that no entry before them has. -/
def firstOfEach : List (String × Declaration) → List (String × Declaration)
  | [] => []
  | b :: bs => b :: (firstOfEach bs).filter (·.1 ≠ b.1)

/-- The scopes from one on outwards, each the parent of the one before, up to one without. -/
inductive Outwards (calls : List ScopeCall) : ScopeId → List ScopeId → Prop where
  | last {id : ScopeId} {kind : ScopeKind} (h : (frames calls)[id]? = some (kind, none)) :
      Outwards calls id [id]
  | next {id parent : ScopeId} {kind : ScopeKind} {ids : List ScopeId}
      (h : (frames calls)[id]? = some (kind, some parent)) (more : Outwards calls parent ids) :
      Outwards calls id (id :: ids)

/-- The first of some scopes with a property. -/
def Nearest (p : ScopeId → Prop) (ids : List ScopeId) (id : ScopeId) : Prop :=
  ∃ nearer further, ids = nearer ++ id :: further ∧ p id ∧ ∀ n ∈ nearer, ¬p n

/-! ### First declarations -/

theorem firstOfEach_concat (bs : List (String × Declaration)) (name : String) (d : Declaration) :
    firstOfEach (bs ++ [(name, d)]) =
      if (bs.lookup name).isSome then firstOfEach bs else firstOfEach bs ++ [(name, d)] := by
  induction bs with
  | nil => rfl
  | cons b bs ih =>
    rw [List.cons_append, firstOfEach, ih, List.lookup_cons]
    by_cases hb : name = b.1
    · cases hbs : bs.lookup name <;> simp [firstOfEach, hb]
    · have hne : (name == b.1) = false := by simpa using hb
      cases hbs : bs.lookup name <;> simp [firstOfEach, hne, hb]

theorem lookup_filter_ne (bs : List (String × Declaration)) {name other : String}
    (h : name ≠ other) : (bs.filter (·.1 ≠ other)).lookup name = bs.lookup name := by
  induction bs with
  | nil => rfl
  | cons b bs ih =>
    rw [List.filter_cons]
    split
    · rw [List.lookup_cons, List.lookup_cons, ih]
    · rename_i hb
      have hne : (name == b.1) = false := by
        have : b.1 = other := by simpa using hb
        simpa [this] using h
      rw [ih, List.lookup_cons, hne]

theorem lookup_firstOfEach (bs : List (String × Declaration)) (name : String) :
    (firstOfEach bs).lookup name = bs.lookup name := by
  induction bs with
  | nil => rfl
  | cons b bs ih =>
    rw [firstOfEach, List.lookup_cons, List.lookup_cons]
    cases hb : name == b.1 with
    | true => rfl
    | false =>
      have hne : name ≠ b.1 := by simpa using hb
      simp only
      rw [lookup_filter_ne _ hne, ih]

theorem firstOfEach_nodup (bs : List (String × Declaration)) :
    ((firstOfEach bs).map (·.1)).Nodup := by
  induction bs with
  | nil => exact List.nodup_nil
  | cons b bs ih =>
    rw [firstOfEach, List.map_cons, List.nodup_cons]
    refine ⟨?_, ih.sublist (List.filter_sublist.map _)⟩
    simp

/-! ### One more call -/

section

variable (calls : List ScopeCall) (c : ScopeCall)

@[simp] theorem registry_concat :
    registry (calls ++ [c]) = ((registry calls).perform c).2 := by
  rw [registry, performAll_concat]
  rfl

@[simp] theorem answers_concat :
    answers (calls ++ [c]) = answers calls ++ [((registry calls).perform c).1] := by
  rw [answers, performAll_concat]
  rfl

@[simp] theorem frames_concat : frames (calls ++ [c]) = frames calls ++ c.frame?.toList := by
  rw [frames, List.filterMap_append]
  cases h : c.frame? <;> simp [frames, h]

@[simp] theorem declarations_concat (id : ScopeId) :
    declarations (calls ++ [c]) id = declarations calls id ++ (c.declared? id).toList := by
  rw [declarations, List.filterMap_append]
  cases h : c.declared? id <;> simp [declarations, h]

@[simp] theorem associations_concat (f : FunctionId) :
    associations (calls ++ [c]) f = associations calls f ++ (c.association? f).toList := by
  rw [associations, List.filterMap_append]
  cases h : c.association? f <;> simp [associations, h]

end

theorem usesGiven_concat {calls : List ScopeCall} {c : ScopeCall} :
    UsesGiven (calls ++ [c]) ↔ UsesGiven calls ∧ c.named ∈ given calls := by
  constructor
  · intro h
    refine ⟨fun i hi => ?_, ?_⟩
    · have hone := h i (by simp; omega)
      rwa [List.getElem_append_left hi, List.take_append_of_le_length (by omega)] at hone
    · have hlast := h calls.length (by simp)
      rwa [List.getElem_concat_length rfl, List.take_left] at hlast
  · rintro ⟨h, hc⟩ i hi
    rcases Nat.lt_or_ge i calls.length with hlt | hge
    · rw [List.getElem_append_left hlt, List.take_append_of_le_length (by omega)]
      exact h i hlt
    · obtain rfl : i = calls.length := by
        rw [List.length_append, List.length_singleton] at hi
        omega
      rw [List.getElem_concat_length rfl, List.take_left]
      exact hc

/-! ### The scopes that are there -/

theorem length_scopes (calls : List ScopeCall) :
    (registry calls).scopes.length = (frames calls).length := by
  induction calls using List.reverseRecOn with
  | nil => rfl
  | append_singleton calls c ih =>
    cases c with
    | push kind parent =>
      simp [ScopeRegistry.perform, ScopeRegistry.push, ScopeCall.frame?, ih]
    | declare id name d =>
      simp [ScopeRegistry.perform, ScopeRegistry.declare, ScopeCall.frame?, ih]
    | associate f id =>
      simp [ScopeRegistry.perform, ScopeRegistry.associate, ScopeCall.frame?, ih]

/-- Scopes are given out in the order of their numbers. -/
theorem given_eq_range (calls : List ScopeCall) :
    given calls = List.range (frames calls).length := by
  induction calls using List.reverseRecOn with
  | nil => rfl
  | append_singleton calls c ih =>
    rw [given, answers_concat, List.filterMap_append, ← List.cons_append, ← given, ih]
    cases c with
    | push kind parent =>
      rw [frames_concat, ← length_scopes calls]
      simp [ScopeRegistry.perform, ScopeRegistry.push, ScopeAnswer.scope?, ScopeCall.frame?,
        List.range_succ, length_scopes]
    | declare id name d => simp [ScopeRegistry.perform, ScopeAnswer.scope?, ScopeCall.frame?]
    | associate f id => simp [ScopeRegistry.perform, ScopeAnswer.scope?, ScopeCall.frame?]

theorem mem_given {calls : List ScopeCall} {id : ScopeId} :
    id ∈ given calls ↔ id < (frames calls).length := by
  rw [given_eq_range, List.mem_range]

/-- Nothing is declared in a scope before it is there. -/
theorem declarations_eq_nil {calls : List ScopeCall} (h : UsesGiven calls) {id : ScopeId}
    (hid : (frames calls).length ≤ id) : declarations calls id = [] := by
  induction calls using List.reverseRecOn with
  | nil => rfl
  | append_singleton calls c ih =>
    obtain ⟨hcalls, hc⟩ := usesGiven_concat.1 h
    have hlength : (frames calls).length ≤ id := by
      rw [frames_concat, List.length_append] at hid
      omega
    have hdeclared : c.declared? id = none := by
      have hne : c.named ≠ id := Nat.ne_of_lt (Nat.lt_of_lt_of_le (mem_given.1 hc) hlength)
      cases c with
      | push | associate => rfl
      | declare scope name d => exact if_neg hne
    rw [declarations_concat, ih hcalls hlength, hdeclared]
    rfl

/-- A parent was there before its child. -/
theorem parent_lt {calls : List ScopeCall} (h : UsesGiven calls) {id parent : ScopeId}
    {kind : ScopeKind} (hid : (frames calls)[id]? = some (kind, some parent)) : parent < id := by
  induction calls using List.reverseRecOn with
  | nil =>
    match id, hid with
    | 0, hid => cases hid
  | append_singleton calls c ih =>
    obtain ⟨hcalls, hc⟩ := usesGiven_concat.1 h
    rw [frames_concat, List.getElem?_append] at hid
    split at hid
    · exact ih hcalls hid
    · rename_i hge
      cases c with
      | push kind' parent' =>
        have hframe := List.mem_of_getElem? hid
        obtain rfl : parent' = parent := by
          simpa [ScopeCall.frame?, eq_comm] using congrArg Prod.snd (List.mem_singleton.1 hframe)
        exact Nat.lt_of_lt_of_le (mem_given.1 hc) (Nat.not_lt.1 hge)
      | declare | associate => cases hid

theorem getElem?_frames_zero (calls : List ScopeCall) :
    (frames calls)[ScopeRegistry.moduleScope]? = some (.module, none) := rfl

/-- Only the module scope has no parent. -/
theorem eq_module_of_frame {calls : List ScopeCall} {id : ScopeId} {kind : ScopeKind}
    (hid : (frames calls)[id]? = some (kind, none)) : id = ScopeRegistry.moduleScope := by
  match id, hid with
  | 0, _ => rfl
  | id + 1, hid =>
    rw [frames, List.getElem?_cons_succ] at hid
    obtain ⟨c, -, hc⟩ := List.mem_filterMap.1 (List.mem_of_getElem? hid)
    cases c <;> cases hc

/-- Every scope is as the calls say. -/
theorem getElem?_registry {calls : List ScopeCall} (h : UsesGiven calls) (id : ScopeId) :
    (registry calls).scopes[id]? =
      (frames calls)[id]?.map fun f => ⟨f.1, f.2, firstOfEach (declarations calls id)⟩ := by
  induction calls using List.reverseRecOn with
  | nil =>
    match id with
    | 0 => rfl
    | id + 1 => rfl
  | append_singleton calls c ih =>
    obtain ⟨hcalls, hc⟩ := usesGiven_concat.1 h
    replace ih := ih hcalls
    rw [registry_concat, frames_concat, declarations_concat]
    cases c with
    | push kind parent =>
      have hold : declarations calls (frames calls).length = [] :=
        declarations_eq_nil hcalls (Nat.le_refl _)
      simp only [ScopeRegistry.perform, ScopeRegistry.push, ScopeCall.frame?, ScopeCall.declared?,
        Option.toList_some, Option.toList_none, List.append_nil]
      rw [List.getElem?_append, List.getElem?_append, length_scopes]
      split
      · exact ih
      · rename_i hge
        rcases Nat.eq_or_lt_of_le (Nat.not_lt.1 hge) with rfl | hlt
        · simp [hold, firstOfEach]
        · rw [List.getElem?_eq_none (Nat.sub_pos_of_lt hlt),
            List.getElem?_eq_none (Nat.sub_pos_of_lt hlt)]
          rfl
    | declare scope name d =>
      simp only [ScopeRegistry.perform, ScopeCall.frame?, ScopeCall.declared?, Option.toList_none,
        List.append_nil]
      rw [ScopeRegistry.getElem?_declare, ih, Option.map_map]
      congr 1
      funext f
      by_cases hscope : scope = id
      · simp only [Function.comp_apply, hscope, if_true, Option.toList_some, firstOfEach_concat,
          Scope.declare, Scope.get?, lookup_firstOfEach]
        split <;> rfl
      · simp [hscope]
    | associate f scope =>
      simpa [ScopeRegistry.perform, ScopeRegistry.associate, ScopeCall.frame?,
        ScopeCall.declared?] using ih

/-! ### Answers -/

section

variable {calls : List ScopeCall} (h : UsesGiven calls)

include h

theorem get?_registry (id : ScopeId) (name : String) :
    (registry calls).get? id name = declaration? calls id name := by
  rw [ScopeRegistry.get?, getElem?_registry h, declaration?]
  cases hid : (frames calls)[id]? with
  | none => rw [declarations_eq_nil h (List.getElem?_eq_none_iff.1 hid)]; rfl
  | some f => exact lookup_firstOfEach _ _

theorem UsesGiven.take (i : Nat) : UsesGiven (calls.take i) := by
  intro j hj
  rw [List.length_take] at hj
  rw [List.getElem_take, List.take_take, Nat.min_eq_left (by omega)]
  exact h j (by omega)

end

/-- A name that a scope has is declared there no more. -/
theorem declare_of_isSome {r : ScopeRegistry} {id : ScopeId} {name : String}
    (hname : (r.get? id name).isSome) (d : Declaration) : r.declare id name d = (false, r) := by
  have hscopes : (r.declare id name d).2.scopes = r.scopes := by
    refine List.ext_getElem? fun other => ?_
    rw [ScopeRegistry.getElem?_declare]
    cases hs : r.scopes[other]? with
    | none => rfl
    | some s =>
      by_cases hid : id = other
      · rw [ScopeRegistry.get?, hid, hs, Option.bind_some] at hname
        simp [hid, Scope.declare, hname]
      · simp [hid]
  have hnew : (r.declare id name d).1 = false := by
    rw [ScopeRegistry.declare, Option.isNone_eq_false_iff]
    exact hname
  exact Prod.ext hnew (congrArg (ScopeRegistry.mk · r.owners) hscopes)

theorem firstOfEach_prefix (bs more : List (String × Declaration)) :
    firstOfEach bs <+: firstOfEach (bs ++ more) := by
  induction more using List.reverseRecOn with
  | nil => simp
  | append_singleton more b ih =>
    rw [← List.append_assoc, firstOfEach_concat]
    split
    · exact ih
    · exact ih.trans (List.prefix_append _ _)

theorem declarations_take_prefix (calls : List ScopeCall) (i : Nat) (id : ScopeId) :
    declarations (calls.take i) id <+: declarations calls id := by
  conv => rhs; rw [← List.take_append_drop i calls, declarations, List.filterMap_append]
  exact List.prefix_append _ _

/-- The latest word on a function counts. -/
theorem scopeOf?_registry (calls : List ScopeCall) (f : FunctionId) :
    (registry calls).scopeOf? f = (associations calls f).getLast? := by
  induction calls using List.reverseRecOn with
  | nil => rfl
  | append_singleton calls c ih =>
    rw [registry_concat, associations_concat]
    cases c with
    | push kind parent =>
      rw [ScopeCall.association?, Option.toList_none, List.append_nil]
      exact ih
    | declare id name d =>
      rw [ScopeCall.association?, Option.toList_none, List.append_nil]
      exact ih
    | associate g id =>
      rw [ScopeCall.association?, ScopeRegistry.perform, ScopeRegistry.associate,
        ScopeRegistry.scopeOf?, List.lookup_cons]
      by_cases hfg : f = g
      · simp [hfg]
      · have hne : (f == g) = false := by simpa using hfg
        rw [hne, if_neg (Ne.symm hfg), Option.toList_none, List.append_nil]
        exact ih

/-! ### The way outwards -/

namespace Outwards

variable {calls : List ScopeCall} {id : ScopeId} {ids : List ScopeId}

theorem getLast? (hids : Outwards calls id ids) :
    ids.getLast? = some ScopeRegistry.moduleScope := by
  induction hids with
  | last hframe => rw [eq_module_of_frame hframe]; rfl
  | next hframe more ih => rw [List.getLast?_cons, ih]; rfl

variable (h : UsesGiven calls)

include h

/-- Every step goes to an older scope. -/
theorem length_le (hids : Outwards calls id ids) : ids.length ≤ id + 1 := by
  induction hids with
  | last hframe => exact Nat.le_add_left 1 _
  | next hframe more ih => exact Nat.succ_le_succ (Nat.le_trans ih (parent_lt h hframe))

theorem chainUpTo (hids : Outwards calls id ids) {steps : Nat} (hsteps : ids.length ≤ steps) :
    (registry calls).chainUpTo steps id = ids := by
  induction hids generalizing steps with
  | last hframe =>
    obtain ⟨steps, rfl⟩ := Nat.exists_eq_add_of_le' hsteps
    rw [List.length_singleton, ScopeRegistry.chainUpTo, getElem?_registry h, hframe]
    rfl
  | next hframe more ih =>
    obtain ⟨steps, rfl⟩ := Nat.exists_eq_add_of_le' hsteps
    rw [List.length_cons, ← Nat.add_assoc, ScopeRegistry.chainUpTo, getElem?_registry h, hframe]
    simp only [Option.map_some]
    rw [ih (Nat.le_add_left ..)]

theorem length_le_size (hids : Outwards calls id ids) : ids.length ≤ (registry calls).size := by
  have hlt : id < (registry calls).size := by
    rw [ScopeRegistry.size, length_scopes]
    cases hids with
    | last hframe | next hframe more => exact (List.getElem?_eq_some_iff.1 hframe).1
  exact Nat.le_trans (hids.length_le h) hlt

/-- The bound on a chain does not cut it. -/
theorem chain (hids : Outwards calls id ids) : (registry calls).chain id = ids :=
  hids.chainUpTo h (hids.length_le_size h)

end Outwards

theorem exists_outwards {calls : List ScopeCall} (h : UsesGiven calls) {id : ScopeId}
    (hid : id ∈ given calls) : ∃ ids, Outwards calls id ids := by
  induction id using Nat.strongRecOn with
  | ind id ih =>
    rw [mem_given] at hid
    match hframe : (frames calls)[id]? with
    | none => exact absurd hid (Nat.not_lt.2 (List.getElem?_eq_none_iff.1 hframe))
    | some (kind, none) => exact ⟨_, .last hframe⟩
    | some (kind, some parent) =>
      have hlt := parent_lt h hframe
      obtain ⟨ids, hids⟩ := ih parent hlt (mem_given.2 (Nat.lt_trans hlt hid))
      exact ⟨_, .next hframe hids⟩

theorem lookup_registry {calls : List ScopeCall} (h : UsesGiven calls) {id : ScopeId}
    {ids : List ScopeId} (hids : Outwards calls id ids) (name : String) :
    (registry calls).lookup id name =
      ids.findSome? fun s => (declaration? calls s name).map fun d => (s, d) := by
  rw [ScopeRegistry.lookup, hids.chain h]
  simp only [get?_registry h]

theorem lookup_eq_some_iff {calls : List ScopeCall} (h : UsesGiven calls) {id : ScopeId}
    {ids : List ScopeId} (hids : Outwards calls id ids) (name : String) (found : ScopeId)
    (d : Declaration) :
    (registry calls).lookup id name = some (found, d) ↔
      Nearest (fun s => (declaration? calls s name).isSome) ids found ∧
        declaration? calls found name = some d := by
  rw [lookup_registry h hids, List.findSome?_eq_some_iff]
  constructor
  · rintro ⟨nearer, s, further, rfl, hs, hnearer⟩
    obtain ⟨e, he, hpair⟩ := Option.map_eq_some_iff.1 hs
    obtain ⟨rfl, rfl⟩ := Prod.mk.inj hpair
    refine ⟨⟨nearer, further, rfl, Option.isSome_iff_exists.2 ⟨e, he⟩, fun n hn => ?_⟩, he⟩
    simpa using hnearer n hn
  · rintro ⟨⟨nearer, further, rfl, -, hnearer⟩, hd⟩
    refine ⟨nearer, found, further, rfl, by rw [hd]; rfl, fun n hn => ?_⟩
    simpa using hnearer n hn

theorem isHoist_registry {calls : List ScopeCall} (h : UsesGiven calls) (id : ScopeId) :
    (registry calls).isHoist id = true ↔ kindOf calls id ≠ some .block := by
  rw [ScopeRegistry.isHoist, getElem?_registry h, kindOf]
  cases (frames calls)[id]? with
  | none => simp
  | some f => obtain ⟨kind, parent⟩ := f; cases kind <;> simp [ScopeKind.isHoist]

theorem closestHoist_nearest {calls : List ScopeCall} (h : UsesGiven calls) {id : ScopeId}
    {ids : List ScopeId} (hids : Outwards calls id ids) :
    Nearest (fun s => kindOf calls s ≠ some .block) ids ((registry calls).closestHoist id) := by
  have hroot : (registry calls).isHoist ScopeRegistry.moduleScope = true :=
    (isHoist_registry h _).2 (by rw [kindOf, getElem?_frames_zero]; decide)
  have hfind : (ids.find? (registry calls).isHoist).isSome :=
    List.find?_isSome.2 ⟨_, List.mem_of_getLast? hids.getLast?, hroot⟩
  obtain ⟨found, hfound⟩ := Option.isSome_iff_exists.1 hfind
  rw [ScopeRegistry.closestHoist, hids.chain h, hfound, Option.getD_some]
  obtain ⟨hblock, nearer, further, rfl, hnearer⟩ := List.find?_eq_some_iff_append.1 hfound
  refine ⟨nearer, further, rfl, (isHoist_registry h found).1 hblock, fun n hn hkind => ?_⟩
  have hn := hnearer n hn
  rw [(isHoist_registry h n).2 hkind] at hn
  cases hn

/-- What a registry answers is what the calls made to it say. A name that a scope has is declared
there no more, and nothing changes; the declarations of a scope stand in the order of the first
ones and stay; names, and where variables come to rest, are found on the way outwards, which ends
at the module scope however many steps are allowed; the latest scope of a function is its scope. -/
theorem registry_refines_history {calls : List ScopeCall} (h : UsesGiven calls) :
    (∀ i id name d, calls[i]? = some (.declare id name d) →
      (answers calls)[i]? = some (.isNew (declaration? (calls.take i) id name).isNone) ∧
      ((declaration? (calls.take i) id name).isSome →
        registry (calls.take (i + 1)) = registry (calls.take i))) ∧
    (∀ id ∈ given calls,
      (∀ name, (registry calls).get? id name = declaration? calls id name) ∧
      (∃ s, (registry calls).scopes[id]? = some s ∧
        s.bindings = firstOfEach (declarations calls id) ∧ (s.bindings.map (·.1)).Nodup ∧
        ∀ i t, (registry (calls.take i)).scopes[id]? = some t → t.bindings <+: s.bindings) ∧
      ∃ ids, Outwards calls id ids ∧ ids.getLast? = some ScopeRegistry.moduleScope ∧
        ids.length ≤ (registry calls).size ∧
        (∀ steps, ids.length ≤ steps → (registry calls).chainUpTo steps id = ids) ∧
        (∀ name found d, (registry calls).lookup id name = some (found, d) ↔
          Nearest (fun s => (declaration? calls s name).isSome) ids found ∧
            declaration? calls found name = some d) ∧
        (∀ name, (registry calls).lookup id name = none ↔
          ∀ s ∈ ids, declaration? calls s name = none) ∧
        Nearest (fun s => kindOf calls s ≠ some .block) ids ((registry calls).closestHoist id)) ∧
    ∀ f, (registry calls).scopeOf? f = (associations calls f).getLast? := by
  refine ⟨fun i id name d hcall => ?_, fun id hid => ⟨get?_registry h id, ?_, ?_⟩,
    scopeOf?_registry calls⟩
  · have htake : calls.take (i + 1) = calls.take i ++ [.declare id name d] := by
      rw [List.take_add_one, hcall]
      rfl
    have hget := get?_registry (h.take i) id name
    refine ⟨?_, fun hsome => ?_⟩
    · rw [answers, getElem?_performAll _ _ hcall, ← registry, ScopeRegistry.perform,
        ScopeRegistry.declare, hget]
    · rw [htake, registry_concat, ScopeRegistry.perform, declare_of_isSome (hget ▸ hsome)]
  · have hlt := mem_given.1 hid
    refine ⟨_, by rw [getElem?_registry h, List.getElem?_eq_getElem hlt]; rfl, rfl,
      firstOfEach_nodup _, fun i t ht => ?_⟩
    rw [getElem?_registry (h.take i)] at ht
    obtain ⟨f, -, rfl⟩ := Option.map_eq_some_iff.1 ht
    obtain ⟨more, hmore⟩ := declarations_take_prefix calls i id
    exact hmore ▸ firstOfEach_prefix _ more
  · obtain ⟨ids, hids⟩ := exists_outwards h hid
    refine ⟨ids, hids, hids.getLast?, hids.length_le_size h, fun steps => hids.chainUpTo h,
      lookup_eq_some_iff h hids, fun name => ?_, closestHoist_nearest h hids⟩
    rw [lookup_registry h hids, List.findSome?_eq_none_iff]
    simp only [Option.map_eq_none_iff]

/-- A block in a block in a function, with a second word on a name and on a function. -/
def nestedCalls : List ScopeCall :=
  let place : Span := ⟨0, 1⟩
  [.declare 0 "a" ⟨.var, place, none⟩, .push .function 0, .push .block 1, .push .block 2,
    .declare 2 "b" ⟨.letBinding, place, none⟩, .declare 0 "a" ⟨.letBinding, place, none⟩,
    .associate ⟨0, 0⟩ 3, .associate ⟨0, 0⟩ 1]

theorem registry_refines_nested :
    UsesGiven nestedCalls ∧ (answers nestedCalls)[5]? = some (.isNew false) ∧
      (registry nestedCalls).get? 0 "a" = some ⟨.var, ⟨0, 1⟩, none⟩ ∧
      (registry nestedCalls).lookup 3 "b" = some (2, ⟨.letBinding, ⟨0, 1⟩, none⟩) ∧
      (registry nestedCalls).scopeOf? ⟨0, 0⟩ = some 1 := by
  have huses : UsesGiven nestedCalls := by decide
  obtain ⟨hdeclare, hscope, howner⟩ := registry_refines_history huses
  obtain ⟨-, -, ids, -, -, hlength, hchain, hlookup, -⟩ := hscope 3 (by decide)
  obtain rfl : [3, 2, 1, 0] = ids := hchain _ hlength
  exact ⟨huses, (hdeclare 5 0 "a" ⟨.letBinding, ⟨0, 1⟩, none⟩ rfl).1,
    (hscope 0 (by decide)).1 "a",
    (hlookup "b" 2 _).2 ⟨⟨[3], [1, 0], rfl, by decide, by decide⟩, rfl⟩, howner ⟨0, 0⟩⟩

end ScopeHistory

end ParamLowering
