import ParamLowering.Proofs.Accounting
import ParamLowering.Proofs.LeafNames
import ParamLowering.Proofs.Registration
set_option autoImplicit false

/-!
Which scope belongs to which function of a tree, and what the walk declares in it.

The scopes of a file are numbered as its constructs begin: the `k`-th construct that opens a scope
has scope `k + 1`, behind the module scope. Only the parameters of a function are declared there
with a position: all of them, or the plain names if the list is going to be lowered.
-/

namespace ParamLowering

open ParamLowering.Tree

@[simp] theorem ScopeRegistry.get?_push (r : ScopeRegistry) (kind : ScopeKind) (parent s : ScopeId)
    (n : String) : (r.push kind parent).2.get? s n = r.get? s n := by
  rw [ScopeRegistry.get?, push, ScopeRegistry.get?]
  rcases Nat.lt_trichotomy s r.scopes.length with hs | hs | hs
  · rw [List.getElem?_append_left hs]
  · simp [hs, Scope.get?]
  · rw [List.getElem?_eq_none (by simp; omega), List.getElem?_eq_none (by omega)]

@[simp] theorem ScopeRegistry.size_push (r : ScopeRegistry) (kind : ScopeKind) (parent : ScopeId) :
    (r.push kind parent).2.size = r.size + 1 := by simp [push, size]

@[simp] theorem ScopeRegistry.size_declare (r : ScopeRegistry) (id : ScopeId) (name : String)
    (d : Declaration) : (r.declare id name d).2.size = r.size := List.length_modify ..

/-! ### Steps of the walk -/

namespace Findings

/-- `count` scopes are added, and what is declared stays. Among the scopes from before only `own`
gets declarations with a position. The functions found have different scopes, all of them new. -/
structure Grows (own : Option ScopeId) (count : Nat) (a b : Findings) : Prop where
  size : b.scopes.size = a.scopes.size + count
  stays : ∀ s n d, a.scopes.get? s n = some d → b.scopes.get? s n = some d
  kinds : ∀ s k, a.scopes.kindAt s = some k → b.scopes.kindAt s = some k
  early : ∀ s < a.scopes.size, own ≠ some s → ∀ n d, b.scopes.get? s n = some d →
    d.position.isSome = true → a.scopes.get? s n = some d
  found : ∃ new, b.found = a.found ++ new ∧
    (∀ s : Nat, s ∈ new.map (·.2) → a.scopes.size ≤ s ∧ s < b.scopes.size) ∧ (new.map (·.2)).Nodup

variable {own own' : Option ScopeId} {m n : Nat} {a b c : Findings}

theorem Grows.of_eq (hscopes : b.scopes = a.scopes) (hfound : b.found = a.found) :
    Grows own 0 a b where
  size := by rw [hscopes, Nat.add_zero]
  stays s n d hd := by rw [hscopes]; exact hd
  kinds s k hk := by rw [hscopes]; exact hk
  early s _ _ n d hd _ := by rw [← hscopes]; exact hd
  found := ⟨[], by simp [hfound], by simp, List.nodup_nil⟩

theorem Grows.trans (h : Grows own m a b) (h' : Grows own' n b c)
    (hown : ∀ s < a.scopes.size, own ≠ some s → own' ≠ some s) : Grows own (m + n) a c where
  size := by rw [h'.size, h.size, Nat.add_assoc]
  stays s n d hd := h'.stays s n d (h.stays s n d hd)
  kinds s k hk := h'.kinds s k (h.kinds s k hk)
  early s hs hne n d hd hpos := by
    have hsize := h.size
    exact h.early s hs hne n d (h'.early s (by omega) (hown s hs hne) n d hd hpos) hpos
  found := by
    obtain ⟨xs, hxs, hbounds, hnodup⟩ := h.found
    obtain ⟨ys, hys, hbounds', hnodup'⟩ := h'.found
    have hsize := h.size
    have hsize' := h'.size
    refine ⟨xs ++ ys, by rw [hys, hxs, List.append_assoc], ?_, ?_⟩
    · intro s hs
      rw [List.map_append, List.mem_append] at hs
      rcases hs with hs | hs
      · have := hbounds s hs
        omega
      · have := hbounds' s hs
        omega
    · rw [List.map_append]
      refine List.Nodup.append hnodup hnodup' fun s hs hs' => ?_
      have := hbounds s hs
      have := hbounds' s hs'
      omega

theorem Grows.seq (h : Grows own m a b) (h' : Grows own n b c) : Grows own (m + n) a c :=
  h.trans h' fun _ _ hne => hne

variable (st : Findings)

theorem grows_declare {scope : ScopeId} {position : Option Position}
    (h : position = none ∨ own = some scope) (kind : DeclarationKind) (id : Ident) :
    Grows own 0 st (st.declare scope kind position id) where
  size := ScopeRegistry.size_declare ..
  stays s n d hd := ScopeRegistry.get?_declare_of_some hd
  kinds s k hk := by rw [declare, ScopeRegistry.kindAt_declare]; exact hk
  early s _ hne n d hd hpos := by
    rcases ScopeRegistry.get?_declare_cases hd with hd | ⟨rfl, -, rfl⟩
    · exact hd
    · rcases h with rfl | rfl
      · cases hpos
      · exact absurd rfl hne
  found := ⟨[], by simp [declare], by simp, List.nodup_nil⟩

theorem grows_declareAll {scope : ScopeId} {position : Option Position}
    (h : position = none ∨ own = some scope) (kind : DeclarationKind) (ids : List Ident) :
    Grows own 0 st (st.declareAll scope kind position ids) := by
  induction ids generalizing st with
  | nil => exact .of_eq rfl rfl
  | cons id ids ih => exact (st.grows_declare h kind id).seq (ih _)

theorem grows_declareParams (scope : ScopeId) (lowered : Bool) (index : Nat) (ts : List Target) :
    Grows (some scope) 0 st (declareParams scope lowered index ts st) := by
  induction ts generalizing index st with
  | nil => exact .of_eq rfl rfl
  | cons t ts ih =>
    rw [declareParams]
    split
    · exact (st.grows_declareAll (.inr rfl) _ _).seq (ih _ _)
    · exact ih st _

theorem grows_push (kind : ScopeKind) (parent : ScopeId) : Grows own 1 st (st.push kind parent) where
  size := st.scopes.size_push kind parent
  stays s n d hd := (st.scopes.get?_push kind parent s n).trans hd
  kinds s k hk := ScopeRegistry.kindAt_push hk
  early s _ _ n d hd _ := (st.scopes.get?_push kind parent s n).symm.trans hd
  found := ⟨[], by simp [push], by simp, List.nodup_nil⟩

/-- The functions that entering a list adds to those found. -/
theorem found_note (env : Surroundings) (name : Option String) (span : Span) (scope : ScopeId)
    (f : Except SkipReason FunctionNode) :
    (st.note env name span scope f).found = st.found ++ (keep env.inParameters f).map (·, scope) := by
  cases f with
  | error reason => exact (List.append_nil _).symm
  | ok f =>
    cases hhidden : env.inParameters with
    | false => simp [note, hhidden, keep]
    | true =>
      simp only [note, hhidden, keep, Bool.not_true, Bool.false_eq_true, ↓reduceIte, List.map_nil,
        List.append_nil]
      split <;> rfl

theorem mem_keep_iff {hidden : Bool} {f : Except SkipReason FunctionNode} {g : FunctionNode} :
    g ∈ keep hidden f ↔ f = .ok g ∧ hidden = false := by
  cases f with
  | error reason => simp [keep]
  | ok f => cases hidden <;> simp [keep, eq_comm]

theorem length_keep_le (hidden : Bool) (f : Except SkipReason FunctionNode) :
    (keep hidden f).length ≤ 1 := by
  cases f with
  | error reason => simp [keep]
  | ok f => cases hidden <;> simp [keep]

@[simp] theorem found_declareAll (scope : ScopeId) (kind : DeclarationKind)
    (position : Option Position) (ids : List Ident) :
    (st.declareAll scope kind position ids).found = st.found := by
  rw [declareAll]
  induction ids generalizing st with
  | nil => rfl
  | cons id ids ih => rw [List.foldl_cons, ih]; rfl

@[simp] theorem found_declareParams (scope : ScopeId) (lowered : Bool) (index : Nat)
    (ts : List Target) : (declareParams scope lowered index ts st).found = st.found := by
  induction ts generalizing index st with
  | nil => rfl
  | cons t ts ih =>
    rw [declareParams, ih]
    split
    · exact found_declareAll st _ _ _ _
    · rfl

theorem found_enterFunction (env : Surroundings) (name : Option String) (span : Span)
    (params : List Target) (bodySpan : Span) (body : List Node) :
    (st.enterFunction env name span params bodySpan body).found = st.found ++
      (keep env.inParameters (env.functionNode name span params bodySpan body)).map
        (·, st.scopes.size) := by
  rw [enterFunction, found_declareParams, found_note]
  rfl

theorem grows_enterFunction (env : Surroundings) (name : Option String) (span : Span)
    (params : List Target) (bodySpan : Span) (body : List Node) :
    Grows own 1 st (st.enterFunction env name span params bodySpan body) := by
  let f := env.functionNode name span params bodySpan body
  have hpush : Grows own 1 st (st.push .function env.scope) := st.grows_push _ _
  have hnote : Grows own 1 st ((st.push .function env.scope).note env name span st.scopes.size f) := by
    have hscopes := (st.push .function env.scope).note_scopes env name span st.scopes.size f
    have hfound := (st.push .function env.scope).found_note env name span st.scopes.size f
    refine ⟨?_, ?_, ?_, ?_, _, hfound, ?_, ?_⟩
    · rw [hscopes]; exact hpush.size
    · rw [hscopes]; exact hpush.stays
    · rw [hscopes]; exact hpush.kinds
    · rw [hscopes]; exact hpush.early
    · intro s hs
      simp only [List.map_map, Function.comp_def, List.mem_map] at hs
      obtain ⟨-, -, rfl⟩ := hs
      have hsize := hpush.size
      rw [← hscopes] at hsize
      omega
    · rw [List.map_map]
      have hlength := length_keep_le env.inParameters f
      match keep env.inParameters f, hlength with
      | [], _ => exact List.nodup_nil
      | [g], _ => exact List.nodup_singleton _
  refine (hnote.trans (grows_declareParams _ st.scopes.size (env.isLowered f) 0 params) ?_)
  intro s hs _ heq
  obtain rfl := Option.some.inj heq
  exact Nat.lt_irrefl _ hs

end Findings

/-- A walk adds one scope for each construct that opens one. -/
theorem Walked.grows {own : Option ScopeId} {env : Surroundings} {os : List Node} {a b : Findings}
    (h : Walked own env os a b) : Findings.Grows own os.length a b := by
  induction h with
  | done st => exact .of_eq rfl rfl
  | seq first second ihfirst ihsecond =>
    rw [List.length_append]
    exact ihfirst.seq ihsecond
  | record st name => exact .of_eq rfl rfl
  | declare st scope kind ids => exact st.grows_declareAll (.inl rfl) kind ids
  | param st index target => exact st.grows_declareAll (.inr rfl) _ _
  | @scope own env n xs a b kind hn inside ih =>
    rw [List.length_cons, Nat.add_comm]
    refine (a.grows_push kind env.scope).trans ih fun s hs _ heq => ?_
    obtain rfl := Option.some.inj heq
    exact Nat.lt_irrefl _ hs
  | @function own env name span params bodySpan body xs ys a b c list statements ihlist ihbody =>
    rw [List.length_cons, List.length_append, Nat.add_comm]
    exact (a.grows_enterFunction env name span params bodySpan body).trans (ihlist.seq ihbody)
      fun _ _ _ heq => by cases heq

/-! ### Parameters -/

namespace Findings

variable (st : Findings) {scope : ScopeId} {n : String} {d : Declaration}

theorem get?_declareAll_cases {kind : DeclarationKind} {position : Option Position}
    {ids : List Ident}
    (h : (st.declareAll scope kind position ids).scopes.get? scope n = some d) :
    st.scopes.get? scope n = some d ∨ n ∈ ids.map (·.name) ∧ d.position = position := by
  induction ids generalizing st with
  | nil => exact .inl h
  | cons id ids ih =>
    rcases ih (st.declare scope kind position id) h with h | ⟨hn, hd⟩
    · rcases ScopeRegistry.get?_declare_cases h with h | ⟨-, rfl, rfl⟩
      · exact .inl h
      · exact .inr ⟨List.mem_cons_self, rfl⟩
    · exact .inr ⟨List.mem_cons_of_mem _ hn, hd⟩

theorem isSome_get?_declareAll (kind : DeclarationKind) (position : Option Position)
    {ids : List Ident} (hscope : scope < st.scopes.size) (hn : n ∈ ids.map (·.name)) :
    ((st.declareAll scope kind position ids).scopes.get? scope n).isSome := by
  induction ids generalizing st with
  | nil => cases hn
  | cons id ids ih =>
    rcases List.mem_cons.1 hn with rfl | hn
    · have hfirst : ((st.declare scope kind position id).scopes.get? scope id.name).isSome :=
        ScopeRegistry.isSome_get?_declare hscope
      obtain ⟨d, hd⟩ := Option.isSome_iff_exists.1 hfirst
      have hlater : Grows (some scope) 0 _
          ((st.declare scope kind position id).declareAll scope kind position ids) :=
        grows_declareAll _ (.inr rfl) kind ids
      exact Option.isSome_iff_exists.2 ⟨d, hlater.stays _ _ _ hd⟩
    · refine ih (st.declare scope kind position id) ?_ hn
      rw [declare, ScopeRegistry.size_declare]
      exact hscope

theorem get?_declareParams_cases {lowered : Bool} {index : Nat} {ts : List Target}
    (h : (declareParams scope lowered index ts st).scopes.get? scope n = some d) :
    st.scopes.get? scope n = some d ∨ ∃ (j : Nat) (t : Target), ts[j]? = some t ∧
      (!lowered || t.isName) = true ∧ n ∈ t.names ∧ d.position = some (t.position (index + j)) := by
  induction ts generalizing index st with
  | nil => exact .inl h
  | cons t ts ih =>
    rw [declareParams] at h
    rcases ih _ h with h | ⟨j, u, hu, hkept, hn, hd⟩
    · split at h
      · rename_i hkept
        rcases st.get?_declareAll_cases h with h | ⟨hn, hd⟩
        · exact .inl h
        · exact .inr ⟨0, t, rfl, hkept, hn, hd⟩
      · exact .inl h
    · refine .inr ⟨j + 1, u, hu, hkept, hn, ?_⟩
      rw [hd, Nat.add_assoc, Nat.add_comm 1 j]

theorem isSome_get?_declareParams {lowered : Bool} {index : Nat} {ts : List Target} {t : Target}
    (hscope : scope < st.scopes.size) (ht : t ∈ ts) (hkept : (!lowered || t.isName) = true)
    (hn : n ∈ t.names) : ((declareParams scope lowered index ts st).scopes.get? scope n).isSome := by
  induction ts generalizing index st with
  | nil => cases ht
  | cons u ts ih =>
    rw [declareParams]
    rcases List.mem_cons.1 ht with rfl | ht
    · rw [if_pos hkept]
      have hfirst := st.isSome_get?_declareAll .param (some (t.position index)) hscope hn
      obtain ⟨d, hd⟩ := Option.isSome_iff_exists.1 hfirst
      exact Option.isSome_iff_exists.2 ⟨d, (grows_declareParams _ scope lowered (index + 1) ts).stays
        _ _ _ hd⟩
    · refine ih _ ?_ ht
      split
      · have hgrows : Grows (some scope) 0 st
            (st.declareAll scope .param (some (u.position index)) u.bound) :=
          st.grows_declareAll (.inr rfl) .param u.bound
        exact hgrows.size ▸ hscope
      · exact hscope

end Findings

/-- What a function finds in its scope: parameters with their positions, all of them or the plain
names only, and no other declaration with a position. -/
structure FunctionScope (file : Nat) (lineAt : Nat → Nat) (name : Option String) (span : Span)
    (params : List Target) (bodySpan : Span) (body : List Node) (scope : ScopeId) (lowered : Bool)
    (st : Findings) : Prop where
  kind : st.scopes.kindAt scope = some .function
  declared : ∀ t ∈ params, (!lowered || t.isName) = true → ∀ n ∈ t.names,
    (st.scopes.get? scope n).isSome
  positions : ∀ n d, st.scopes.get? scope n = some d → d.position.isSome = true →
    ∃ (j : Nat) (t : Target), params[j]? = some t ∧ (!lowered || t.isName) = true ∧ n ∈ t.names ∧
      d.position = some (t.position j)
  read : ∀ f, (f, scope) ∈ st.found →
    readFunction file lineAt name span params bodySpan body = .ok f ∧ lowered = f.isModern
  found : lowered = true → ∃ f, (f, scope) ∈ st.found

namespace FunctionScope

variable {file : Nat} {lineAt : Nat → Nat} {name : Option String} {span : Span}
  {params : List Target} {bodySpan : Span} {body : List Node} {scope : ScopeId} {lowered : Bool}
  {a b : Findings}

/-- Nothing that follows takes any of it back. -/
theorem grows (h : FunctionScope file lineAt name span params bodySpan body scope lowered a)
    {own : Option ScopeId} {m : Nat} (hgrows : Findings.Grows own m a b)
    (hown : own ≠ some scope) :
    FunctionScope file lineAt name span params bodySpan body scope lowered b where
  kind := hgrows.kinds _ _ h.kind
  declared t ht hkept n hn := by
    obtain ⟨d, hd⟩ := Option.isSome_iff_exists.1 (h.declared t ht hkept n hn)
    exact Option.isSome_iff_exists.2 ⟨d, hgrows.stays _ _ _ hd⟩
  positions n d hd hpos := h.positions n d
    (hgrows.early _ (ScopeRegistry.lt_size_of_kindAt h.kind) hown n d hd hpos) hpos
  read f hf := by
    obtain ⟨new, hnew, hbounds, -⟩ := hgrows.found
    rw [hnew, List.mem_append] at hf
    rcases hf with hf | hf
    · exact h.read f hf
    · have hlt := ScopeRegistry.lt_size_of_kindAt h.kind
      have hge := (hbounds scope (List.mem_map_of_mem hf)).1
      exact absurd hlt (Nat.not_lt.2 hge)
  found hlowered := by
    obtain ⟨f, hf⟩ := h.found hlowered
    obtain ⟨new, hnew, -⟩ := hgrows.found
    exact ⟨f, by rw [hnew]; exact List.mem_append_left _ hf⟩

end FunctionScope

/-- Every function found has a scope that is there. -/
def Findings.Bounded (st : Findings) : Prop :=
  ∀ s : Nat, s ∈ st.found.map (·.2) → s < st.scopes.size

theorem Findings.Grows.bounded {own : Option ScopeId} {m : Nat} {a b : Findings}
    (h : Findings.Grows own m a b) (ha : a.Bounded) : b.Bounded := by
  intro s hs
  obtain ⟨new, hnew, hbounds, -⟩ := h.found
  rw [hnew, List.map_append, List.mem_append] at hs
  rcases hs with hs | hs
  · have hlt := ha s hs
    have hsize := h.size
    omega
  · exact (hbounds s hs).2

theorem Findings.enterFunction_scope (st : Findings) (hst : st.Bounded) (env : Surroundings)
    (name : Option String) (span : Span) (params : List Target) (bodySpan : Span)
    (body : List Node) :
    FunctionScope env.file env.lineAt name span params bodySpan body st.scopes.size
      (env.isLowered (env.functionNode name span params bodySpan body))
      (st.enterFunction env name span params bodySpan body) := by
  let f := env.functionNode name span params bodySpan body
  let new := (st.push .function env.scope).note env name span st.scopes.size f
  have hscopes : new.scopes = (st.push .function env.scope).scopes := note_scopes _ _ _ _ _ _
  have hgrows : Findings.Grows (some st.scopes.size) 0 new
      (st.enterFunction env name span params bodySpan body) := grows_declareParams _ _ _ _ _
  have hfresh : ∀ n, new.scopes.get? st.scopes.size n = none := by
    intro n
    rw [hscopes]
    refine (st.scopes.get?_push .function env.scope st.scopes.size n).trans ?_
    have hnone : st.scopes.scopes[st.scopes.size]? = none :=
      List.getElem?_eq_none (Nat.le_refl _)
    rw [ScopeRegistry.get?, hnone, Option.bind_none]
  have hkind : new.scopes.kindAt st.scopes.size = some .function := by
    rw [hscopes]
    exact st.push_kindAt .function env.scope
  have hfound := st.found_enterFunction env name span params bodySpan body
  refine ⟨hgrows.kinds _ _ hkind, fun t ht hkept n hn => ?_, fun n d hd _ => ?_, fun g hg => ?_,
    fun hlowered => ?_⟩
  · exact isSome_get?_declareParams new (ScopeRegistry.lt_size_of_kindAt hkind) ht hkept hn
  · rcases get?_declareParams_cases new hd with hold | ⟨j, t, ht, hkept, hn, hpos⟩
    · rw [hfresh n] at hold
      cases hold
    · exact ⟨j, t, ht, hkept, hn, by rw [hpos, Nat.zero_add]⟩
  · rw [hfound, List.mem_append] at hg
    rcases hg with hg | hg
    · exact absurd (hst _ (List.mem_map_of_mem hg)) (Nat.lt_irrefl _)
    · obtain ⟨g', hg', heq⟩ := List.mem_map.1 hg
      obtain ⟨rfl, -⟩ := Prod.mk.inj heq
      obtain ⟨hread, hhidden⟩ := mem_keep_iff.1 hg'
      exact ⟨hread, by simp [hread, Surroundings.isLowered, hhidden]⟩
  · rw [hfound]
    cases hread : env.functionNode name span params bodySpan body with
    | ok g =>
      rw [hread] at hlowered
      simp only [Surroundings.isLowered, Bool.and_eq_true, Bool.not_eq_true'] at hlowered
      exact ⟨g, List.mem_append_right _ (List.mem_map_of_mem (mem_keep_iff.2 ⟨rfl, hlowered.1⟩))⟩
    | error reason => simp [hread, Surroundings.isLowered] at hlowered

/-- Every function of a walk has the scope whose number is that of its place among the constructs
that open scopes. -/
theorem Walked.function_scope {own : Option ScopeId} {env : Surroundings} {os : List Node}
    {a b : Findings} (h : Walked own env os a b) (hown : ∀ s, own = some s → s < a.scopes.size)
    (ha : a.Bounded) {k : Nat} {name : Option String} {span : Span} {params : List Target}
    {bodySpan : Span} {body : List Node}
    (hk : os[k]? = some (.function name span params bodySpan body)) :
    ∃ lowered, FunctionScope env.file env.lineAt name span params bodySpan body
      (a.scopes.size + k) lowered b := by
  induction h generalizing k with
  | done st => cases hk
  | record st name => cases hk
  | declare st scope kind ids => cases hk
  | param st index target => cases hk
  | @seq own env xs ys a b c first second ihfirst ihsecond =>
    have hgrows := first.grows
    have hsize := hgrows.size
    by_cases hlt : k < xs.length
    · rw [List.getElem?_append_left hlt] at hk
      obtain ⟨lowered, hscope⟩ := ihfirst hown ha hk
      refine ⟨lowered, hscope.grows second.grows fun heq => ?_⟩
      exact absurd (hown _ heq) (Nat.not_lt.2 (Nat.le_add_right _ _))
    · rw [List.getElem?_append_right (by omega)] at hk
      have hown' : ∀ s, own = some s → s < b.scopes.size := fun s hs =>
        Nat.lt_of_lt_of_le (hown s hs) (by omega)
      obtain ⟨lowered, hscope⟩ := ihsecond hown' (hgrows.bounded ha) hk
      rw [hsize, Nat.add_assoc, Nat.add_sub_cancel' (by omega)] at hscope
      exact ⟨lowered, hscope⟩
  | @scope own env n xs a b kind hn inside ih =>
    cases k with
    | zero =>
      obtain rfl := Option.some.inj hk
      cases hn
    | succ k =>
      have hpush : Findings.Grows own 1 a (a.push kind env.scope) := a.grows_push kind env.scope
      have hown' : ∀ s, some a.scopes.size = some s → s < (a.push kind env.scope).scopes.size := by
        rintro s ⟨⟩
        exact hpush.size ▸ Nat.lt_succ_self _
      obtain ⟨lowered, hscope⟩ := ih hown' (hpush.bounded ha) hk
      rw [hpush.size, Nat.add_assoc, Nat.add_comm 1 k] at hscope
      exact ⟨lowered, hscope⟩
  | @function own env fname fspan fparams fbodySpan fbody xs ys a b c list statements ihlist ihbody =>
    have henter : Findings.Grows own 1 a _ :=
      a.grows_enterFunction env fname fspan fparams fbodySpan fbody
    have hlist := list.grows
    cases k with
    | zero =>
      obtain ⟨rfl, rfl, rfl, rfl, rfl⟩ := Node.function.inj (Option.some.inj hk)
      have hscope := a.enterFunction_scope ha env fname fspan fparams fbodySpan fbody
      exact ⟨_, (hscope.grows hlist (by simp)).grows statements.grows (by simp)⟩
    | succ k =>
      rw [List.getElem?_cons_succ] at hk
      have hsize := henter.size
      have hsize' := hlist.size
      by_cases hlt : k < xs.length
      · rw [List.getElem?_append_left hlt] at hk
        obtain ⟨lowered, hscope⟩ := ihlist (by simp) (henter.bounded ha) hk
        rw [hsize, Nat.add_assoc, Nat.add_comm 1 k] at hscope
        exact ⟨lowered, hscope.grows statements.grows (by simp)⟩
      · rw [List.getElem?_append_right (by omega)] at hk
        obtain ⟨lowered, hscope⟩ := ihbody (by simp) (hlist.bounded (henter.bounded ha)) hk
        have hplace : b.scopes.size + (k - xs.length) = a.scopes.size + (k + 1) := by omega
        rw [hplace] at hscope
        exact ⟨lowered, hscope⟩

/-- The scope of a function found is that of a function. -/
theorem Walked.found_function {own : Option ScopeId} {env : Surroundings} {os : List Node}
    {a b : Findings} (h : Walked own env os a b) {s : Nat} (hs : s ∈ b.found.map (·.2)) :
    s ∈ a.found.map (·.2) ∨
      ∃ k n, os[k]? = some n ∧ n.isFunction = true ∧ s = a.scopes.size + k := by
  induction h with
  | done st => exact .inl hs
  | record st name => exact .inl hs
  | declare st scope kind ids => exact .inl (by simpa using hs)
  | param st index target => exact .inl (by simpa [Findings.declareParam] using hs)
  | @seq own env xs ys a b c first second ihfirst ihsecond =>
    rcases ihsecond hs with hs | ⟨k, n, hk, hn, rfl⟩
    · rcases ihfirst hs with hs | ⟨k, n, hk, hn, rfl⟩
      · exact .inl hs
      · have hlt := (List.getElem?_eq_some_iff.1 hk).1
        exact .inr ⟨k, n, by rw [List.getElem?_append_left hlt, hk], hn, rfl⟩
    · refine .inr ⟨xs.length + k, n, ?_, hn, ?_⟩
      · rw [List.getElem?_append_right (by omega), Nat.add_sub_cancel_left, hk]
      · rw [first.grows.size, Nat.add_assoc]
  | @scope own env n xs a b kind hn inside ih =>
    rcases ih hs with hs | ⟨k, m, hk, hm, rfl⟩
    · exact .inl hs
    · refine .inr ⟨k + 1, m, hk, hm, ?_⟩
      rw [Findings.push, ScopeRegistry.size_push]
      omega
  | @function own env name span params bodySpan body xs ys a b c list statements ihlist ihbody =>
    have henter : Findings.Grows own 1 a _ :=
      a.grows_enterFunction env name span params bodySpan body
    have hsize := henter.size
    rcases ihbody hs with hs | ⟨k, n, hk, hn, rfl⟩
    · rcases ihlist hs with hs | ⟨k, n, hk, hn, rfl⟩
      · rw [Findings.found_enterFunction, List.map_append, List.mem_append] at hs
        rcases hs with hs | hs
        · exact .inl hs
        · simp only [List.map_map, Function.comp_def, List.mem_map] at hs
          obtain ⟨-, -, rfl⟩ := hs
          exact .inr ⟨0, _, rfl, rfl, rfl⟩
      · have hlt := (List.getElem?_eq_some_iff.1 hk).1
        refine .inr ⟨k + 1, n, ?_, hn, by omega⟩
        rw [List.getElem?_cons_succ, List.getElem?_append_left hlt, hk]
    · have hsize' := list.grows.size
      refine .inr ⟨xs.length + k + 1, n, ?_, hn, by omega⟩
      rw [List.getElem?_cons_succ, List.getElem?_append_right (by omega), Nat.add_sub_cancel_left, hk]

/-! ### The result -/

namespace Discovery

variable (file : Nat) (lineAt : Nat → Nat) (statements : List Node) (names : NameSet)

/-- All that the walk over a file finds, before the functions are put in order. -/
def walked : Findings :=
  Node.collectAll ⟨file, lineAt, ScopeRegistry.moduleScope, false⟩ statements
    ⟨ScopeRegistry.initial, names, [], []⟩

theorem walked_walk : Walked none ⟨file, lineAt, ScopeRegistry.moduleScope, false⟩
    (openers (Node.nodesAll statements)) ⟨.initial, names, [], []⟩
    (walked file lineAt statements names) :=
  Node.collectAll_walked statements none _ _

theorem scopes_ofStatements : (ofStatements file lineAt statements names).scopes.scopes =
    (walked file lineAt statements names).scopes.scopes := number_scopes 0 _ _

theorem get?_ofStatements (s : ScopeId) (n : String) :
    (ofStatements file lineAt statements names).scopes.get? s n =
      (walked file lineAt statements names).scopes.get? s n := by
  rw [ScopeRegistry.get?, scopes_ofStatements, ScopeRegistry.get?]

theorem kindAt_ofStatements (s : ScopeId) :
    (ofStatements file lineAt statements names).scopes.kindAt s =
      (walked file lineAt statements names).scopes.kindAt s := by
  rw [ScopeRegistry.kindAt, scopes_ofStatements, ScopeRegistry.kindAt]

/-- The functions found, in the order in which they are numbered. -/
def sorted : List (FunctionNode × ScopeId) :=
  Sorting.sort (fun a b => decide (a.1.span.start ≤ b.1.span.start))
    (walked file lineAt statements names).found

theorem mem_sorted {p : FunctionNode × ScopeId} :
    p ∈ sorted file lineAt statements names ↔ p ∈ (walked file lineAt statements names).found :=
  (Sorting.sort_perm _ _).mem_iff

theorem getElem?_functions (k : Nat) :
    (ofStatements file lineAt statements names).functions[k]? =
      (sorted file lineAt statements names)[k]?.map fun p => { p.1 with id := ⟨file, k⟩ } := by
  have hnumber : (ofStatements file lineAt statements names).functions[k]? = _ :=
    number_getElem? 0 (sorted file lineAt statements names)
      (walked file lineAt statements names).scopes k
  rw [Nat.zero_add] at hnumber
  exact hnumber

theorem scopeOf?_sorted {k : Nat} {p : FunctionNode × ScopeId}
    (h : (sorted file lineAt statements names)[k]? = some p) :
    (ofStatements file lineAt statements names).scopes.scopeOf? ⟨file, k⟩ = some p.2 := by
  have hnumber : (ofStatements file lineAt statements names).scopes.scopeOf? _ = some p.2 :=
    number_scopeOf? 0 (walked file lineAt statements names).scopes h
  rw [Nat.zero_add] at hnumber
  exact hnumber

/-- A function returned is one that was found, with its scope. -/
theorem mem_functions {f : FunctionNode}
    (h : f ∈ (ofStatements file lineAt statements names).functions) :
    ∃ p ∈ (walked file lineAt statements names).found, p.1 = { f with id := p.1.id } ∧
      (ofStatements file lineAt statements names).scopes.scopeOf? f.id = some p.2 := by
  obtain ⟨k, hk⟩ := List.getElem?_of_mem h
  rw [getElem?_functions] at hk
  obtain ⟨p, hp, rfl⟩ := Option.map_eq_some_iff.1 hk
  exact ⟨p, (mem_sorted _ _ _ _).1 (List.mem_of_getElem? hp), rfl, scopeOf?_sorted _ _ _ _ hp⟩

theorem exists_function {p : FunctionNode × ScopeId}
    (h : p ∈ (walked file lineAt statements names).found) :
    ∃ f ∈ (ofStatements file lineAt statements names).functions, p.1 = { f with id := p.1.id } ∧
      (ofStatements file lineAt statements names).scopes.scopeOf? f.id = some p.2 := by
  obtain ⟨k, hk⟩ := List.getElem?_of_mem ((mem_sorted _ _ _ _).2 h)
  have hf := getElem?_functions file lineAt statements names k
  rw [hk] at hf
  exact ⟨_, List.mem_of_getElem? hf, rfl, scopeOf?_sorted _ _ _ _ hk⟩

theorem walked_distinct : ((walked file lineAt statements names).found.map (·.2)).Nodup := by
  obtain ⟨new, hnew, -, hnodup⟩ := (walked_walk file lineAt statements names).grows.found
  rw [hnew]
  exact hnodup

/-- No two functions returned share a scope. -/
theorem scopes_distinct : (ofStatements file lineAt statements names).functions.Pairwise
    fun f g => (ofStatements file lineAt statements names).scopes.scopeOf? f.id ≠
      (ofStatements file lineAt statements names).scopes.scopeOf? g.id := by
  have hnodup : ((sorted file lineAt statements names).map (·.2)).Nodup :=
    ((Sorting.sort_perm _ _).map _).nodup_iff.2 (walked_distinct file lineAt statements names)
  refine List.pairwise_iff_getElem.2 fun i j hi hj hij => ?_
  have hf := getElem?_functions file lineAt statements names i
  have hg := getElem?_functions file lineAt statements names j
  rw [List.getElem?_eq_getElem hi] at hf
  rw [List.getElem?_eq_getElem hj] at hg
  obtain ⟨p, hp, hfp⟩ := Option.map_eq_some_iff.1 hf.symm
  obtain ⟨q, hq, hgq⟩ := Option.map_eq_some_iff.1 hg.symm
  rw [← hfp, ← hgq, scopeOf?_sorted _ _ _ _ hp, scopeOf?_sorted _ _ _ _ hq, Ne, Option.some_inj]
  obtain ⟨hi', rfl⟩ := List.getElem?_eq_some_iff.1 hp
  obtain ⟨hj', rfl⟩ := List.getElem?_eq_some_iff.1 hq
  exact List.pairwise_iff_getElem.1 (List.pairwise_map.1 hnodup) i j hi' hj' hij

variable {statements} {k : Nat} {name : Option String} {span : Span}
  {params : List Target} {bodySpan : Span} {body : List Node}

/-- The function at the `k`-th construct that opens a scope has scope `k + 1`. -/
theorem function_scope
    (h : (openers (Node.nodesAll statements))[k]? = some (.function name span params bodySpan body)) :
    ∃ lowered, FunctionScope file lineAt name span params bodySpan body (k + 1) lowered
      (walked file lineAt statements names) := by
  obtain ⟨lowered, hscope⟩ := (walked_walk file lineAt statements names).function_scope (by simp)
    (fun _ hs => by cases hs) h
  have hplace : (ScopeRegistry.initial).size + k = k + 1 := Nat.add_comm 1 k
  exact ⟨lowered, hplace ▸ hscope⟩

theorem kindAt_function
    (h : (openers (Node.nodesAll statements))[k]? = some (.function name span params bodySpan body)) :
    (ofStatements file lineAt statements names).scopes.kindAt (k + 1) = some .function := by
  obtain ⟨lowered, hfunction⟩ := function_scope file lineAt names h
  rw [kindAt_ofStatements]
  exact hfunction.kind

variable {file lineAt}

/-- A function returned is read from the function that its scope was opened for. -/
theorem function_read {names : NameSet} {f : FunctionNode}
    (hf : f ∈ (ofStatements file lineAt statements names).functions)
    (hk : (openers (Node.nodesAll statements))[k]? =
      some (.function name span params bodySpan body))
    (hscope : (ofStatements file lineAt statements names).scopes.scopeOf? f.id = some (k + 1)) :
    ∃ lowered, FunctionScope file lineAt name span params bodySpan body (k + 1) lowered
        (walked file lineAt statements names) ∧ lowered = f.isModern ∧
      readFunction file lineAt name span params bodySpan body =
        .ok { f with id := ⟨file, 0⟩ } := by
  obtain ⟨lowered, hfunction⟩ := function_scope file lineAt names hk
  obtain ⟨⟨g, s⟩, hg, hgf, hs⟩ := mem_functions file lineAt statements names hf
  obtain rfl : s = k + 1 := Option.some.inj (hs.symm.trans hscope)
  obtain ⟨hread, hlowered⟩ := hfunction.read g hg
  obtain ⟨list, -, hlist⟩ := Surroundings.functionNode_eq_ok hread
  have hid : g.id = ⟨file, 0⟩ := by rw [hlist]
  have hgf : g = { f with id := ⟨file, 0⟩ } := by rw [← hid]; exact hgf
  refine ⟨lowered, hfunction, ?_, ?_⟩
  · rw [hlowered, hgf]
    rfl
  · rw [← hgf]
    exact hread

/-- The scope of a function returned is that of a function that it reads as. -/
theorem function_opener (names : NameSet) {f : FunctionNode}
    (hf : f ∈ (ofStatements file lineAt statements names).functions) :
    ∃ k n, (openers (Node.nodesAll statements))[k]? = some n ∧ n.ReadsAs file lineAt f ∧
      (ofStatements file lineAt statements names).scopes.scopeOf? f.id = some (k + 1) ∧
      (ofStatements file lineAt statements names).scopes.kindAt (k + 1) = some .function := by
  obtain ⟨p, hp, -, hscope⟩ := mem_functions file lineAt statements names hf
  rcases (walked_walk file lineAt statements names).found_function (List.mem_map_of_mem hp) with
    hnone | ⟨k, n, hk, hn, hplace⟩
  · cases hnone
  · have hplace : p.2 = k + 1 := hplace.trans (Nat.add_comm 1 k)
    cases n with
    | function name span params bodySpan body =>
      rw [hplace] at hscope
      obtain ⟨lowered, -, -, hread⟩ := function_read hf hk hscope
      exact ⟨k, _, hk, ⟨_, _, _, _, _, rfl, hread⟩, hscope, kindAt_function file lineAt names hk⟩
    | closure | block | handler | name | group | functionName | className | declaration => cases hn

end Discovery

end ParamLowering
