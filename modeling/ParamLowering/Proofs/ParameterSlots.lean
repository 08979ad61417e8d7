import ParamLowering.Proofs.Ownership
set_option autoImplicit false

/-!
Parameters as they are written and as they are read.

A parameter that takes an argument slot has two numbers: its place in the list as it is written,
and its place among the positional parameters. They differ behind a parameter `this` and behind a
rest element, since neither takes a slot.
-/

namespace ParamLowering

open ParamLowering.Tree

namespace Tree

/-- The parameters without a rest element, each with its place in the list. -/
def Target.slotsFrom : Nat → List Target → List (Target × Nat)
  | _, [] => []
  | place, t :: ts =>
    if t.isRest then Target.slotsFrom (place + 1) ts else (t, place) :: Target.slotsFrom (place + 1) ts

/-- The parameters that take an argument slot, each with its place in the list as it is written. -/
def Target.slots : List Target → List (Target × Nat)
  | .name id span notes :: ts =>
    if id.name = "this" then Target.slotsFrom 1 ts
    else (.name id span notes, 0) :: Target.slotsFrom 1 ts
  | ts => Target.slotsFrom 0 ts

theorem Target.slotsFrom_map (place : Nat) (ts : List Target) :
    (Target.slotsFrom place ts).map (·.1) = ts.filter (!·.isRest) := by
  induction ts generalizing place with
  | nil => rfl
  | cons t ts ih =>
    rw [slotsFrom]
    by_cases ht : t.isRest = true <;> simp [ht, ih]

theorem Target.mem_slotsFrom {place j : Nat} {ts : List Target} {t : Target}
    (h : (t, j) ∈ Target.slotsFrom place ts) :
    t.isRest = false ∧ ∃ i, j = place + i ∧ ts[i]? = some t := by
  induction ts generalizing place with
  | nil => cases h
  | cons u ts ih =>
    rw [slotsFrom] at h
    have hmore : (t, j) ∈ Target.slotsFrom (place + 1) ts →
        t.isRest = false ∧ ∃ i, j = place + i ∧ (u :: ts)[i]? = some t := by
      intro h
      obtain ⟨ht, i, rfl, hi⟩ := ih h
      exact ⟨ht, i + 1, by omega, hi⟩
    split at h
    · exact hmore h
    · rename_i hu
      rcases List.mem_cons.1 h with h | h
      · obtain ⟨rfl, rfl⟩ := Prod.mk.inj h
        exact ⟨by simpa using hu, 0, rfl, rfl⟩
      · exact hmore h

theorem Target.slotsFrom_places (place : Nat) (ts : List Target) :
    (Target.slotsFrom place ts).Pairwise (·.2 < ·.2) := by
  induction ts generalizing place with
  | nil => exact .nil
  | cons t ts ih =>
    rw [slotsFrom]
    split
    · exact ih _
    · refine List.pairwise_cons.2 ⟨fun p hp => ?_, ih _⟩
      obtain ⟨-, i, hplace, -⟩ := mem_slotsFrom (t := p.1) (j := p.2) hp
      have hlt : place < p.2 := by omega
      exact hlt

/-- A slot belongs to the parameter at its place. -/
theorem Target.mem_slots {ts : List Target} {t : Target} {j : Nat} (h : (t, j) ∈ Target.slots ts) :
    t.isRest = false ∧ ts[j]? = some t := by
  have hfrom : ∀ {us : List Target}, (t, j) ∈ Target.slotsFrom 0 us →
      t.isRest = false ∧ us[j]? = some t := by
    intro us h
    obtain ⟨ht, i, rfl, hi⟩ := mem_slotsFrom h
    exact ⟨ht, by rwa [Nat.zero_add]⟩
  have hbehind : ∀ {u : Target} {us : List Target}, (t, j) ∈ Target.slotsFrom 1 us →
      t.isRest = false ∧ (u :: us)[j]? = some t := by
    intro u us h
    obtain ⟨ht, i, rfl, hi⟩ := mem_slotsFrom h
    exact ⟨ht, by rwa [Nat.add_comm, List.getElem?_cons_succ]⟩
  unfold slots at h
  split at h
  · split at h
    · exact hbehind h
    · rcases List.mem_cons.1 h with h | h
      · obtain ⟨rfl, rfl⟩ := Prod.mk.inj h
        exact ⟨rfl, rfl⟩
      · exact hbehind h
  · exact hfrom h

theorem Target.slots_places (ts : List Target) : (Target.slots ts).Pairwise (·.2 < ·.2) := by
  unfold slots
  split
  · split
    · exact slotsFrom_places _ _
    · refine List.pairwise_cons.2 ⟨fun p hp => ?_, slotsFrom_places _ _⟩
      obtain ⟨-, i, hplace, -⟩ := mem_slotsFrom (t := p.1) (j := p.2) hp
      have hlt : 0 < p.2 := by omega
      exact hlt
  · exact slotsFrom_places _ _

/-- What takes no slot is a plain name or a rest element. -/
theorem Target.exists_slot {ts : List Target} {t : Target} (ht : t ∈ ts) (hrest : t.isRest = false)
    (hname : t.isName = false) : t ∈ (Target.slots ts).map (·.1) := by
  have hfrom : ∀ {place us}, t ∈ us → t ∈ (Target.slotsFrom place us).map (·.1) := by
    intro place us h
    rw [slotsFrom_map]
    exact List.mem_filter.2 ⟨h, by simp [hrest]⟩
  unfold slots
  split
  · rename_i id span notes us
    have hus : t ∈ us := by
      rcases List.mem_cons.1 ht with rfl | h
      · cases hname
      · exact h
    split
    · exact hfrom hus
    · exact List.mem_cons_of_mem _ (hfrom hus)
  · exact hfrom ht

end Tree

/-! ### Reading -/

namespace ParamList

variable {list list' : ParamList} {t : Target} {ts : List Target}

/-- What is read behind a list: parameters without a default, as long as the list has none, and
then parameters with a default. -/
structure Extends (ts : List Target) (list list' : ParamList) (plain defaulted : List Target)
    (new : List Param) : Prop where
  split : ts.filter (!·.isRest) = plain ++ defaulted
  params : list'.params = list.params ++ new
  patterns : List.Forall₂ (fun t p => t.bare.pattern = .ok p.pattern) (plain ++ defaulted) new
  without : ∀ t ∈ plain, t.default? = none
  withDefault : ∀ t ∈ defaulted, t.default?.isSome = true
  behind : list.defaults ≠ [] → plain = []
  count : list'.defaults.length = list.defaults.length + defaulted.length

theorem addAll_extends (h : list.addAll ts = .ok list') :
    ∃ plain defaulted new, Extends ts list list' plain defaulted new := by
  induction ts generalizing list with
  | nil =>
    obtain rfl := Except.ok.inj h
    exact ⟨[], [], [], by simp, by simp, .nil, by simp, by simp, by simp, by simp⟩
  | cons t ts ih =>
    obtain ⟨next, hadd, hmore⟩ := addAll_cons h
    obtain ⟨plain, defaulted, new, hnext⟩ := ih hmore
    rcases add_eq_ok hadd with ⟨span, id, idSpan, ns, notes, rfl, rfl⟩ |
      ⟨inner, value, p, rfl, hp, rfl⟩ | ⟨hdefaults, p, hp, rfl⟩
    · exact ⟨plain, defaulted, new, (List.filter_cons_of_neg (by simp [Target.isRest])).trans
        hnext.split, hnext.params, hnext.patterns, hnext.without, hnext.withDefault, hnext.behind,
        hnext.count⟩
    · -- from here on every parameter has a default
      have hplain : plain = [] := hnext.behind (by simp)
      subst hplain
      refine ⟨[], .withDefault inner value :: defaulted, ⟨p, inner.span⟩ :: new, ?_, ?_,
        .cons hp hnext.patterns, by simp, ?_, by simp, ?_⟩
      · rw [List.filter_cons_of_pos (by rfl), hnext.split]
        rfl
      · simpa using hnext.params
      · exact List.forall_mem_cons.2 ⟨rfl, hnext.withDefault⟩
      · have hcount := hnext.count
        simp only [List.length_append, List.length_cons, List.length_nil] at hcount ⊢
        omega
    · have hbare := Target.bare_of_pattern hp
      have hnone : t.default? = none := by
        cases t with
        | withDefault inner value => cases hp
        | name | object | array | rest | undeclared => rfl
      have hrest : t.isRest = false := by
        cases t with
        | rest span target notes => cases hp
        | name | object | array | withDefault | undeclared => rfl
      refine ⟨t :: plain, defaulted, ⟨p, t.span⟩ :: new, ?_, ?_,
        .cons (by rw [hbare]; exact hp) hnext.patterns,
        List.forall_mem_cons.2 ⟨hnone, hnext.without⟩, hnext.withDefault,
        fun h => absurd hdefaults h, hnext.count⟩
      · rw [List.filter_cons_of_pos (by simp [hrest]), hnext.split]
        rfl
      · simpa using hnext.params

/-- Without a rest element the rest parameter stays what it is. -/
theorem rest_addAll (h : list.addAll ts = .ok list') (hts : ts.filter (·.isRest) = []) :
    list'.rest = list.rest := by
  induction ts generalizing list with
  | nil =>
    obtain rfl := Except.ok.inj h
    rfl
  | cons t ts ih =>
    obtain ⟨next, hadd, hmore⟩ := addAll_cons h
    rw [List.filter_cons] at hts
    split at hts
    · cases hts
    · rename_i ht
      rw [ih hmore hts]
      rcases add_eq_ok hadd with ⟨_, _, _, _, _, rfl, rfl⟩ | ⟨_, _, _, rfl, _, rfl⟩ | ⟨_, _, _, rfl⟩
      · simp [Target.isRest] at ht
      · rfl
      · rfl

/-- A rest element that is the only one is the rest parameter. -/
theorem rest_addAll_of_once (h : list.addAll ts = .ok list')
    (honce : (ts.filter (·.isRest)).length ≤ 1) (ht : t ∈ ts) (hrest : t.isRest = true) :
    ∃ r, list'.rest = some r ∧ t.names = [r.name] := by
  induction ts generalizing list with
  | nil => cases ht
  | cons u ts ih =>
    obtain ⟨next, hadd, hmore⟩ := addAll_cons h
    rcases List.mem_cons.1 ht with rfl | ht
    · rw [List.filter_cons_of_pos hrest, List.length_cons] at honce
      have hnone : ts.filter (·.isRest) = [] :=
        List.length_eq_zero_iff.1 (Nat.le_zero.1 (Nat.le_of_succ_le_succ honce))
      rw [rest_addAll hmore hnone]
      rcases add_eq_ok hadd with ⟨span, id, _, _, _, rfl, rfl⟩ | ⟨_, _, _, rfl, _, rfl⟩ |
        ⟨_, p, hp, rfl⟩
      · exact ⟨_, rfl, rfl⟩
      · cases hrest
      · cases t with
        | rest span target notes => cases hp
        | name | object | array | withDefault | undeclared => cases hrest
    · refine ih hmore (Nat.le_trans ?_ honce) ht
      exact (List.Sublist.filter _ (List.sublist_cons_self u ts)).length_le

/-- A rest parameter that was read is one of the elements. -/
theorem rest_addAll_cases (h : list.addAll ts = .ok list') {r : RestParam}
    (hr : list'.rest = some r) : list.rest = some r ∨ ∃ (j : Nat) (t : Target), ts[j]? = some t ∧
      t.isRest = true ∧ r.name ∈ t.names := by
  induction ts generalizing list with
  | nil =>
    obtain rfl := Except.ok.inj h
    exact .inl hr
  | cons t ts ih =>
    obtain ⟨next, hadd, hmore⟩ := addAll_cons h
    rcases ih hmore with hnext | ⟨j, u, hu, hrest, hname⟩
    · rcases add_eq_ok hadd with ⟨span, id, _, _, _, rfl, rfl⟩ | ⟨_, _, _, rfl, _, rfl⟩ |
        ⟨_, _, _, rfl⟩
      · obtain rfl := Option.some.inj hnext
        exact .inr ⟨0, _, rfl, rfl, List.mem_singleton_self _⟩
      · exact .inl hnext
      · exact .inl hnext
    · exact .inr ⟨j + 1, u, hu, hrest, hname⟩

end ParamList

/-- A function was read from a list: its parameters are those that take a slot, those with a
default are behind the others, and its rest parameter is a rest element. -/
structure FunctionNode.ReadsList (f : FunctionNode) (params : List Target) : Prop where
  count : f.defaults.length ≤ f.params.length
  patterns : List.Forall₂ (fun slot p => slot.1.bare.pattern = .ok p.pattern)
    (Target.slots params) f.params
  defaulted : ∀ (i : Nat) (slot : Target × Nat), (Target.slots params)[i]? = some slot →
    (slot.1.default?.isSome = true ↔ f.plain.length ≤ i)
  restRead : ∀ r, f.rest = some r → ∃ (j : Nat) (t : Target), params[j]? = some t ∧
    t.isRest = true ∧ r.name ∈ t.names
  restKept : (params.filter (·.isRest)).length ≤ 1 → ∀ t ∈ params, t.isRest = true →
    ∃ r, f.rest = some r ∧ t.names = [r.name]

/-- A list is read from the elements that are counted for slots. -/
theorem ParamList.ofTargets_slots {params : List Target} {list : ParamList}
    (h : ParamList.ofTargets params = .ok list) : ∃ (first : ParamList) (place : Nat),
      first.params = [] ∧ first.defaults = [] ∧ first.rest = none ∧
      Target.slots params = Target.slotsFrom place (params.drop place) ∧
      (params.take place).filter (·.isRest) = [] ∧ first.addAll (params.drop place) = .ok list := by
  rcases ofTargets_cases params with ⟨heq, hother⟩ | ⟨id, span, notes, more, rfl, hthis, heq⟩
  · refine ⟨{}, 0, rfl, rfl, rfl, ?_, rfl, heq.symm.trans h⟩
    unfold Target.slots
    split
    · exact if_neg (hother _ _ _ _ rfl)
    · rfl
  · exact ⟨{ thisParam := some span }, 1, rfl, rfl, rfl, if_pos hthis, rfl, heq.symm.trans h⟩

theorem FunctionNode.readsList {file : Nat} {lineAt : Nat → Nat} {name : Option String}
    {span : Span} {params : List Target} {bodySpan : Span} {body : List Node} {f : FunctionNode}
    (h : readFunction file lineAt name span params bodySpan body = .ok f) : f.ReadsList params := by
  have hnode : (Surroundings.mk file lineAt 0 false).functionNode name span params bodySpan body =
    .ok f := h
  obtain ⟨list, hlist, rfl⟩ := Surroundings.functionNode_eq_ok hnode
  obtain ⟨first, place, hparams, hdefaults, hrest, hslots, htaken, hlist⟩ :=
    ParamList.ofTargets_slots hlist
  obtain ⟨plain, defaulted, new, hnew⟩ := ParamList.addAll_extends hlist
  have hread : list.params = new := by rw [hnew.params, hparams, List.nil_append]
  have hcount : list.defaults.length = defaulted.length := by
    rw [hnew.count, hdefaults, List.length_nil, Nat.zero_add]
  have hmap : (Target.slots params).map (·.1) = plain ++ defaulted := by
    rw [hslots, Target.slotsFrom_map, hnew.split]
  have hlength : new.length = plain.length + defaulted.length := by
    rw [← hnew.patterns.length_eq, List.length_append]
  have hmem : ∀ t ∈ params, t.isRest = true → t ∈ params.drop place := by
    intro t ht htrest
    rw [← List.take_append_drop place params, List.mem_append] at ht
    refine ht.resolve_left fun htake => ?_
    have hfiltered : t ∈ (params.take place).filter (·.isRest) := List.mem_filter.2 ⟨htake, htrest⟩
    rw [htaken] at hfiltered
    cases hfiltered
  refine ⟨?_, ?_, fun i slot hslot => ?_, fun r hr => ?_, fun honce t ht htrest => ?_⟩
  · show list.defaults.length ≤ list.params.length
    rw [hread, hcount, hlength]
    exact Nat.le_add_left _ _
  · show List.Forall₂ _ (Target.slots params) list.params
    have hpatterns := hnew.patterns
    rw [← hmap, List.forall₂_map_left_iff] at hpatterns
    rwa [hread]
  · have hplain : (list.params.take (list.params.length - list.defaults.length)).length =
        plain.length := by
      rw [List.length_take, hread, hcount, hlength, Nat.add_sub_cancel]
      omega
    show _ ↔ (list.params.take (list.params.length - list.defaults.length)).length ≤ i
    have htarget : (plain ++ defaulted)[i]? = some slot.1 := by
      rw [← hmap, List.getElem?_map, hslot]
      rfl
    rw [hplain]
    rcases Nat.lt_or_ge i plain.length with hi | hi
    · rw [List.getElem?_append_left hi] at htarget
      rw [hnew.without _ (List.mem_of_getElem? htarget)]
      simpa using hi
    · rw [List.getElem?_append_right hi] at htarget
      simpa [hnew.withDefault _ (List.mem_of_getElem? htarget)] using hi
  · rcases ParamList.rest_addAll_cases hlist hr with hfirst | ⟨j, t, ht, htrest, hname⟩
    · rw [hrest] at hfirst
      cases hfirst
    · exact ⟨place + j, t, by rw [← List.getElem?_drop]; exact ht, htrest, hname⟩
  · refine ParamList.rest_addAll_of_once hlist (Nat.le_trans ?_ honce) (hmem t ht htrest) htrest
    exact (List.Sublist.filter _ (List.drop_sublist place params)).length_le

theorem FunctionNode.ReadsList.renumber {f : FunctionNode} {params : List Target}
    (h : f.ReadsList params) (id : FunctionId) : { f with id }.ReadsList params :=
  ⟨h.count, h.patterns, h.defaulted, h.restRead, h.restKept⟩

/-- A slot is the parameter that was read from it. -/
theorem FunctionNode.ReadsList.slot {f : FunctionNode} {params : List Target}
    (h : f.ReadsList params) {i : Nat} {slot : Target × Nat}
    (hi : (Target.slots params)[i]? = some slot) :
    ∃ p, f.params[i]? = some p ∧ slot.1.bare.pattern = .ok p.pattern := by
  obtain ⟨hlt, rfl⟩ := List.getElem?_eq_some_iff.1 hi
  have hlt' : i < f.params.length := h.patterns.length_eq ▸ hlt
  exact ⟨f.params[i], List.getElem?_eq_getElem hlt', h.patterns.get hlt hlt'⟩

theorem FunctionNode.ReadsList.slot_of_param {f : FunctionNode} {params : List Target}
    (h : f.ReadsList params) {i : Nat} {p : Param} (hi : f.params[i]? = some p) :
    ∃ slot, (Target.slots params)[i]? = some slot ∧ slot.1.bare.pattern = .ok p.pattern := by
  obtain ⟨hlt, rfl⟩ := List.getElem?_eq_some_iff.1 hi
  have hlt' : i < (Target.slots params).length := h.patterns.length_eq ▸ hlt
  exact ⟨(Target.slots params)[i], List.getElem?_eq_getElem hlt', h.patterns.get hlt' hlt⟩

/-- A parameter that is not a plain name is a pattern or has a default. -/
theorem Tree.Target.isDestructuring_or_default {t : Target} {p : Pattern}
    (h : t.bare.pattern = .ok p) (hname : t.isName = false) :
    p.isDestructuring = true ∨ t.default?.isSome = true := by
  cases t with
  | name => cases hname
  | object | array =>
    simp only [bare, pattern] at h
    split at h
    · obtain rfl := Except.ok.inj h
      exact .inl rfl
    · cases h
  | withDefault target value => exact .inr rfl
  | rest | undeclared => cases h

/-! ### Replaced elements -/

namespace Replaced

variable {el : Replaced}

theorem mem_patternsFrom {index : Nat} {ps : List Param} : el ∈ patternsFrom index ps ↔
    ∃ i p, ps[i]? = some p ∧ p.pattern.isDestructuring = true ∧ el = .pattern (index + i) p := by
  induction ps generalizing index with
  | nil => simp [patternsFrom]
  | cons p ps ih =>
    have hmore : el ∈ patternsFrom (index + 1) ps ↔ ∃ i q, (p :: ps)[i + 1]? = some q ∧
        q.pattern.isDestructuring = true ∧ el = .pattern (index + (i + 1)) q := by
      simp only [ih, List.getElem?_cons_succ, Nat.add_assoc, Nat.add_comm 1]
    have hfirst : el ∈ patternsFrom index (p :: ps) ↔
        (p.pattern.isDestructuring = true ∧ el = .pattern index p) ∨
          el ∈ patternsFrom (index + 1) ps := by
      rw [patternsFrom]
      split <;> simp [*]
    rw [hfirst, hmore]
    constructor
    · rintro (⟨hp, rfl⟩ | ⟨i, q, hq, hall⟩)
      · exact ⟨0, p, rfl, hp, rfl⟩
      · exact ⟨i + 1, q, hq, hall⟩
    · rintro ⟨i, q, hq, hall⟩
      cases i with
      | zero =>
        obtain rfl := Option.some.inj hq
        exact .inl hall
      | succ i => exact .inr ⟨i, q, hq, hall⟩

theorem mem_defaultsFrom {index : Nat} {ds : List (Param × DefaultValue)} :
    el ∈ defaultsFrom index ds ↔ ∃ i d, ds[i]? = some d ∧ el = .defaulted (index + i) d.1 d.2 := by
  induction ds generalizing index with
  | nil => simp [defaultsFrom]
  | cons d ds ih =>
    rw [defaultsFrom, List.mem_cons, ih]
    constructor
    · rintro (rfl | ⟨i, e, he, rfl⟩)
      · exact ⟨0, d, rfl, rfl⟩
      · exact ⟨i + 1, e, he, by rw [Nat.add_assoc, Nat.add_comm 1]⟩
    · rintro ⟨i, e, he, rfl⟩
      cases i with
      | zero =>
        obtain rfl := Option.some.inj he
        exact .inl rfl
      | succ i => exact .inr ⟨i, e, he, by rw [Nat.add_assoc, Nat.add_comm 1]⟩

end Replaced

/-- The names that a function replaces are those of its patterns, its defaulted parameters and its
rest parameter, each with the position of the parameter that binds it. -/
theorem FunctionNode.mem_bound {f : FunctionNode} (hcount : f.defaults.length ≤ f.params.length)
    {n : String} {position : Position} : (n, position) ∈ f.replaced.flatMap (·.bound) ↔
      (∃ i p, f.params[i]? = some p ∧
        (p.pattern.isDestructuring = true ∨ f.plain.length ≤ i) ∧ n ∈ p.pattern.leaves ∧
        position = .index i) ∨
      ∃ r, f.rest = some r ∧ n = r.name ∧ position = .rest := by
  have hparams := params_eq hcount
  have hplain : ∀ {i : Nat} {p : Param}, f.plain[i]? = some p → f.params[i]? = some p := by
    intro i p hp
    rw [hparams, List.getElem?_append_left (List.getElem?_eq_some_iff.1 hp).1, hp]
  have hdefaulted : ∀ {i : Nat}, (f.defaulted[i]?).map (·.1) = f.params[f.plain.length + i]? := by
    intro i
    rw [hparams, List.getElem?_append_right (Nat.le_add_right _ _), Nat.add_sub_cancel_left,
      List.getElem?_map]
  simp only [replaced, List.mem_flatMap, List.mem_append, Replaced.mem_patternsFrom,
    Replaced.mem_defaultsFrom, Option.mem_toList, Option.map_eq_some_iff]
  constructor
  · rintro ⟨el, (⟨i, p, hp, hpattern, rfl⟩ | ⟨i, d, hd, rfl⟩) | ⟨r, hr, rfl⟩, hn⟩
    · obtain ⟨m, hm, heq⟩ := List.mem_map.1 hn
      obtain ⟨rfl, rfl⟩ := Prod.mk.inj heq
      exact .inl ⟨0 + i, p, by rw [Nat.zero_add]; exact hplain hp, .inl hpattern, hm, rfl⟩
    · obtain ⟨m, hm, heq⟩ := List.mem_map.1 hn
      obtain ⟨rfl, rfl⟩ := Prod.mk.inj heq
      refine .inl ⟨f.plain.length + i, d.1, ?_, .inr (Nat.le_add_right _ _), hm, rfl⟩
      rw [← hdefaulted, hd]
      rfl
    · obtain ⟨rfl, rfl⟩ := Prod.mk.inj (List.mem_singleton.1 hn)
      exact .inr ⟨r, hr, rfl, rfl⟩
  · rintro (⟨i, p, hp, hreplaced, hn, rfl⟩ | ⟨r, hr, rfl, rfl⟩)
    · have hbound : (n, Position.index i) ∈ p.pattern.leaves.map (·, Position.index i) :=
        List.mem_map_of_mem hn
      rcases Nat.lt_or_ge i f.plain.length with hi | hi
      · refine ⟨.pattern i p, .inl (.inl ⟨i, p, ?_, ?_, by rw [Nat.zero_add]⟩), hbound⟩
        · rwa [hparams, List.getElem?_append_left hi] at hp
        · exact hreplaced.resolve_right (Nat.not_le.2 hi)
      · obtain ⟨j, rfl⟩ := Nat.exists_eq_add_of_le hi
        rw [← hdefaulted] at hp
        obtain ⟨d, hd, rfl⟩ := Option.map_eq_some_iff.1 hp
        exact ⟨.defaulted (f.plain.length + j) d.1 d.2, .inl (.inr ⟨j, d, hd, rfl⟩), hbound⟩
    · exact ⟨.rest r, .inr ⟨r, hr, rfl⟩, List.mem_singleton_self _⟩

end ParamLowering
