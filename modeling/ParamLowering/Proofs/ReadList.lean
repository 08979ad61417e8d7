import ParamLowering.Proofs.KeptFunctions
import ParamLowering.Proofs.Placement
set_option autoImplicit false

/-!
Parameter lists as they are read from a tree.

Each parameter is read behind those before it, so that the elements of a list are in order. Only
the rest parameter is kept apart from the others, wherever it stood among them.
-/

namespace ParamLowering

open ParamLowering.Tree

namespace ParamList

/-- The elements of a list without its rest parameter. -/
def positional (list : ParamList) : List Span :=
  list.thisParam.toList ++
    (list.params.take (list.params.length - list.defaults.length)).map (·.span) ++
    ((list.params.drop (list.params.length - list.defaults.length)).zip list.defaults).flatMap
      fun d => [d.1.span, d.2.span]

variable {list list' : ParamList} {t : Target}

theorem positional_plain (h : list.defaults = []) :
    list.positional = list.thisParam.toList ++ list.params.map (·.span) := by
  simp [positional, h]

/-- A parameter with a default goes behind all others with its default. -/
theorem positional_defaulted (h : list.defaults.length ≤ list.params.length) (p : Param)
    (d : DefaultValue) :
    { list with params := list.params ++ [p], defaults := list.defaults ++ [d] }.positional =
      list.positional ++ [p.span, d.span] := by
  have hcount : (list.params ++ [p]).length - (list.defaults ++ [d]).length =
      list.params.length - list.defaults.length := by
    simp only [List.length_append, List.length_singleton]
    omega
  have hle : list.params.length - list.defaults.length ≤ list.params.length := Nat.sub_le _ _
  have hlength : (list.params.drop (list.params.length - list.defaults.length)).length =
      list.defaults.length := by
    rw [List.length_drop]
    omega
  simp only [positional, hcount, List.take_append_of_le_length hle,
    List.drop_append_of_le_length hle, List.zip_append hlength]
  simp

/-- What it means that a parameter was added. -/
theorem add_eq_ok (h : list.add t = .ok list') :
    (∃ span id idSpan ns notes, t = .rest span (.name id idSpan ns) notes ∧
      list' = { list with rest := some ⟨id.name, span⟩ }) ∨
    (∃ inner value p, t = .withDefault inner value ∧ inner.pattern = .ok p ∧
      list' = { list with
        params := list.params ++ [⟨p, inner.span⟩]
        defaults := list.defaults ++ [⟨value.span, value.name?⟩] }) ∨
    (list.defaults = [] ∧ ∃ p, t.pattern = .ok p ∧
      list' = { list with params := list.params ++ [⟨p, t.span⟩] }) := by
  unfold add at h
  split at h
  · exact .inl ⟨_, _, _, _, _, rfl, (Except.ok.inj h).symm⟩
  · cases h
  · split at h
    · cases h
    · rename_i p hp
      exact .inr (.inl ⟨_, _, p, rfl, hp, (Except.ok.inj h).symm⟩)
  · split at h
    · cases h
    · rename_i hdefaults
      split at h
      · cases h
      · rename_i p hp
        exact .inr (.inr ⟨by simpa using hdefaults, p, hp, (Except.ok.inj h).symm⟩)

theorem addAll_cons {ts : List Target} (h : list.addAll (t :: ts) = .ok list') :
    ∃ next, list.add t = .ok next ∧ next.addAll ts = .ok list' := by
  rw [addAll] at h
  split at h
  · cases h
  · rename_i next hnext
    exact ⟨next, hnext, h⟩

/-- All elements of a list are read, but for a parameter `this` in front. -/
theorem ofTargets_cases (ts : List Target) :
    (ofTargets ts = addAll {} ts ∧
      ∀ id span notes more, ts = .name id span notes :: more → id.name ≠ "this") ∨
    ∃ id span notes more, ts = .name id span notes :: more ∧ id.name = "this" ∧
      ofTargets ts = addAll { thisParam := some span } more := by
  unfold ofTargets
  split
  · exact .inl ⟨rfl, by simp⟩
  · rename_i id span notes more
    split
    · rename_i hthis
      exact .inr ⟨id, span, notes, more, rfl, hthis, rfl⟩
    · rename_i hthis
      refine .inl ⟨rfl, fun _ _ _ _ heq => ?_⟩
      obtain ⟨rfl, -, -⟩ := Target.name.inj (List.cons.inj heq).1
      exact hthis
  · rename_i hother
    exact .inl ⟨rfl, fun _ _ _ _ heq => (hother _ _ _ _ heq).elim⟩

/-- A list that was read up to `stop`. -/
structure Sound (source : List Char) (start stop : Nat) (list : ParamList) : Prop where
  count : list.defaults.length ≤ list.params.length
  solid : ∀ s ∈ list.positional, s.Solid source
  inOrder : list.positional.Pairwise fun a b => a.stop ≤ b.start
  within : ∀ s ∈ list.positional, s.Within ⟨start, stop⟩
  rest : ∀ r ∈ list.rest, r.span.Solid source ∧ r.span.Within ⟨start, stop⟩ ∧
    ∀ s ∈ list.positional, s.Apart r.span
  patterns : ∀ p ∈ list.params, p.pattern.Sliceable source

variable {source : List Char} {start stop : Nat}

/-- More elements behind all others. -/
theorem Sound.extend (h : list.Sound source start stop) {r : Span} {es : List Span}
    (hle : stop ≤ r.start) (hstart : start ≤ r.start) (hsolid : ∀ s ∈ es, s.Solid source)
    (horder : es.Pairwise fun a b => a.stop ≤ b.start) (hwithin : ∀ s ∈ es, s.Within r)
    (hcount : list'.defaults.length ≤ list'.params.length)
    (hpositional : list'.positional = list.positional ++ es) (hrest : list'.rest = list.rest)
    (hpatterns : ∀ p ∈ list'.params, p.pattern.Sliceable source) (hr : r.start ≤ r.stop) :
    list'.Sound source start r.stop where
  count := hcount
  solid := by
    rw [hpositional]
    exact fun s hs => (List.mem_append.1 hs).elim (h.solid s) (hsolid s)
  inOrder := by
    rw [hpositional]
    refine List.pairwise_append.2 ⟨h.inOrder, horder, fun a ha b hb => ?_⟩
    have hstop : a.stop ≤ stop := (h.within a ha).2
    have hb' : r.start ≤ b.start := (hwithin b hb).1
    omega
  within := by
    rw [hpositional]
    intro s hs
    rcases List.mem_append.1 hs with hs | hs
    · have hstop : s.stop ≤ stop := (h.within s hs).2
      exact ⟨(h.within s hs).1, show s.stop ≤ r.stop by omega⟩
    · obtain ⟨ha, hb⟩ := hwithin s hs
      exact ⟨Nat.le_trans hstart ha, hb⟩
  rest := by
    rw [hrest, hpositional]
    intro p hp
    obtain ⟨hps, ⟨hpstart, hpstop⟩, hapart⟩ := h.rest p hp
    have hpstop' : p.span.stop ≤ stop := hpstop
    refine ⟨hps, ⟨hpstart, show p.span.stop ≤ r.stop by omega⟩, fun s hs => ?_⟩
    rcases List.mem_append.1 hs with hs | hs
    · exact hapart s hs
    · have hstart' : r.start ≤ s.start := (hwithin s hs).1
      exact .inr (by omega)
  patterns := hpatterns

theorem Sound.nil (source : List Char) (start stop : Nat) :
    ({} : ParamList).Sound source start stop where
  count := Nat.le_refl _
  solid := by simp [positional]
  inOrder := by simp [positional]
  within := by simp [positional]
  rest := by simp
  patterns := by simp

/-- A list is read one parameter further. -/
theorem Sound.add (h : list.Sound source start stop) {r : Span} (hplaced : t.Placed source r)
    (hlies : t.Lies source r) (hle : stop ≤ r.start) (hstart : start ≤ r.start)
    (hadd : list.add t = .ok list') : list'.Sound source start r.stop := by
  have hr : r.start ≤ r.stop := by
    obtain ⟨s, hs⟩ : ∃ s, s ∈ t.elements := by cases t <;> simp [Target.elements]
    have hne := (hlies.solid s hs).nonempty
    obtain ⟨ha, hb⟩ := hlies.within s hs
    omega
  have hpattern := (Target.sliceable source t r hplaced).1
  rcases add_eq_ok hadd with ⟨span, id, idSpan, ns, notes, rfl, rfl⟩ |
    ⟨inner, value, p, rfl, hp, rfl⟩ | ⟨hdefaults, p, hp, rfl⟩
  · obtain ⟨hwithin, -⟩ := List.forall_mem_cons.1 hlies.within
    obtain ⟨hsolid, -⟩ := List.forall_mem_cons.1 hlies.solid
    obtain ⟨hspan, hspan'⟩ := hwithin
    have hspan : r.start ≤ span.start := hspan
    have hspan' : span.stop ≤ r.stop := hspan'
    refine ⟨h.count, h.solid, h.inOrder, fun s hs => ?_, fun q hq => ?_, h.patterns⟩
    · obtain ⟨ha, hb⟩ := h.within s hs
      have hb : s.stop ≤ stop := hb
      exact ⟨ha, show s.stop ≤ r.stop by omega⟩
    · obtain rfl := Option.some.inj hq
      refine ⟨hsolid, ⟨show start ≤ span.start by omega, hspan'⟩, fun s hs => .inl ?_⟩
      have hb : s.stop ≤ stop := (h.within s hs).2
      show s.stop ≤ span.start
      omega
  · refine h.extend hle hstart hlies.solid hlies.inOrder hlies.within ?_
      (positional_defaulted h.count _ _) rfl (fun q hq => ?_) hr
    · have hcount := h.count
      simp only [List.length_append, List.length_singleton]
      omega
    · rcases List.mem_append.1 hq with hq | hq
      · exact h.patterns q hq
      · rw [List.mem_singleton.1 hq]
        exact hpattern p hp
  · have hbare : t.bare = t := Target.bare_of_pattern hp
    have helements : t.elements = [t.span] := by
      cases t with
      | withDefault => cases hp
      | name | object | array | rest | undeclared => rfl
    have hpositional :
        ParamList.positional { list with params := list.params ++ [Param.mk p t.span] } =
          list.positional ++ t.elements := by
      have hlonger :
          ParamList.positional { list with params := list.params ++ [Param.mk p t.span] } =
            list.thisParam.toList ++ (list.params ++ [Param.mk p t.span]).map (·.span) :=
        positional_plain hdefaults
      rw [hlonger, positional_plain hdefaults, helements]
      simp
    refine h.extend hle hstart hlies.solid hlies.inOrder hlies.within ?_ hpositional rfl
      (fun q hq => ?_) hr
    · simp [hdefaults]
    · rcases List.mem_append.1 hq with hq | hq
      · exact h.patterns q hq
      · rw [List.mem_singleton.1 hq]
        exact hpattern p (by rw [hbare]; exact hp)

theorem Sound.mono (h : list.Sound source start stop) {limit : Nat} (hle : stop ≤ limit) :
    list.Sound source start limit where
  count := h.count
  solid := h.solid
  inOrder := h.inOrder
  within := fun s hs => ⟨(h.within s hs).1, Nat.le_trans (h.within s hs).2 hle⟩
  rest := by
    intro r hr
    obtain ⟨hsolid, hwithin, hapart⟩ := h.rest r hr
    exact ⟨hsolid, ⟨hwithin.1, Nat.le_trans hwithin.2 hle⟩, hapart⟩
  patterns := h.patterns

theorem Sound.addAll {ts : List Target} {ps : List Span} {limit : Nat}
    (h : list.Sound source start stop) (hlies : List.Forall₂ (Target.Lies source) ts ps)
    (hplaced : Target.AllPlaced source ts ps)
    (horder : ps.Pairwise fun a b => a.stop ≤ b.start)
    (hbounds : ∀ p ∈ ps, stop ≤ p.start ∧ start ≤ p.start ∧ p.stop ≤ limit) (hle : stop ≤ limit)
    (hadd : list.addAll ts = .ok list') : list'.Sound source start limit := by
  induction hlies generalizing list stop with
  | nil =>
    obtain rfl := Except.ok.inj hadd
    exact h.mono hle
  | @cons t p ts ps ht hts ih =>
    obtain ⟨q, qs, hqs, hq, hrest⟩ := hplaced
    obtain ⟨rfl, rfl⟩ := List.cons.inj hqs
    obtain ⟨hnext, horder'⟩ := List.pairwise_cons.1 horder
    obtain ⟨⟨hstop, hstart, hlimit⟩, hbounds'⟩ := List.forall_mem_cons.1 hbounds
    obtain ⟨longer, hlonger, hmore⟩ := addAll_cons hadd
    refine ih (h.add hq ht hstop hstart hlonger) hrest horder' (fun s hs => ?_) hlimit hmore
    obtain ⟨-, hstart', hlimit'⟩ := hbounds' s hs
    exact ⟨hnext s hs, hstart', hlimit'⟩

/-- A list that was read from parameters in their order. -/
theorem sound_of_ofTargets {ts : List Target} {ps : List Span} {limit : Nat}
    (hlies : List.Forall₂ (Target.Lies source) ts ps) (hplaced : Target.AllPlaced source ts ps)
    (horder : ps.Pairwise fun a b => a.stop ≤ b.start)
    (hbounds : ∀ p ∈ ps, p.Within ⟨start, limit⟩) (hle : start ≤ limit)
    (hread : ofTargets ts = .ok list) : list.Sound source start limit := by
  have hall : addAll {} ts = .ok list → list.Sound source start limit := fun h =>
    (Sound.nil source start start).addAll hlies hplaced horder
      (fun p hp => ⟨(hbounds p hp).1, (hbounds p hp).1, (hbounds p hp).2⟩) hle h
  rcases ofTargets_cases ts with ⟨heq, -⟩ | ⟨id, span, notes, more, rfl, -, heq⟩
  · exact hall (heq.symm.trans hread)
  · rw [heq] at hread
    -- the type of `this` stands before all parameters
    cases hlies with
    | @cons t p ts ps ht hts =>
      obtain ⟨q, qs, hqs, -, hrest⟩ := hplaced
      obtain ⟨rfl, rfl⟩ := List.cons.inj hqs
      obtain ⟨hnext, horder'⟩ := List.pairwise_cons.1 horder
      obtain ⟨⟨hstart, hlimit⟩, hbounds'⟩ := List.forall_mem_cons.1 hbounds
      obtain ⟨⟨ha, hb⟩, -⟩ := List.forall_mem_cons.1 ht.within
      have hne := (ht.solid _ List.mem_cons_self).nonempty
      have hthis := (Sound.nil source start start).extend hstart hstart ht.solid ht.inOrder
        ht.within (Nat.le_refl _) (show ParamList.positional { thisParam := some _ } = _ from rfl)
        rfl (by simp) (by omega)
      exact hthis.addAll hts hrest horder' (fun s hs => ⟨hnext s hs, (hbounds' s hs).1,
        (hbounds' s hs).2⟩) hlimit hread

end ParamList

/-! ### Functions -/

namespace FunctionNode

variable {f : FunctionNode} {source : List Char} {start : Nat}

def list (f : FunctionNode) : ParamList := ⟨f.params, f.defaults, f.rest, f.thisParam⟩

/-- Nothing in the list stands behind the rest parameter. -/
def RestLast (f : FunctionNode) : Prop :=
  ∀ r ∈ f.rest, ∀ s ∈ f.list.positional, s.stop ≤ r.span.start

instance (f : FunctionNode) : Decidable f.RestLast := inferInstanceAs (Decidable (∀ _ ∈ f.rest, _))

/-- A function that was read from `start` on. -/
structure Sound (source : List Char) (start : Nat) (f : FunctionNode) : Prop where
  list : f.list.Sound source start f.body.span.start
  start_le : start ≤ f.body.span.start
  brace : ∃ c after, Text.from? source f.body.span.start = some (c :: after) ∧
    Text.isBlank c = false ∧ c ≠ ',' ∧ c.utf8Size = 1
  anchor : f.body.span.start < Layout.anchorOf f ∧ Layout.anchorOf f ≤ f.body.span.stop
  boundary : Text.isBoundary source (Layout.anchorOf f) = true

theorem elements_eq_positional (f : FunctionNode) :
    f.elements = f.list.positional ++ (f.rest.map (·.span)).toList := rfl

theorem mem_elements {s : Span} :
    s ∈ f.elements ↔ s ∈ f.list.positional ∨ ∃ r ∈ f.rest, r.span = s := by
  rw [elements_eq_positional, List.mem_append]
  simp

theorem mem_positional_of_default (h : f.defaults.length ≤ f.params.length) {d : DefaultValue}
    (hd : d ∈ f.defaults) : d.span ∈ f.list.positional := by
  rw [← map_snd_defaulted h] at hd
  obtain ⟨pair, hpair, rfl⟩ := List.mem_map.1 hd
  exact List.mem_append_right _ (List.mem_flatMap.2 ⟨pair, hpair, by simp⟩)

/-- The last positional element is the last default, or else the last parameter. -/
theorem positional_getLast? (h : f.defaults.length ≤ f.params.length) :
    (f.defaults.getLast?.map (·.span.stop)).or
        ((f.params.getLast?.map (·.span.stop)).or (f.thisParam.map (·.stop))) =
      f.list.positional.getLast?.map (·.stop) := by
  have hpositional : f.list.positional = f.thisParam.toList ++ f.plain.map (·.span) ++
      f.defaulted.flatMap fun d => [d.1.span, d.2.span] := rfl
  have hparams := params_eq h
  have hdefaults := map_snd_defaulted h
  rcases List.eq_nil_or_concat f.defaulted with hnil | ⟨ds, d, hlast⟩
  · rw [hnil] at hdefaults hparams
    rw [hpositional, hnil, ← hdefaults, hparams]
    simp [List.getLast?_append, List.getLast?_map, Option.map_or]
    cases f.thisParam <;> rfl
  · rw [List.concat_eq_append] at hlast
    rw [hpositional, ← hdefaults, hlast]
    simp [List.getLast?_append]

namespace Sound

theorem element_solid (h : f.Sound source start) {s : Span} (hs : s ∈ f.elements) :
    s.Solid source ∧ s.Within ⟨start, f.body.span.start⟩ := by
  rcases mem_elements.1 hs with hs | ⟨r, hr, rfl⟩
  · exact ⟨h.list.solid s hs, h.list.within s hs⟩
  · exact ⟨(h.list.rest r hr).1, (h.list.rest r hr).2.1⟩

theorem default_isText (h : f.Sound source start) {d : DefaultValue} (hd : d ∈ f.defaults) :
    d.span.IsText source :=
  (h.list.solid _ (mem_positional_of_default h.list.count hd)).isText

theorem start_le_listStart (h : f.Sound source start) : start ≤ f.listStart := by
  rw [listStart]
  cases helements : f.elements with
  | nil => exact h.start_le
  | cons s ss => exact (h.element_solid (by rw [helements]; simp)).2.1

theorem layout (h : f.Sound source start) : ∃ layout, Layout.ofFunction f source = .ok layout := by
  obtain ⟨c, after, hafter, -, -, hsize⟩ := h.brace
  obtain ⟨before, rfl, hbefore⟩ := Text.from?_eq_some_iff.1 hafter
  have hbrace : Text.isBoundary (before ++ c :: after) (Layout.afterBrace f) = true := by
    refine Text.isBoundary_iff.2 ⟨before ++ [c], after, by simp, ?_⟩
    simp [Layout.afterBrace, hbefore, hsize, Text.byteLength]
  obtain ⟨text, htext⟩ := Span.isText_of_boundaries (s := ⟨Layout.afterBrace f, Layout.anchorOf f⟩)
    hbrace h.boundary h.anchor.1
  have hcount : ¬ f.params.length < f.defaults.length := Nat.not_lt.2 h.list.count
  simp only [Layout.ofFunction, if_neg hcount, htext]
  exact ⟨_, rfl⟩

/-- With the rest parameter at the end the list is one that the lowering can take apart. -/
theorem placed (h : f.Sound source start) (hrest : f.RestLast) : f.Placed source where
  nonempty := fun s hs => (h.element_solid hs).1.nonempty
  boundaries := fun s hs => ⟨(h.element_solid hs).1.isBoundary_start, (h.element_solid hs).1.stop⟩
  inOrder := by
    rw [elements_eq_positional]
    refine List.pairwise_append.2 ⟨h.list.inOrder, ?_, fun s hs t ht => ?_⟩
    · cases f.rest <;> simp
    · obtain ⟨r, hr, rfl⟩ : ∃ r ∈ f.rest, r.span = t := by simpa using ht
      exact hrest r hr s hs
  beforeBody := fun s hs => (h.element_solid hs).2.2
  brace := by
    obtain ⟨c, after, hafter, hblank, hcomma, -⟩ := h.brace
    exact ⟨c, after, hafter, hblank, hcomma⟩
  statement := by
    intro s hs
    have hanchor := h.anchor.1
    rwa [Layout.anchorOf, show f.body.firstStatement = some s from hs] at hanchor

/-- A rest parameter in front of others is removed backwards. -/
theorem inverted_of_late (h : f.Sound source start) (hlate : ¬ f.RestLast) {layout : Layout}
    (hlayout : Layout.ofFunction f source = .ok layout) {σ : Type} {hoist : ScopeId}
    {st st' : PassState σ} {rs : List Replacement}
    (hrun : Succeeds (Lower.restReplacement (σ := σ) ⟨f, layout, hoist⟩) st rs st') :
    ∃ r ∈ rs, r.removal.stop < r.removal.start := by
  have hlast := positional_getLast? h.list.count
  simp only [RestLast, not_forall, Nat.not_le] at hlate
  obtain ⟨r, hr, s, hs, hbehind⟩ := hlate
  obtain ⟨-, -, hapart⟩ := h.list.rest r hr
  have hrs : r.span.stop ≤ s.start := (hapart s hs).resolve_left (Nat.not_le.2 hbehind)
  obtain ⟨e, he⟩ : ∃ e, f.list.positional.getLast? = some e :=
    Option.isSome_iff_exists.1 (List.getLast?_isSome.2 (List.ne_nil_of_mem hs))
  have hmem := List.mem_of_getLast? he
  have hre : r.span.stop ≤ e.start := by
    obtain ⟨pre, hpre⟩ := List.getLast?_eq_some_iff.1 he
    have horder := h.list.inOrder
    rw [hpre] at hs horder
    rcases List.mem_append.1 hs with hs | hs
    · have hne := (h.list.solid s (by rw [hpre]; exact List.mem_append_left _ hs)).nonempty
      have hle := (List.pairwise_append.1 horder).2.2 s hs e (by simp)
      omega
    · rwa [← List.mem_singleton.1 hs]
  obtain ⟨c, after, hafter, hblank, hcomma⟩ := (h.list.solid e hmem).opens
  have hne := (h.list.solid e hmem).nonempty
  have hend : Layout.lastEnd f = some r.span.stop := by
    rw [Layout.lastEnd, show f.rest = some r from hr]
    rfl
  have hstop : (Subject.mk f layout hoist).removalEnd r.span.stop ≤ e.start := by
    rcases Subject.removalEnd_cases (s := ⟨f, layout, hoist⟩) hlayout hend with hcase | ⟨heq, -⟩
    · exact hcase.le_brace hre hafter hblank hcomma
    · rw [heq]
      exact hre
  unfold Lower.restReplacement at hrun
  simp only [show f.rest = some r from hr] at hrun
  obtain ⟨_, u, -, hrun⟩ := Succeeds.bind_iff.1 hrun
  obtain ⟨rfl, rfl⟩ := Succeeds.pure_iff.1 hrun
  refine ⟨_, List.mem_singleton_self _, ?_⟩
  rw [Subject.remove_eq, hlast, he]
  exact Nat.lt_of_le_of_lt hstop hne

/-- A function that stands in a range is read soundly, unless its list is refused. -/
theorem of_functionNode {env : Surroundings} {name : Option String} {span : Span}
    {params : List Target} {bodySpan : Span} {body : List Node} {r : Span} {ps bs : List Span}
    (hlies : FunctionLies source r params bodySpan body ps bs)
    (hplaced : Target.AllPlaced source params ps)
    (hread : env.functionNode name span params bodySpan body = .ok f) :
    f.Sound source r.start ∧ f.body.span = bodySpan ∧
      Layout.anchorOf f = bodyAnchor bodySpan body := by
  obtain ⟨list, hlist, hf⟩ := Surroundings.functionNode_eq_ok hread
  have hanchor : Layout.anchorOf f = bodyAnchor bodySpan body := by
    rw [hf, Layout.anchorOf, bodyAnchor, Option.map_map]
    rfl
  have hsound := ParamList.sound_of_ofTargets hlies.params hplaced hlies.inOrder hlies.beforeBody
    hlies.within.1 hlist
  have hbody : f.body.span = bodySpan := by rw [hf]
  refine ⟨⟨?_, ?_, ?_, ?_, ?_⟩, hbody, hanchor⟩
  · rw [hbody, hf]
    exact hsound
  · rw [hbody]
    exact hlies.within.1
  · rw [hbody]
    exact hlies.brace
  · rw [hbody, hanchor]
    exact hlies.anchor
  · rw [hanchor]
    exact hlies.boundary

end Sound

end FunctionNode

end ParamLowering
