import ParamLowering.Proofs.Destructuring
import ParamLowering.Proofs.Mentions
import ParamLowering.Proofs.Placement
set_option autoImplicit false

/-!
The names of a pattern, on its way from the tree through extraction.

A target and the pattern read from it bind the same names, unless an array pattern has several
rest elements, of which only the last is read. An extraction declares the names of its pattern in
their order, however many temporaries it needs.
-/

namespace ParamLowering

open ParamLowering.Tree

/-! ### Reading -/

namespace Tree

def Target.names (t : Target) : List String := t.bound.map (·.name)

def Slot.isRest : Slot → Bool
  | .hole => false
  | .item target => target.isRest

mutual
/-- Whether no array pattern has more than one rest element. -/
def Target.restsOnce : Target → Bool
  | .name .. => true
  | .object _ fields _ => Field.restsOnceAll fields
  | .array _ slots _ => (slots.filter (·.isRest)).length ≤ 1 && Slot.restsOnceAll slots
  | .rest _ target _ => target.restsOnce
  | .withDefault target _ => target.restsOnce
  | .undeclared _ => true

def Field.restsOnceAll : List Field → Bool
  | [] => true
  | f :: fs => f.restsOnce && Field.restsOnceAll fs

def Field.restsOnce : Field → Bool
  | .keyed _ _ value => value.restsOnce
  | .shorthand .. => true
  | .rest target => target.restsOnce

def Slot.restsOnceAll : List Slot → Bool
  | [] => true
  | .hole :: ss => Slot.restsOnceAll ss
  | .item target :: ss => target.restsOnce && Slot.restsOnceAll ss
end

@[simp] theorem Target.bound_bare (t : Target) : t.bare.bound = t.bound := by
  cases t with
  | withDefault target value => rw [bare, bound]
  | name | object | array | rest | undeclared => rfl

@[simp] theorem Target.restsOnce_bare (t : Target) : t.bare.restsOnce = t.restsOnce := by
  cases t with
  | withDefault target value => rw [bare, restsOnce]
  | name | object | array | rest | undeclared => rfl

end Tree

/-- The names of the rest element of an array pattern, if there is one. -/
def Pattern.restLeaves (rest : Option Pattern) : List String := rest.toList.flatMap (·.leaves)

theorem Pattern.leaves_array (span : Span) (elements : List PatternElement)
    (rest : Option Pattern) :
    (Pattern.array span elements rest).leaves = Pattern.elementLeaves elements ++ restLeaves rest := by
  cases rest <;> simp [leaves, restLeaves]

/-- What the patterns of some places bind, with a rest element that was read before. -/
def Tree.Slot.LeavesFrom (ss : List Slot) (rest : Option Pattern) (elements : List PatternElement)
    (rest' : Option Pattern) : Prop :=
  Pattern.elementLeaves elements ++ Pattern.restLeaves rest' ⊆
      (Slot.boundAll ss).map (·.name) ++ Pattern.restLeaves rest ∧
    (Slot.restsOnceAll ss = true → (ss.filter (·.isRest)).length + rest.toList.length ≤ 1 →
      (Slot.boundAll ss).map (·.name) ++ Pattern.restLeaves rest ⊆
        Pattern.elementLeaves elements ++ Pattern.restLeaves rest')

namespace Tree.Slot.LeavesFrom

variable {t : Target} {p : Pattern} {ss : List Slot} {rest rest' : Option Pattern}
  {elements : List PatternElement}

theorem item (ht : t.isRest = false) {default : Option Span}
    (htarget : p.leaves ⊆ t.names ∧ (t.restsOnce = true → t.names ⊆ p.leaves))
    (hmore : LeavesFrom ss rest elements rest') :
    LeavesFrom (.item t :: ss) rest (.item p default :: elements) rest' := by
  rw [LeavesFrom, Slot.boundAll, Slot.bound, List.map_append, Pattern.elementLeaves,
    List.append_assoc, List.append_assoc, Slot.restsOnceAll, Bool.and_eq_true]
  refine ⟨append_subset_append htarget.1 hmore.1, fun honce hcount => ?_⟩
  rw [List.filter_cons_of_neg (by simp [Slot.isRest, ht])] at hcount
  exact append_subset_append (htarget.2 honce.1) (hmore.2 honce.2 hcount)

theorem restItem {span : Span} {notes : List Node}
    (htarget : p.leaves ⊆ t.names ∧ (t.restsOnce = true → t.names ⊆ p.leaves))
    (hmore : LeavesFrom ss (some p) elements rest') :
    LeavesFrom (.item (.rest span t notes) :: ss) rest elements rest' := by
  have hp : Pattern.restLeaves (some p) = p.leaves := by simp [Pattern.restLeaves]
  obtain ⟨hsub, hall⟩ := hmore
  rw [hp] at hsub hall
  rw [LeavesFrom, Slot.boundAll, Slot.bound, Target.bound, List.map_append, ← Target.names,
    Slot.restsOnceAll, Target.restsOnce, Bool.and_eq_true,
    List.filter_cons_of_pos (by rfl), List.length_cons]
  refine ⟨fun n hn => ?_, fun honce hcount n hn => ?_⟩
  · have hmem := hsub hn
    simp only [List.mem_append] at hmem ⊢
    rcases hmem with hmem | hmem
    · exact .inl (.inr hmem)
    · exact .inl (.inl (htarget.1 hmem))
  · -- no rest element was read before, and none follows
    have hnone : rest = none := by
      cases rest with
      | none => rfl
      | some q => simp at hcount
    subst hnone
    refine hall honce.2 (by simpa using hcount) ?_
    simp only [Pattern.restLeaves, Option.toList_none, List.flatMap_nil, List.append_nil,
      List.mem_append] at hn ⊢
    rcases hn with hn | hn
    · exact .inr (htarget.2 honce.1 hn)
    · exact .inl hn

end Tree.Slot.LeavesFrom

mutual
/-- A pattern binds names of its target; and all of them, if its arrays have one rest element. -/
theorem Tree.Target.leaves_pattern : ∀ (t : Target) (p : Pattern), t.pattern = .ok p →
    p.leaves ⊆ t.names ∧ (t.restsOnce = true → t.names ⊆ p.leaves)
  | .name id span notes, p, h => by
    obtain rfl := Except.ok.inj h
    exact ⟨List.Subset.refl _, fun _ => List.Subset.refl _⟩
  | .object span fields notes, p, h => by
    rw [Target.pattern] at h
    split at h
    · rename_i props hprops
      obtain rfl := Except.ok.inj h
      exact Field.leaves_properties fields props hprops
    · cases h
  | .array span slots notes, p, h => by
    rw [Target.pattern] at h
    split at h
    · rename_i elements rest helements
      obtain rfl := Except.ok.inj h
      obtain ⟨hsub, hall⟩ := Slot.leaves_elements slots none elements rest helements
      rw [Pattern.leaves_array]
      refine ⟨fun n hn => ?_, fun honce n hn => ?_⟩
      · have hmem := hsub hn
        rwa [Pattern.restLeaves, Option.toList_none, List.flatMap_nil, List.append_nil] at hmem
      · simp only [Target.restsOnce, Bool.and_eq_true, decide_eq_true_eq] at honce
        exact hall honce.2 (by simpa using honce.1) (List.mem_append_left _ hn)
    · cases h
  | .rest .., _, h => by cases h
  | .withDefault .., _, h => by cases h
  | .undeclared _, _, h => by cases h

theorem Tree.Field.leaves_properties : ∀ (fs : List Field) (props : List PatternProperty),
    Field.properties fs = .ok props →
    Pattern.propertyLeaves props ⊆ (Field.boundAll fs).map (·.name) ∧
      (Field.restsOnceAll fs = true →
        (Field.boundAll fs).map (·.name) ⊆ Pattern.propertyLeaves props)
  | [], props, h => by
    obtain rfl := Except.ok.inj h
    exact ⟨List.Subset.refl _, fun _ => List.Subset.refl _⟩
  | f :: fs, props, h => by
    rw [Field.properties] at h
    split at h
    · cases h
    · rename_i prop hprop
      split at h
      · cases h
      · rename_i more hmore
        obtain rfl := Except.ok.inj h
        obtain ⟨key, value, default⟩ := prop
        obtain ⟨hf, hf'⟩ := Field.leaves_property f key value default hprop
        obtain ⟨hfs, hfs'⟩ := Field.leaves_properties fs more hmore
        rw [Field.boundAll, List.map_append, Pattern.propertyLeaves]
        refine ⟨append_subset_append hf hfs, fun honce => ?_⟩
        rw [Field.restsOnceAll, Bool.and_eq_true] at honce
        exact append_subset_append (hf' honce.1) (hfs' honce.2)

theorem Tree.Field.leaves_property : ∀ (f : Field) (key : PropertyKey) (value : Pattern)
    (default : Option Span), f.property = .ok (.mk key value default) →
    value.leaves ⊆ f.bound.map (·.name) ∧
      (f.restsOnce = true → f.bound.map (·.name) ⊆ value.leaves)
  | .keyed key keyParts target, _, p, _, h => by
    rw [Field.property_keyed] at h
    obtain ⟨k, q, -, hq, heq⟩ := PatternProperty.ofValue_eq_ok h
    obtain ⟨rfl, rfl, rfl⟩ := heq
    have htarget : p.leaves ⊆ target.names ∧ (target.restsOnce = true → target.names ⊆ p.leaves) := by
      match target, hq with
      | .withDefault inner _, hq =>
        simpa [Target.names, Target.bound, Target.restsOnce] using
          Target.leaves_pattern inner p hq
      | .name .., hq | .object .., hq | .array .., hq =>
        exact Target.leaves_pattern _ p hq
    rw [Field.bound, Field.restsOnce]
    exact htarget
  | .shorthand id default, key, p, _, h => by
    obtain ⟨rfl, rfl, rfl⟩ := Except.ok.inj h
    exact ⟨List.Subset.refl _, fun _ => List.Subset.refl _⟩
  | .rest _, _, _, _, h => by cases h

theorem Tree.Slot.leaves_elements : ∀ (ss : List Slot) (rest : Option Pattern)
    (elements : List PatternElement) (rest' : Option Pattern),
    Slot.elements ss rest = .ok (elements, rest') → Slot.LeavesFrom ss rest elements rest'
  | [], rest, elements, rest', h => by
    obtain ⟨rfl, rfl⟩ := Prod.mk.inj (Except.ok.inj h)
    exact ⟨List.Subset.refl _, fun _ _ => List.Subset.refl _⟩
  | .hole :: ss, rest, elements, rest', h => by
    rw [Slot.elements] at h
    split at h
    · cases h
    · rename_i es r hes
      obtain ⟨rfl, rfl⟩ := Prod.mk.inj (Except.ok.inj h)
      exact Slot.leaves_elements ss rest es r hes
  | .item (.rest span target notes) :: ss, rest, elements, rest', h => by
    rw [Slot.elements] at h
    split at h
    · cases h
    · rename_i p hp
      exact .restItem (Target.leaves_pattern target p hp)
        (Slot.leaves_elements ss (some p) elements rest' h)
  | .item (.withDefault inner value) :: ss, rest, elements, rest', h => by
    rw [Slot.elements_item rfl] at h
    obtain ⟨p, es, hp, hes, rfl⟩ := PatternElement.before_eq_ok h
    have hinner := Target.leaves_pattern inner p hp
    refine .item rfl ?_ (Slot.leaves_elements ss rest es rest' hes)
    rwa [Target.names, Target.bound, Target.restsOnce]
  | .item (.name ..) :: ss, rest, elements, rest', h
  | .item (.object ..) :: ss, rest, elements, rest', h
  | .item (.array ..) :: ss, rest, elements, rest', h
  | .item (.undeclared _) :: ss, rest, elements, rest', h => by
    rw [Slot.elements_item rfl] at h
    obtain ⟨p, es, hp, hes, rfl⟩ := PatternElement.before_eq_ok h
    exact .item rfl (Target.leaves_pattern _ p hp) (Slot.leaves_elements ss rest es rest' hes)
end

/-- The names of a parameter are those of its pattern. -/
theorem Tree.Target.leaves_bare {t : Target} {p : Pattern} (h : t.bare.pattern = .ok p) :
    p.leaves ⊆ t.names ∧ (t.restsOnce = true → t.names ⊆ p.leaves) := by
  have hbare := Target.leaves_pattern t.bare p h
  rwa [Target.names, Target.bound_bare, Target.restsOnce_bare] at hbare

/-! ### Extraction -/

namespace Extraction

/-- The names in the order in which the declaration fills them. -/
theorem leafNames_eq_ordered (x : Extraction) :
    x.leafNames = (x.ordered.filter (!·.generated)).map (·.name) := by
  have hdefinitions : ∀ ds : List Definition, ds.filterMap (·.target.name?) =
      ((ds.filterMap (·.binding?)).filter (!·.generated)).map (·.name) := by
    intro ds
    induction ds with
    | nil => rfl
    | cons d ds ih =>
      cases hd : d.target.name? with
      | none => simp [hd, Definition.binding?, ih]
      | some name => simp [hd, Definition.binding?, ih]
  rw [leafNames, hdefinitions, ordered, List.filter_append, List.map_append]

end Extraction

theorem Emission.leafNames {leaves : List String} {s t : ExtractionState} {bs : List Binding}
    (h : Emission leaves s t bs) :
    t.out.leafNames = s.out.leafNames ++ (bs.filter (!·.generated)).map (·.name) := by
  rw [Extraction.leafNames_eq_ordered, Extraction.leafNames_eq_ordered, h.ordered,
    List.filter_append, List.map_append]

namespace Extracting

variable {α β : Type} {xs ys : List String}

/-- If the step succeeds, the extraction declares these names behind those before. -/
def Fills (names : List String) (m : Extracting α) : Prop :=
  ∀ s a t, s.out.Simple → Succeeds m s a t →
    t.out.Simple ∧ t.out.leafNames = s.out.leafNames ++ names

theorem fills_pure (a : α) : Fills [] (pure a : Extracting α) := by
  intro s b t hs h
  obtain ⟨-, rfl⟩ := Succeeds.pure_iff.1 h
  exact ⟨hs, (List.append_nil _).symm⟩

theorem fills_seq {m : Extracting α} {f : α → Extracting β} (hm : Fills xs m)
    (hf : ∀ a, Fills ys (f a)) : Fills (xs ++ ys) (m >>= f) := by
  intro s b u hs h
  obtain ⟨a, t, hfirst, hsecond⟩ := Succeeds.bind_iff.1 h
  obtain ⟨ht, hxs⟩ := hm s a t hs hfirst
  obtain ⟨hu, hys⟩ := hf a t b u ht hsecond
  exact ⟨hu, by rw [hys, hxs, List.append_assoc]⟩

theorem fills_behind {m : Extracting α} {f : α → Extracting β} (hm : Fills [] m)
    (hf : ∀ a, Fills ys (f a)) : Fills ys (m >>= f) := fills_seq hm hf

theorem fills_bind (name : String) (init : Initializer) :
    Fills [name] (Extracting.bind { name, init }) := by
  intro s a t hs h
  have hemits : Emission [name] s t _ := bind_emission hs ⟨rfl, by simp⟩ h
  exact ⟨hemits.simple, hemits.leafNames⟩

theorem fills_defer (name : String) (span : Span) (temporary : String) (accessor : Accessor) :
    Fills [name] (Extracting.defer ⟨.ident name span, temporary, accessor⟩) := by
  intro s a t hs h
  have hemits : Emission [name] s t _ := defer_emission hs (by simp) h
  exact ⟨hemits.simple, hemits.leafNames⟩

theorem fills_temporary (stem : String) (init : Initializer) :
    Fills [] (Extracting.temporary stem init) := by
  intro s name t hs h
  obtain ⟨-, -, -, hemits⟩ := temporary_emission [] hs h
  exact ⟨hemits.simple, hemits.leafNames⟩

end Extracting

namespace ExtractionContext

open Extracting

variable (cx : ExtractionContext)

theorem slice_fills (range : Span) : Fills [] (cx.slice range) := by
  unfold slice
  cases range.textOrError cx.source with
  | ok text => exact fills_pure text
  | error e => exact fun s a t _ h => (Succeeds.throw_iff.1 h).elim

theorem accessorOf_fills (key : PropertyKey) : Fills [] (cx.accessorOf key) := by
  cases key with
  | ident | str | num => exact fills_pure _
  | computed range => exact fills_behind (slice_fills cx range) fun _ => fills_pure _

theorem guarded_fills (t : String) (default : Option Span) : Fills [] (cx.guarded t default) := by
  cases default with
  | none => exact fills_pure t
  | some range => exact fills_behind (slice_fills cx range) fun _ => fills_temporary _ _

theorem element_fills (base : String) (top : Bool) (accessor : Accessor) (value : Pattern)
    (default : Option Span) {inside : String → Extracting Unit}
    (hinside : ∀ t, Fills value.leaves (inside t)) :
    Fills value.leaves (cx.element base top accessor value default inside) := by
  have htemporary : Fills value.leaves (do
      let t ← Extracting.temporary cx.stem (.read base accessor)
      inside (← cx.guarded t default)) :=
    fills_behind (fills_temporary _ _) fun t => fills_behind (guarded_fills cx t default) hinside
  cases value with
  | object span props => exact htemporary
  | array span elements rest => exact htemporary
  | ident name span =>
    cases default with
    | none =>
      cases top with
      | true => exact fills_bind name _
      | false => exact fills_defer name span base accessor
    | some range =>
      exact fills_behind (slice_fills cx range) fun _ =>
        fills_behind (fills_temporary _ _) fun _ => fills_bind name _

theorem remainder_fills (base : String) (count : Nat) (value : Pattern)
    {inside : String → Extracting Unit} (hinside : ∀ t, Fills value.leaves (inside t)) :
    Fills value.leaves (cx.remainder base count value inside) := by
  cases value with
  | ident name span => exact fills_bind name _
  | object span props => exact fills_behind (fills_temporary _ _) hinside
  | array span elements rest => exact fills_behind (fills_temporary _ _) hinside

mutual
theorem parts_fills (base : String) (top : Bool) :
    ∀ p : Pattern, Fills p.leaves (cx.parts base top p)
  | .ident name _ => fills_bind name _
  | .object _ props => properties_fills base top props
  | .array _ elements none => items_fills base top 0 elements
  | .array _ elements (some rest) =>
    fills_seq (items_fills base top 0 elements) fun _ =>
      remainder_fills cx base elements.length rest fun t => parts_fills t false rest

theorem properties_fills (base : String) (top : Bool) :
    ∀ props : List PatternProperty, Fills (Pattern.propertyLeaves props) (cx.properties base top props)
  | [] => fills_pure ()
  | .mk key value default :: props =>
    fills_behind (accessorOf_fills cx key) fun accessor =>
      fills_seq (element_fills cx base top accessor value default fun t =>
        parts_fills t false value) fun _ => properties_fills base top props

theorem items_fills (base : String) (top : Bool) :
    ∀ (index : Nat) (elements : List PatternElement),
      Fills (Pattern.elementLeaves elements) (cx.items base top index elements)
  | _, [] => fills_pure ()
  | index, .hole :: elements => items_fills base top (index + 1) elements
  | index, .item value default :: elements =>
    fills_seq (element_fills cx base top (.index index) value default fun t =>
      parts_fills t false value) fun _ => items_fills base top (index + 1) elements
end

theorem extract_fills (pattern : Pattern) (source : SourceExpr) :
    Fills pattern.leaves (cx.extract pattern source) := by
  have hbase : Fills [] (cx.baseOf source) := by
    cases source with
    | reference text => exact fills_pure text
    | compound text => exact fills_temporary _ _
  exact fills_behind hbase fun base => parts_fills cx base true pattern

end ExtractionContext

/-- The answers of the extractor declare the names of their patterns. -/
def Extractor.Faithful {σ : Type} (e : Extractor σ) : Prop :=
  ∀ pattern source names state x names' state',
    e.run pattern source names state = (.ok x, names', state') → x.leafNames = pattern.leaves

theorem ExtractionContext.extractor_faithful (cx : ExtractionContext) : cx.extractor.Faithful := by
  intro pattern source names state x names' state' h
  obtain ⟨t, hrun, rfl⟩ := succeeds_of_answer (congrArg Prod.fst h)
  exact (cx.extract_fills pattern source _ _ _ (Extraction.simple_bindings []) hrun).2

end ParamLowering
