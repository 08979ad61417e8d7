import ParamLowering.Proofs.LeafNames
import ParamLowering.Proofs.ScopeTree
import ParamLowering.Proofs.TwoRuns
import ParamLowering.Run
set_option autoImplicit false

/-!
What passes do does not depend on the names that are taken.

Two series of passes over the same functions, with different names taken and different stems, draw
equally many names, replace and register the same, fail with the same errors, and make edits at the
same places. Only the texts of the edits mention the names drawn.
-/

namespace ParamLowering

/-! ### Extraction -/

namespace Extracting

variable {α β : Type} {E : Prop}

/-- Two extractions under way in which only names wait. They are the same if all names drawn are. -/
structure Alike (E : Prop) (s s' : ExtractionState) : Prop where
  simple : s.out.Simple
  simple' : s'.out.Simple
  same : SameIf E s.out s'.out

/-- Two steps of extraction stay in step, and give the same value if all names drawn are. -/
def Paired (E : Prop) (m m' : Extracting α) : Prop :=
  SideBySide (fun s => s.names.drawn) Alike SameIf E m m'

theorem paired_pure {a a' : α} (h : SameIf E a a') :
    Paired E (pure a : Extracting α) (pure a') := sideBySide_pure h

theorem paired_seq {m m' : Extracting α} {f f' : α → Extracting β} (hm : Paired E m m')
    (hf : ∀ (F : Prop) a a', (F → E) → SameIf F a a' → Paired F (f a) (f' a')) :
    Paired E (m >>= f) (m' >>= f') := sideBySide_bind hm hf

theorem bind_paired {b b' : Binding} (h : SameIf E b b') :
    Paired E (Extracting.bind b) (Extracting.bind b') := by
  intro s s' hs
  refine ⟨[], [], inStep_of_succeeds ((bind_succeeds (u := ()) hs.simple).2 rfl)
    ((bind_succeeds (u := ()) hs.simple').2 rfl) rfl rfl rfl ⟨?_, ?_, fun hE => ?_⟩ fun _ => rfl⟩
  · exact Extraction.simple_bindings _
  · exact Extraction.simple_bindings _
  · show Extraction.mk _ _ = Extraction.mk _ _
    rw [hs.same hE.1, h hE.1]

theorem defer_paired {name : String} {span : Span} {base base' : String}
    {accessor accessor' : Accessor} (hbase : SameIf E base base')
    (haccessor : SameIf E accessor accessor') :
    Paired E (Extracting.defer ⟨.ident name span, base, accessor⟩)
      (Extracting.defer ⟨.ident name span, base', accessor'⟩) := by
  intro s s' hs
  refine ⟨[], [], inStep_nil rfl rfl ⟨?_, ?_, fun hE => ?_⟩ (.ok fun _ => rfl)⟩
  · exact Extraction.simple_defer hs.simple _ _ _ _
  · exact Extraction.simple_defer hs.simple' _ _ _ _
  · show s.out.defer _ = s'.out.defer _
    rw [hs.same hE, hbase hE, haccessor hE]

theorem temporary_paired (stem stem' : String) {init init' : Initializer}
    (h : SameIf E init init') :
    Paired E (Extracting.temporary stem init) (Extracting.temporary stem' init') := by
  intro s s' hs
  refine ⟨[(s.names.fresh stem).1], [(s'.names.fresh stem').1],
    inStep_of_succeeds (temporary_succeeds hs.simple stem init)
      (temporary_succeeds hs.simple' stem' init') rfl (NameSet.drawn_fresh _ _)
      (NameSet.drawn_fresh _ _) ⟨?_, ?_, ?_⟩ fun hE => (List.cons.inj hE.2).1⟩
  · exact Extraction.simple_bindings _
  · exact Extraction.simple_bindings _
  · rintro ⟨hE, hname⟩
    obtain ⟨hname, -⟩ := List.cons.inj hname
    show Extraction.mk _ _ = Extraction.mk _ _
    rw [hs.same hE, h hE, hname]

end Extracting

namespace ExtractionContext

open Extracting

variable (source : List Char) (stem stem' : String) {E : Prop}

theorem slice_paired (range : Span) :
    Paired E (slice ⟨source, stem⟩ range) (slice ⟨source, stem'⟩ range) := by
  rw [slice, slice]
  cases range.textOrError source with
  | ok text => exact paired_pure fun _ => rfl
  | error e => exact sideBySide_throw e

theorem accessorOf_paired (key : PropertyKey) :
    Paired E (accessorOf ⟨source, stem⟩ key) (accessorOf ⟨source, stem'⟩ key) := by
  cases key with
  | ident | str | num => exact paired_pure fun _ => rfl
  | computed range =>
    exact paired_seq (slice_paired source stem stem' range) fun F text text' _ htext =>
      paired_pure fun hF => congrArg Accessor.computed (htext hF)

theorem guarded_paired {t t' : String} (ht : SameIf E t t') (default : Option Span) :
    Paired E (guarded ⟨source, stem⟩ t default) (guarded ⟨source, stem'⟩ t' default) := by
  cases default with
  | none => exact paired_pure ht
  | some range =>
    refine paired_seq (slice_paired source stem stem' range) fun F text text' hF htext => ?_
    exact temporary_paired stem stem' fun h => by rw [ht (hF h), htext h]

theorem element_paired {base base' : String} (hbase : SameIf E base base') (top : Bool)
    {accessor accessor' : Accessor} (haccessor : SameIf E accessor accessor') (value : Pattern)
    (default : Option Span) {inside inside' : String → Extracting Unit}
    (hinside : ∀ (F : Prop) t t', SameIf F t t' → Paired F (inside t) (inside' t')) :
    Paired E (element ⟨source, stem⟩ base top accessor value default inside)
      (element ⟨source, stem'⟩ base' top accessor' value default inside') := by
  have hread : SameIf E (Initializer.read base accessor) (.read base' accessor') :=
    fun hE => by rw [hbase hE, haccessor hE]
  have hpattern : Paired E (do
      let t ← Extracting.temporary stem (.read base accessor)
      inside (← guarded ⟨source, stem⟩ t default)) (do
      let t ← Extracting.temporary stem' (.read base' accessor')
      inside' (← guarded ⟨source, stem'⟩ t default)) :=
    paired_seq (temporary_paired stem stem' hread) fun F t t' _ ht =>
      paired_seq (guarded_paired source stem stem' ht default) fun G u u' _ hu => hinside G u u' hu
  cases value with
  | object span props => exact hpattern
  | array span elements rest => exact hpattern
  | ident name span =>
    cases default with
    | none =>
      cases top with
      | true => exact bind_paired fun hE => by rw [hread hE]
      | false => exact defer_paired hbase haccessor
    | some range =>
      refine paired_seq (slice_paired source stem stem' range) fun F text text' hF htext => ?_
      refine paired_seq (temporary_paired stem stem' fun h => hread (hF h)) fun G t t' hG ht => ?_
      exact bind_paired fun h => by rw [ht h, htext (hG h)]

theorem remainder_paired {base base' : String} (hbase : SameIf E base base') (count : Nat)
    (value : Pattern) {inside inside' : String → Extracting Unit}
    (hinside : ∀ (F : Prop) t t', SameIf F t t' → Paired F (inside t) (inside' t')) :
    Paired E (remainder ⟨source, stem⟩ base count value inside)
      (remainder ⟨source, stem'⟩ base' count value inside') := by
  have htail : SameIf E (Initializer.tail base count) (.tail base' count) :=
    fun hE => by rw [hbase hE]
  have hpattern : Paired E (do
      let t ← Extracting.temporary stem (.tail base count)
      inside t) (do
      let t ← Extracting.temporary stem' (.tail base' count)
      inside' t) :=
    paired_seq (temporary_paired stem stem' htail) fun F t t' _ ht => hinside F t t' ht
  cases value with
  | ident name span => exact bind_paired fun hE => by rw [htail hE]
  | object span props => exact hpattern
  | array span elements rest => exact hpattern

mutual
theorem parts_paired (top : Bool) : ∀ (p : Pattern) (E : Prop) (base base' : String),
    SameIf E base base' →
    Paired E (parts ⟨source, stem⟩ base top p) (parts ⟨source, stem'⟩ base' top p)
  | .ident name _, E, base, base', hbase => bind_paired fun hE => by rw [hbase hE]
  | .object _ props, E, base, base', hbase => properties_paired top props E base base' hbase
  | .array _ elements none, E, base, base', hbase => items_paired top 0 elements E base base' hbase
  | .array _ elements (some rest), E, base, base', hbase =>
    paired_seq (items_paired top 0 elements E base base' hbase) fun F _ _ hF _ =>
      remainder_paired source stem stem' (fun h => hbase (hF h)) elements.length rest
        fun G t t' ht => parts_paired false rest G t t' ht

theorem properties_paired (top : Bool) :
    ∀ (props : List PatternProperty) (E : Prop) (base base' : String), SameIf E base base' →
    Paired E (properties ⟨source, stem⟩ base top props) (properties ⟨source, stem'⟩ base' top props)
  | [], _, _, _, _ => paired_pure fun _ => rfl
  | .mk key value default :: props, _, base, base', hbase =>
    paired_seq (accessorOf_paired source stem stem' key) fun _ _ _ hF haccessor =>
      paired_seq (element_paired source stem stem' (fun h => hbase (hF h)) top haccessor value default
        fun G t t' ht => parts_paired false value G t t' ht) fun G _ _ hG _ =>
          properties_paired top props G base base' fun h => hbase (hF (hG h))

theorem items_paired (top : Bool) : ∀ (index : Nat) (elements : List PatternElement) (E : Prop)
    (base base' : String), SameIf E base base' →
    Paired E (items ⟨source, stem⟩ base top index elements)
      (items ⟨source, stem'⟩ base' top index elements)
  | _, [], _, _, _, _ => paired_pure fun _ => rfl
  | index, .hole :: elements, E, base, base', hbase =>
    items_paired top (index + 1) elements E base base' hbase
  | index, .item value default :: elements, _, base, base', hbase =>
    paired_seq (element_paired source stem stem' hbase top (fun _ => rfl) value default
      fun G t t' ht => parts_paired false value G t t' ht) fun F _ _ hF _ =>
        items_paired top (index + 1) elements F base base' fun h => hbase (hF h)
end

theorem extract_paired (pattern : Pattern) (value : SourceExpr) :
    Paired E (extract ⟨source, stem⟩ pattern value) (extract ⟨source, stem'⟩ pattern value) := by
  have hbase : Paired E (baseOf ⟨source, stem⟩ value) (baseOf ⟨source, stem'⟩ value) := by
    cases value with
    | reference text => exact paired_pure fun _ => rfl
    | compound text => exact temporary_paired stem stem' fun _ => rfl
  exact paired_seq hbase fun F base base' _ h =>
    parts_paired source stem stem' true pattern F base base' h

end ExtractionContext

/-! ### Scopes -/

/-- Two registries with the same scopes and owners; what is declared in them may differ. -/
structure ScopeRegistry.SameFrame (r r' : ScopeRegistry) : Prop where
  scopes : r.scopes.map (fun s => (s.kind, s.parent)) = r'.scopes.map fun s => (s.kind, s.parent)
  owners : r.owners = r'.owners

namespace ScopeRegistry.SameFrame

variable {r r' : ScopeRegistry}

theorem frame_declare (r : ScopeRegistry) (id : ScopeId) (name : String) (d : Declaration) :
    ((r.declare id name d).2.scopes.map fun s => (s.kind, s.parent)) =
      r.scopes.map fun s => (s.kind, s.parent) := by
  refine List.ext_getElem? fun other => ?_
  rw [List.getElem?_map, getElem?_declare, Option.map_map, List.getElem?_map]
  congr 1
  funext s
  by_cases h : id = other
  · simp [h, Scope.declare_kind, Scope.declare_parent]
  · simp [h]

theorem declare (h : SameFrame r r') (id : ScopeId) (name name' : String) (d d' : Declaration) :
    SameFrame (r.declare id name d).2 (r'.declare id name' d').2 where
  scopes := by rw [frame_declare, frame_declare, h.scopes]
  owners := h.owners

theorem getElem? (h : SameFrame r r') (id : ScopeId) :
    (r.scopes[id]? = none ∧ r'.scopes[id]? = none) ∨ ∃ s s', r.scopes[id]? = some s ∧
      r'.scopes[id]? = some s' ∧ s.kind = s'.kind ∧ s.parent = s'.parent := by
  have hid := congrArg (·[id]?) h.scopes
  simp only [List.getElem?_map] at hid
  match hs : r.scopes[id]?, hs' : r'.scopes[id]? with
  | none, none => exact .inl ⟨rfl, rfl⟩
  | some s, some s' =>
    rw [hs, hs'] at hid
    obtain ⟨hkind, hparent⟩ := Prod.mk.inj (Option.some.inj hid)
    exact .inr ⟨s, s', rfl, rfl, hkind, hparent⟩
  | some s, none | none, some s' =>
    rw [hs, hs'] at hid
    cases hid

theorem chainUpTo (h : SameFrame r r') (steps : Nat) (id : ScopeId) :
    r.chainUpTo steps id = r'.chainUpTo steps id := by
  induction steps generalizing id with
  | zero => rfl
  | succ steps ih =>
    rw [ScopeRegistry.chainUpTo, ScopeRegistry.chainUpTo]
    rcases h.getElem? id with ⟨hs, hs'⟩ | ⟨s, s', hs, hs', -, hparent⟩
    · rw [hs, hs']
    · rw [hs, hs']
      simp only [hparent]
      cases s'.parent with
      | none => rfl
      | some parent => exact congrArg (id :: ·) (ih parent)

theorem closestHoist (h : SameFrame r r') (id : ScopeId) :
    r.closestHoist id = r'.closestHoist id := by
  have hlength : r.scopes.length = r'.scopes.length := by
    simpa using congrArg List.length h.scopes
  have hhoist : r.isHoist = r'.isHoist := by
    funext id
    rw [isHoist, isHoist]
    rcases h.getElem? id with ⟨hs, hs'⟩ | ⟨s, s', hs, hs', hkind, -⟩
    · rw [hs, hs']
    · rw [hs, hs', Option.map_some, Option.map_some, hkind]
  rw [ScopeRegistry.closestHoist, ScopeRegistry.closestHoist, chain, chain, hlength,
    h.chainUpTo, hhoist]

theorem scopeOf? (h : SameFrame r r') (f : FunctionId) : r.scopeOf? f = r'.scopeOf? f := by
  rw [ScopeRegistry.scopeOf?, h.owners, ScopeRegistry.scopeOf?]

end ScopeRegistry.SameFrame

/-! ### Passes -/

/-- The place and the kind of an edit, without its text. -/
def Edit.place (e : Edit) : Nat × Nat × EditKind := (e.start, e.stop, e.kind)

/-- Two edits at the same place, with the same text if the names drawn are the same. -/
structure Edit.Alike (E : Prop) (e e' : Edit) : Prop where
  place : e.place = e'.place
  same : SameIf E e e'

/-- Two answers of an extractor to the same question. -/
structure Extraction.Alike (E : Prop) (x x' : Extraction) : Prop where
  simple : x.Simple
  simple' : x'.Simple
  leafNames : x.leafNames = x'.leafNames
  same : SameIf E x x'

structure Replacement.Alike (E : Prop) (r r' : Replacement) : Prop where
  position : r.position = r'.position
  registered : r.registered = r'.registered
  removal : r.removal.Alike E r'.removal
  same : SameIf E r r'

theorem Replacement.Alike.mono {E F : Prop} {r r' : Replacement} (h : r.Alike E r')
    (hF : F → E) : r.Alike F r' :=
  ⟨h.position, h.registered, ⟨h.removal.place, fun f => h.removal.same (hF f)⟩,
    fun f => h.same (hF f)⟩

/-- Two outcomes that differ at most in the texts of their edits. -/
structure Outcome.Alike (E : Prop) (o o' : Outcome) : Prop where
  replaced : o.replaced = o'.replaced
  restReplaced : o.restReplaced = o'.restReplaced
  registered : o.registered = o'.registered
  places : o.edits.map (·.place) = o'.edits.map (·.place)
  same : SameIf E o o'

theorem Outcome.Alike.mono {E F : Prop} {o o' : Outcome} (h : o.Alike E o') (hF : F → E) :
    o.Alike F o' :=
  ⟨h.replaced, h.restReplaced, h.registered, h.places, fun f => h.same (hF f)⟩

theorem map_eq_of_forall₂ {α β : Type} {R : α → α → Prop} {f : α → β} {xs ys : List α}
    (h : List.Forall₂ R xs ys) (hf : ∀ a a', R a a' → f a = f a') : xs.map f = ys.map f := by
  induction h with
  | nil => rfl
  | cons hr _ ih => rw [List.map_cons, List.map_cons, hf _ _ hr, ih]

theorem Outcome.alike_ofReplacements {E : Prop} {rs rs' : List Replacement} (anchor : Nat)
    (h : List.Forall₂ (Replacement.Alike E) rs rs') :
    (Outcome.ofReplacements anchor rs).Alike E (.ofReplacements anchor rs') := by
  have hpositions := map_eq_of_forall₂ h fun _ _ hr => hr.position
  have hregistered := map_eq_of_forall₂ h fun _ _ hr => hr.registered
  have hplaces := map_eq_of_forall₂ h fun _ _ hr => hr.removal.place
  have hedits : ∀ rs : List Replacement, (rs.flatMap (·.edits anchor)).map (·.place) =
      (rs.map (·.removal.place)).flatMap fun p => [(anchor, anchor, .prologue), p] := by
    intro rs
    rw [List.map_flatMap, List.flatMap_map]
    rfl
  refine ⟨?_, ?_, ?_, ?_, fun hE => ?_⟩
  · have hindices := congrArg (·.filterMap (·.index?)) hpositions
    simp only [List.filterMap_map] at hindices
    exact hindices
  · have hrest := congrArg (·.any (· == .rest)) hpositions
    simp only [List.any_map] at hrest
    exact hrest
  · have hnames := congrArg List.flatten hregistered
    simp only [← List.flatMap_def] at hnames
    exact hnames
  · show (rs.flatMap (·.edits anchor)).map (·.place) = (rs'.flatMap (·.edits anchor)).map (·.place)
    rw [hedits, hedits, hplaces]
  · have hsame := map_eq_of_forall₂ h fun _ _ hr => hr.same hE
    rw [List.map_id', List.map_id'] at hsame
    rw [hsame]

namespace Lower

variable {α β : Type} {E : Prop} {Q : Prop → α → α → Prop} {P : Prop → β → β → Prop}

/-- Two states of passes with the same scopes and the same warnings. -/
structure Alike (a b : PassState Unit) : Prop where
  frame : a.scopes.SameFrame b.scopes
  warnings : a.warnings = b.warnings

/-- Two steps of passes stay in step. -/
def Paired (Q : Prop → α → α → Prop) (E : Prop) (m m' : Lower Unit α) : Prop :=
  SideBySide (fun st => st.names.drawn) (fun _ => Alike) Q E m m'

theorem paired_pure {a a' : α} (h : Q E a a') : Paired Q E (pure a : Lower Unit α) (pure a') :=
  sideBySide_pure h

theorem paired_seq {m m' : Lower Unit α} {f f' : α → Lower Unit β} (hm : Paired Q E m m')
    (hf : ∀ (F : Prop) a a', (F → E) → Q F a a' → Paired P F (f a) (f' a')) :
    Paired P E (m >>= f) (m' >>= f') := sideBySide_bind hm hf

theorem register_paired (hoist : ScopeId) (origin : Span) (position : Position) (name : String) :
    Paired SameIf E (register hoist origin position name) (register hoist origin position name) :=
  sideBySide_modify (fun st => st.names.drawn_add name) (fun st => st.names.drawn_add name)
    fun _ _ h => ⟨h.frame.declare _ _ _ _ _, h.warnings⟩

theorem registerAll_paired (hoist : ScopeId) (origin : Span) (position : Position)
    (names : List String) : Paired SameIf E (registerAll hoist origin position names)
      (registerAll hoist origin position names) := by
  induction names generalizing E with
  | nil => exact paired_pure fun _ => rfl
  | cons name names ih =>
    exact paired_seq (register_paired hoist origin position name) fun _ _ _ _ _ => ih

theorem warn_paired (line : Nat) (kind : WarningKind) :
    Paired SameIf E (warn line kind) (warn line kind) :=
  sideBySide_modify (fun _ => rfl) (fun _ => rfl) fun _ _ h => ⟨h.frame, by rw [h.warnings]⟩

theorem ofExcept_paired {x : Except LoweringError α} :
    Paired (fun _ => Eq) E (MonadExcept.ofExcept x) (MonadExcept.ofExcept x) := by
  refine sideBySide_ofExcept ?_
  cases x with
  | ok a => exact .ok rfl
  | error e => exact .error e

variable (source : List Char) (options : LoweringOptions) (stem : String)

theorem extract_paired (pattern : Pattern) (value : SourceExpr) :
    Paired Extraction.Alike E
      (Lower.extract (Run.passContext options source) pattern value)
      (Lower.extract (Run.passContext { options with stem } source) pattern value) := by
  refine sideBySide_get_bind fun st st' h => ?_
  have hleaves : ∀ {stem : String} {names : NameSet} {s : ExtractionState},
      Succeeds (ExtractionContext.extract ⟨source, stem⟩ pattern value) { names } () s →
        s.out.leafNames = pattern.leaves := fun hs =>
    (ExtractionContext.extract_fills _ pattern value _ _ _ (Extraction.simple_bindings []) hs).2
  obtain ⟨ds, ds', hstep⟩ := ExtractionContext.extract_paired (E := E) source options.stem stem
    pattern value { names := st.names } { names := st'.names }
    ⟨Extraction.simple_bindings [], Extraction.simple_bindings [], fun _ => rfl⟩
  refine ⟨ds, ds', ?_⟩
  -- both extractions run with the names of their passes
  simp only [Run.passContext, ExtractionContext.extractor]
  rcases hr : (ExtractionContext.extract ⟨source, options.stem⟩ pattern value).run.run
    { names := st.names } with ⟨r, s⟩
  rcases hr' : (ExtractionContext.extract ⟨source, stem⟩ pattern value).run.run
    { names := st'.names } with ⟨r', s'⟩
  rw [hr, hr'] at hstep
  have hanswers : Answers (SameIf (E ∧ ds = ds')) r r' := hstep.answers
  cases hanswers with
  | ok =>
    exact ⟨hstep.length, hstep.drawn, hstep.drawn', ⟨h.frame, h.warnings⟩, .ok
      ⟨hstep.states.simple, hstep.states.simple', by rw [hleaves hr, hleaves hr'],
        hstep.states.same⟩⟩
  | error e => exact ⟨hstep.length, hstep.drawn, hstep.drawn', ⟨h.frame, h.warnings⟩, .error e⟩

theorem placeholder_paired (hoist : ScopeId) (origin : Span) (index : Nat) :
    Paired SameIf E (placeholder (Run.passContext options source) hoist origin index)
      (placeholder (Run.passContext { options with stem } source) hoist origin index) := by
  have hrun : ∀ (stem : String) (st : PassState Unit),
      Succeeds (placeholder (Run.passContext { options with stem } source) hoist origin index) st
        (st.names.fresh stem).1 { st with
          names := (st.names.fresh stem).2
          scopes := (st.scopes.declare hoist (st.names.fresh stem).1
            ⟨.param, origin, some (.index index)⟩).2 } := fun _ _ => rfl
  intro st st' h
  exact ⟨[(st.names.fresh options.stem).1], [(st'.names.fresh stem).1],
    inStep_of_succeeds (hrun options.stem st) (hrun stem st') rfl (NameSet.drawn_fresh _ _)
      (NameSet.drawn_fresh _ _) ⟨h.frame.declare _ _ _ _ _, h.warnings⟩
      fun hE => (List.cons.inj hE.2).1⟩

theorem declaration_paired {x x' : Extraction} (h : x.Alike E x') (indent : String)
    (cleanup : Bool) : Paired SameIf E (MonadExcept.ofExcept (x.declaration indent cleanup))
      (MonadExcept.ofExcept (x'.declaration indent cleanup)) := by
  rw [Extraction.declaration_eq h.simple, Extraction.declaration_eq h.simple']
  exact sideBySide_ofExcept (.ok fun hE => by rw [h.same hE])

variable (s : Subject)

theorem destructuredRemoval_paired (index : Nat) (param : Param) : Paired Edit.Alike E
    (destructuredRemoval (Run.passContext options source) s index param)
    (destructuredRemoval (Run.passContext { options with stem } source) s index param) := by
  rw [destructuredRemoval, destructuredRemoval]
  split
  · exact paired_seq (placeholder_paired source options stem s.hoist param.span index)
      fun F name name' _ hname => paired_pure ⟨rfl, fun hF => by rw [hname hF]⟩
  · exact paired_pure ⟨rfl, fun _ => rfl⟩

theorem destructured_paired (index : Nat) (param : Param) : Paired Replacement.Alike E
    (destructured (Run.passContext options source) s index param)
    (destructured (Run.passContext { options with stem } source) s index param) := by
  refine paired_seq (extract_paired source options stem _ _) fun F x x' _ hx => ?_
  refine paired_seq (declaration_paired hx _ _) fun G text text' hG htext => ?_
  rw [hx.leafNames]
  refine paired_seq (registerAll_paired _ _ _ _) fun H _ _ hH _ => ?_
  refine paired_seq (destructuredRemoval_paired source options stem s index param)
    fun I edit edit' hI hedit => ?_
  refine paired_pure ⟨rfl, rfl, hedit, fun h => ?_⟩
  rw [htext (hH (hI h)), hedit.same h]

theorem destructuredFrom_paired (index : Nat) (params : List Param) :
    Paired (fun F => List.Forall₂ (Replacement.Alike F)) E
      (destructuredFrom (Run.passContext options source) s index params)
      (destructuredFrom (Run.passContext { options with stem } source) s index params) := by
  induction params generalizing E index with
  | nil => exact paired_pure .nil
  | cons param params ih =>
    rw [destructuredFrom, destructuredFrom]
    split
    · refine paired_seq (destructured_paired source options stem s index param)
        fun F r r' _ hr => ?_
      refine paired_seq (ih (index + 1)) fun G rs rs' hG hrs => ?_
      exact paired_pure (.cons (hr.mono hG) hrs)
    · exact ih (index + 1)

theorem defaultedPrologue_paired (index : Nat) (param : Param) (default : DefaultValue) :
    Paired (fun F a a' => a.2 = a'.2 ∧ SameIf F a a') E
      (defaultedPrologue (Run.passContext options source) s index param default)
      (defaultedPrologue (Run.passContext { options with stem } source) s index param default) := by
  refine paired_seq ofExcept_paired fun F text _ _ htext => ?_
  subst htext
  have hpattern : Paired (fun F a a' => a.2 = a'.2 ∧ SameIf F a a') F (do
      let x ← Lower.extract (Run.passContext options source) param.pattern
        (.defaultedArgument index text)
      registerAll s.hoist default.span (.index index) x.leafNames
      let prologue ← MonadExcept.ofExcept (x.declaration s.layout.indent options.cleanup)
      return (prologue, x.leafNames)) (do
      let x ← Lower.extract (Run.passContext { options with stem } source) param.pattern
        (.defaultedArgument index text)
      registerAll s.hoist default.span (.index index) x.leafNames
      let prologue ← MonadExcept.ofExcept (x.declaration s.layout.indent options.cleanup)
      return (prologue, x.leafNames)) := by
    refine paired_seq (extract_paired source options stem _ _) fun G x x' _ hx => ?_
    rw [hx.leafNames]
    refine paired_seq (registerAll_paired _ _ _ _) fun H _ _ hH _ => ?_
    refine paired_seq (declaration_paired ⟨hx.simple, hx.simple', hx.leafNames,
      fun h => hx.same (hH h)⟩ _ _) fun I prologue prologue' _ hprologue => ?_
    exact paired_pure ⟨rfl, fun h => by rw [hprologue h]⟩
  obtain ⟨pattern, span⟩ := param
  cases pattern with
  | object => exact hpattern
  | array => exact hpattern
  | ident name nameSpan =>
    have hname : ∀ {G : Prop}, Paired (fun F a a' => a.2 = a'.2 ∧ SameIf F a a') G (do
        register s.hoist default.span (.index index) name
        return (guardedName name index text s.layout.indent, [name])) (do
        register s.hoist default.span (.index index) name
        return (guardedName name index text s.layout.indent, [name])) :=
      paired_seq (register_paired _ _ _ _) fun _ _ _ _ _ => paired_pure ⟨rfl, fun _ => rfl⟩
    by_cases hself : default.ident = some name
    · simp only [hself, ↓reduceIte]
      exact paired_seq (warn_paired _ _) fun _ _ _ _ _ => hname
    · simp only [hself, ↓reduceIte]
      exact hname

theorem defaulted_paired (index : Nat) (param : Param) (default : DefaultValue)
    (previousDefault : Option Nat) : Paired Replacement.Alike E
    (defaulted (Run.passContext options source) s index param default previousDefault)
    (defaulted (Run.passContext { options with stem } source) s index param default
      previousDefault) := by
  refine paired_seq (defaultedPrologue_paired source options stem s index param default)
    fun F a a' _ ha => ?_
  refine paired_pure ⟨rfl, ha.1, ⟨rfl, fun _ => rfl⟩, fun h => ?_⟩
  rw [ha.2 h]

theorem defaultedFrom_paired (index : Nat) (previousDefault : Option Nat)
    (ds : List (Param × DefaultValue)) : Paired (fun F => List.Forall₂ (Replacement.Alike F)) E
      (defaultedFrom (Run.passContext options source) s index previousDefault ds)
      (defaultedFrom (Run.passContext { options with stem } source) s index previousDefault ds) := by
  induction ds generalizing E index previousDefault with
  | nil => exact paired_pure .nil
  | cons d ds ih =>
    refine paired_seq (defaulted_paired source options stem s index d.1 d.2 previousDefault)
      fun F r r' _ hr => ?_
    refine paired_seq (ih (index + 1) (some d.2.span.stop)) fun G rs rs' hG hrs => ?_
    exact paired_pure (.cons (hr.mono hG) hrs)

theorem restReplacement_paired : Paired (fun F => List.Forall₂ (Replacement.Alike F)) E
    (restReplacement s) (restReplacement s) := by
  rw [restReplacement]
  cases s.function.rest with
  | none => exact paired_pure .nil
  | some rest =>
    refine paired_seq (register_paired _ _ _ _) fun _ _ _ _ _ => ?_
    exact paired_pure (.cons ⟨rfl, rfl, ⟨rfl, fun _ => rfl⟩, fun _ => rfl⟩ .nil)

theorem replacements_paired : Paired (fun F => List.Forall₂ (Replacement.Alike F)) E
    (replacements (Run.passContext options source) s)
    (replacements (Run.passContext { options with stem } source) s) := by
  have hmono : ∀ {F G : Prop} {rs rs' : List Replacement}, (G → F) →
      List.Forall₂ (Replacement.Alike F) rs rs' → List.Forall₂ (Replacement.Alike G) rs rs' :=
    fun hG h => h.imp fun _ _ hr => hr.mono hG
  refine paired_seq (destructuredFrom_paired source options stem s _ _) fun F first first' _ h₁ => ?_
  refine paired_seq (defaultedFrom_paired source options stem s _ _ _)
    fun G second second' hG h₂ => ?_
  refine paired_seq (restReplacement_paired s) fun H third third' hH h₃ => ?_
  exact paired_pure (List.rel_append (List.rel_append (hmono (fun h => hG (hH h)) h₁) (hmono hH h₂))
    h₃)

end Lower

/-- Two passes over a function stay in step. -/
theorem lowerFunction_paired (source : List Char) (options : LoweringOptions) (stem : String)
    (f : FunctionNode) {E : Prop} : Lower.Paired Outcome.Alike E
    (lowerFunction (Run.passContext options source) f)
    (lowerFunction (Run.passContext { options with stem } source) f) := by
  refine Lower.paired_seq Lower.ofExcept_paired fun F layout _ _ hlayout => ?_
  subst hlayout
  split
  · exact Lower.paired_pure ⟨rfl, rfl, rfl, rfl, fun _ => rfl⟩
  have hpass : ∀ hoist : ScopeId, Lower.Paired Outcome.Alike F
      (do
        let rs ← Lower.replacements (Run.passContext options source) ⟨f, layout, hoist⟩
        return Outcome.ofReplacements layout.anchor rs)
      (do
        let rs ← Lower.replacements (Run.passContext { options with stem } source) ⟨f, layout, hoist⟩
        return Outcome.ofReplacements layout.anchor rs) := fun hoist =>
    Lower.paired_seq (Lower.replacements_paired source options stem ⟨f, layout, hoist⟩)
      fun G rs rs' _ hrs => Lower.paired_pure (Outcome.alike_ofReplacements layout.anchor hrs)
  refine sideBySide_get_bind fun st st' h => ?_
  rw [← h.frame.scopeOf? f.id]
  cases st.scopes.scopeOf? f.id with
  | none => exact sideBySide_throw _ st st' h
  | some scope =>
    simp only [← h.frame.closestHoist scope]
    exact hpass (st.scopes.closestHoist scope) st st' h

/-! ### Series of passes -/

namespace Lower

/-- Passes over functions in turn, each with its answer and the state behind it. A pass that fails
does not keep the next one from running. -/
def eachPass {σ : Type} (cx : PassContext σ) :
    List FunctionNode → PassState σ → List (Except LoweringError Outcome × PassState σ)
  | [], _ => []
  | f :: fs, st =>
    (lowerFunction cx f).run.run st :: eachPass cx fs ((lowerFunction cx f).run.run st).2

variable (source : List Char) (options : LoweringOptions) (stem : String)

theorem eachPass_inStep (fs : List FunctionNode) {E : Prop} {st st' : PassState Unit}
    (h : Alike st st') : ∃ ds ds', ds.length = ds'.length ∧
      (passes (Run.passContext options source) fs st).names.drawn = ds ++ st.names.drawn ∧
      (passes (Run.passContext { options with stem } source) fs st').names.drawn =
        ds' ++ st'.names.drawn ∧
      List.Forall₂ (fun r r' => Answers (Outcome.Alike (E ∧ ds = ds')) r.1 r'.1 ∧ Alike r.2 r'.2)
        (eachPass (Run.passContext options source) fs st)
        (eachPass (Run.passContext { options with stem } source) fs st') := by
  induction fs generalizing E st st' with
  | nil => exact ⟨[], [], rfl, rfl, rfl, .nil⟩
  | cons f fs ih =>
    obtain ⟨ds, ds', hfirst⟩ := lowerFunction_paired source options stem f (E := E) st st' h
    obtain ⟨es, es', hlength, hdrawn, hdrawn', hmore⟩ := ih (E := E ∧ ds = ds') hfirst.states
    -- the names that the first pass draws are the last of all
    have hall : (E ∧ es ++ ds = es' ++ ds') → (E ∧ ds = ds') ∧ es = es' := by
      rintro ⟨hE, heq⟩
      obtain ⟨hes, hds⟩ := List.append_inj heq hlength
      exact ⟨⟨hE, hds⟩, hes⟩
    refine ⟨es ++ ds, es' ++ ds', ?_, ?_, ?_, .cons ⟨?_, hfirst.states⟩ ?_⟩
    · rw [List.length_append, List.length_append, hlength, hfirst.length]
    · rw [List.append_assoc, ← hfirst.drawn]
      exact hdrawn
    · rw [List.append_assoc, ← hfirst.drawn']
      exact hdrawn'
    · exact hfirst.answers.mono fun _ _ ho => ho.mono fun hE => (hall hE).1
    · exact hmore.imp fun _ _ hr => ⟨hr.1.mono fun _ _ ho => ho.mono hall, hr.2⟩

/-- Passes over the same functions, with different names taken and different stems: function by
function they have the same error or outcomes with the same replacements, the same names registered
and edits at the same places, and raise the same warnings. If both draw the same names, the outcomes
are the same altogether. -/
theorem passes_independent_of_names (fs : List FunctionNode) (scopes : ScopeRegistry)
    (warnings : List Warning) (names names' : NameSet) :
    ∃ ds ds', ds.length = ds'.length ∧
      (passes (Run.passContext options source) fs ⟨scopes, names, warnings, ()⟩).names.drawn =
        ds ++ names.drawn ∧
      (passes (Run.passContext { options with stem } source) fs
        ⟨scopes, names', warnings, ()⟩).names.drawn = ds' ++ names'.drawn ∧
      List.Forall₂ (fun r r' => Answers (Outcome.Alike (ds = ds')) r.1 r'.1 ∧
          r.2.warnings = r'.2.warnings)
        (eachPass (Run.passContext options source) fs ⟨scopes, names, warnings, ()⟩)
        (eachPass (Run.passContext { options with stem } source) fs
          ⟨scopes, names', warnings, ()⟩) := by
  have hstart : Alike (⟨scopes, names, warnings, ()⟩ : PassState Unit)
    ⟨scopes, names', warnings, ()⟩ := ⟨⟨rfl, rfl⟩, rfl⟩
  obtain ⟨ds, ds', hlength, hdrawn, hdrawn', hall⟩ :=
    eachPass_inStep source options stem fs (E := True) hstart
  rw [true_and] at hall
  exact ⟨ds, ds', hlength, hdrawn, hdrawn', hall.imp fun _ _ hr => ⟨hr.1, hr.2.warnings⟩⟩

end Lower

end ParamLowering
