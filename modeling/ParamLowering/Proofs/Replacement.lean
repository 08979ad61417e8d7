import ParamLowering.Proofs.NameGrowth
import ParamLowering.Proofs.ParameterList
set_option autoImplicit false

/-!
What a successful pass makes of each list element: the statement that declares its names, and
what happens to its text.
-/

namespace ParamLowering

variable {σ : Type}

/-- A list element that is replaced, with its place among the positional parameters. -/
inductive Replaced where
  | pattern (index : Nat) (param : Param)
  | defaulted (index : Nat) (param : Param) (default : DefaultValue)
  | rest (param : RestParam)

namespace Replaced

def patternsFrom : Nat → List Param → List Replaced
  | _, [] => []
  | i, p :: ps =>
    if p.pattern.isDestructuring then .pattern i p :: patternsFrom (i + 1) ps
    else patternsFrom (i + 1) ps

def defaultsFrom : Nat → List (Param × DefaultValue) → List Replaced
  | _, [] => []
  | i, (p, d) :: ds => .defaulted i p d :: defaultsFrom (i + 1) ds

end Replaced

/-- The elements of a list that are replaced, in order. -/
def FunctionNode.replaced (f : FunctionNode) : List Replaced :=
  Replaced.patternsFrom 0 f.plain ++ Replaced.defaultsFrom f.plain.length f.defaulted ++
    (f.rest.map .rest).toList

/-- The text declares what the extractor makes of a pattern, with at least the known names
taken. -/
def Extracts (cx : PassContext σ) (indent : String) (known : NameSet) (pattern : Pattern)
    (source : SourceExpr) (text : String) : Prop :=
  ∃ names state x names' state', known.taken ⊆ names.taken ∧
    cx.extractor.run pattern source names state = (.ok x, names', state') ∧
    x.declaration indent cx.options.cleanup = .ok text

/-- The statement for a name with a default. -/
def guardedName (name : String) (index : Nat) (value indent : String) : String :=
  s!"var {name} = {argumentRead index}; if ({name} === void 0) {name} = {value};{indent}"

/-- The text is the statement for a replaced element, one of `count` parameters. -/
def Declares (cx : PassContext σ) (count : Nat) (indent : String) (known : NameSet) :
    Replaced → String → Prop
  | .pattern i p, text => Extracts cx indent known p.pattern (.argument i) text
  | .defaulted i p d, text => ∃ value, d.span.text? cx.source = some value ∧
    match p.pattern with
    | .ident name _ => text = guardedName name i (String.ofList value) indent
    | .object .. | .array .. =>
      Extracts cx indent known p.pattern (.defaultedArgument i (String.ofList value)) text
  | .rest r, text => text = s!"var {r.name} = [].slice.call(arguments, {count});{indent}"

theorem Declares.mono {cx : PassContext σ} {count : Nat} {indent : String} {known known' : NameSet}
    {el : Replaced} {text : String} (h : Declares cx count indent known' el text)
    (hsub : known.taken ⊆ known'.taken) : Declares cx count indent known el text := by
  have hextracts : ∀ {pattern source}, Extracts cx indent known' pattern source text →
      Extracts cx indent known pattern source text := by
    rintro pattern source ⟨names, state, x, names', state', hnames, hrun⟩
    exact ⟨names, state, x, names', state', List.Subset.trans hsub hnames, hrun⟩
  cases el with
  | pattern i p => exact hextracts h
  | defaulted i p d =>
    obtain ⟨value, hvalue, h⟩ := h
    refine ⟨value, hvalue, ?_⟩
    split at h
    · exact h
    · exact hextracts h
    · exact hextracts h
  | rest r => exact h

/-- Names in the place of patterns. -/
def Edit.renames (slots : List (Param × String)) : List Edit :=
  slots.map fun slot => .replace slot.1.span slot.2 .removal

/-- Removals one after another, each from the end of the element before it. -/
def Subject.removesFrom (s : Subject) : Option Nat → List Span → List Edit
  | _, [] => []
  | before, e :: es => s.remove (before.getD e.start) e.stop :: s.removesFrom (some e.stop) es

theorem Subject.removesFrom_append (s : Subject) (before : Option Nat) (xs ys : List Span) :
    s.removesFrom before (xs ++ ys) = s.removesFrom before xs ++
      s.removesFrom ((xs.getLast?.map (·.stop)).or before) ys := by
  induction xs generalizing before with
  | nil => rfl
  | cons x xs ih =>
    simp only [List.cons_append, removesFrom, ih]
    cases xs <;> simp [List.getLast?_cons]

/-! ### Slots -/

/-- A property of list members and their places, counted from `index`. -/
def AllFrom {α : Type} (P : Nat → α → Prop) : Nat → List α → Prop
  | _, [] => True
  | index, x :: xs => P index x ∧ AllFrom P (index + 1) xs

theorem allFrom_of_getElem? {α : Type} {P : Nat → α → Prop} {index : Nat} {xs : List α}
    (h : ∀ j x, xs[j]? = some x → P (index + j) x) : AllFrom P index xs := by
  induction xs generalizing index with
  | nil => trivial
  | cons x xs ih =>
    refine ⟨h 0 x rfl, ih fun j y hj => ?_⟩
    have hy := h (j + 1) y (by simpa using hj)
    rwa [show index + (j + 1) = index + 1 + j by omega] at hy

theorem Subject.keepsSlot_of_kept {s : Subject}
    (hfirst : s.layout.firstDefault = s.function.params.length - s.function.defaults.length)
    {index : Nat} {p : Param} (hp : s.function.kept[index]? = some p)
    (hpattern : p.pattern.isDestructuring = true) : s.keepsSlot index = true := by
  obtain h | ⟨pre, last, h, hlast⟩ := s.function.kept_eq_nil_or
  · simp [h] at hp
  · have hindex : index < pre.length := by
      rw [h] at hp
      obtain ⟨hlt, hget⟩ := List.getElem?_eq_some_iff.1 hp
      rw [List.length_append, List.length_singleton] at hlt
      by_contra hge
      have heq : index = pre.length := by omega
      subst heq
      rw [List.getElem_concat_length rfl] at hget
      rw [hget, hpattern] at hlast
      cases hlast
    rw [keepsSlot, hfirst, ← FunctionNode.plain, ← FunctionNode.kept_append_dropped, h,
      List.append_assoc, List.drop_append_of_le_length hindex]
    simp [hlast]

theorem Subject.keepsSlot_of_dropped {s : Subject}
    (hfirst : s.layout.firstDefault = s.function.params.length - s.function.defaults.length)
    {index : Nat} (hindex : s.function.kept.length ≤ index) : s.keepsSlot index = false := by
  rw [keepsSlot, hfirst, ← FunctionNode.plain, ← FunctionNode.kept_append_dropped,
    List.drop_append, List.drop_eq_nil_of_le (by omega), List.nil_append]
  refine List.any_eq_false.2 fun p hp => ?_
  simp [FunctionNode.isDestructuring_of_mem_dropped (List.mem_of_mem_drop hp)]

section

variable {s : Subject} (hcount : s.function.defaults.length ≤ s.function.params.length)
  (hfirst : s.layout.firstDefault = s.function.params.length - s.function.defaults.length)

include hfirst

theorem Subject.allFrom_kept :
    AllFrom (fun i p => p.pattern.isDestructuring = true → s.keepsSlot i = true) 0
      s.function.kept := by
  refine allFrom_of_getElem? fun j p hj hp => ?_
  rw [Nat.zero_add]
  exact keepsSlot_of_kept hfirst hj hp

include hcount

theorem Subject.allFrom_dropped :
    AllFrom (fun i p => p.pattern.isDestructuring = true ∧ s.keepsSlot i = false ∧
      s.function.params[i]? = some p) s.function.kept.length s.function.dropped := by
  have hparams := FunctionNode.params_eq hcount
  rw [← FunctionNode.kept_append_dropped, List.append_assoc] at hparams
  refine allFrom_of_getElem? fun j p hj => ⟨?_, ?_, ?_⟩
  · exact FunctionNode.isDestructuring_of_mem_dropped (List.mem_of_getElem? hj)
  · exact keepsSlot_of_dropped hfirst (Nat.le_add_right _ j)
  · rw [hparams, List.getElem?_append_right (Nat.le_add_right _ _), Nat.add_sub_cancel_left,
      List.getElem?_append_left (List.getElem?_eq_some_iff.1 hj).1, hj]

omit hfirst

theorem Subject.allFrom_defaulted
    (hstops : ∀ d ∈ s.function.defaulted, d.1.span.stop ≤ d.2.span.stop) :
    AllFrom (fun i d => d.1.span.stop ≤ d.2.span.stop ∧ s.function.params[i]? = some d.1)
      s.function.plain.length s.function.defaulted := by
  refine allFrom_of_getElem? fun j d hj => ⟨hstops d (List.mem_of_getElem? hj), ?_⟩
  rw [FunctionNode.params_eq hcount, List.getElem?_append_right (Nat.le_add_right _ _),
    Nat.add_sub_cancel_left, List.getElem?_map, hj]
  rfl

end

/-- The element before a parameter is the last of those before it, or else `this`. -/
theorem Subject.previousEnd_length {s : Subject} {ps qs : List Param}
    (h : s.function.params = ps ++ qs) : s.previousEnd ps.length =
      (ps.getLast?.map (·.span.stop)).or (s.function.thisParam.map (·.stop)) := by
  rcases List.eq_nil_or_concat ps with rfl | ⟨pre, last, rfl⟩
  · rfl
  · rw [List.concat_eq_append] at h ⊢
    rw [List.length_append, List.length_singleton, previousEnd, h, List.append_assoc,
      List.getElem?_append_right (Nat.le_refl _), Nat.sub_self]
    simp

theorem Subject.previousEnd_succ {s : Subject} {index : Nat} {p : Param}
    (h : s.function.params[index]? = some p) : s.previousEnd (index + 1) = some p.span.stop := by
  rw [previousEnd, h]
  rfl

theorem Subject.previousEnd_kept {s : Subject}
    (hcount : s.function.defaults.length ≤ s.function.params.length) :
    s.previousEnd s.function.kept.length = s.function.keptEnd? := by
  have hparams := FunctionNode.params_eq hcount
  rw [← FunctionNode.kept_append_dropped, List.append_assoc] at hparams
  exact previousEnd_length hparams

theorem Subject.previousEnd_plain {s : Subject}
    (hcount : s.function.defaults.length ≤ s.function.params.length) :
    s.previousEnd s.function.plain.length =
      ((s.function.dropped.map (·.span)).getLast?.map (·.stop)).or s.function.keptEnd? := by
  rw [previousEnd_length (FunctionNode.params_eq hcount), FunctionNode.keptEnd?,
    ← Option.or_assoc, ← FunctionNode.kept_append_dropped, List.getLast?_append, List.getLast?_map,
    Option.map_or, Option.map_map]
  rfl

/-- The element before the rest parameter is the last default, or else the last parameter. -/
theorem Subject.end_before_rest {s : Subject}
    (hcount : s.function.defaults.length ≤ s.function.params.length) :
    (s.function.defaults.getLast?.map (·.span.stop)).or
        ((s.function.params.getLast?.map (·.span.stop)).or (s.function.thisParam.map (·.stop))) =
      ((s.function.defaulted.map fun d => (⟨d.1.span.start, d.2.span.stop⟩ : Span)).getLast?.map
        (·.stop)).or (s.previousEnd s.function.plain.length) := by
  have hparams := FunctionNode.params_eq hcount
  have hdefaults := FunctionNode.map_snd_defaulted hcount
  rw [previousEnd_length hparams]
  cases hlast : s.function.defaulted.getLast? with
  | none =>
    have hnil : s.function.defaulted = [] := List.getLast?_eq_none_iff.1 hlast
    rw [hnil, List.map_nil] at hdefaults
    rw [hnil, List.map_nil, List.append_nil] at hparams
    rw [hnil, ← hdefaults, hparams]
    rfl
  | some d =>
    rw [← hdefaults, List.getLast?_map, List.getLast?_map, hlast]
    rfl

namespace Lower

variable {cx : PassContext σ} {s : Subject} {st st' : PassState σ}

/-! ### Steps -/

theorem extract_succeeds {pattern : Pattern} {source : SourceExpr} {x : Extraction}
    (h : Succeeds (Lower.extract cx pattern source) st x st') :
    cx.extractor.run pattern source st.names st.extractor = (.ok x, st'.names, st'.extractor) := by
  obtain ⟨a, st₁, hget, h⟩ := Succeeds.bind_iff.1 h
  obtain ⟨rfl, rfl⟩ := Succeeds.get_iff.1 hget
  obtain ⟨_, st₂, hset, h⟩ := Succeeds.bind_iff.1 h
  obtain rfl := Succeeds.set_iff.1 hset
  obtain ⟨hanswer, rfl⟩ := Succeeds.ofExcept_iff.1 h
  rw [← hanswer]

theorem placeholder_succeeds {hoist : ScopeId} {origin : Span} {index : Nat} {name : String}
    (h : Succeeds (placeholder cx hoist origin index) st name st') :
    NameSet.Drawn cx.options.stem st.names st'.names [name] := by
  obtain ⟨a, st₁, hget, h⟩ := Succeeds.bind_iff.1 h
  obtain ⟨rfl, rfl⟩ := Succeeds.get_iff.1 hget
  obtain ⟨_, st₂, hset, h⟩ := Succeeds.bind_iff.1 h
  obtain rfl := Succeeds.set_iff.1 hset
  obtain ⟨rfl, rfl⟩ := Succeeds.pure_iff.1 h
  exact .one st.names cx.options.stem

theorem extract_grows (hgrows : cx.extractor.Grows) {pattern : Pattern} {source : SourceExpr}
    {x : Extraction} (h : Succeeds (Lower.extract cx pattern source) st x st') :
    st.names.taken ⊆ st'.names.taken := by
  have hsub := hgrows pattern source st.names st.extractor
  rw [extract_succeeds h] at hsub
  exact hsub

theorem extracts_of_succeeds {pattern : Pattern} {source : SourceExpr} {x : Extraction}
    {indent text : String} (h : Succeeds (Lower.extract cx pattern source) st x st')
    (htext : x.declaration indent cx.options.cleanup = .ok text) :
    Extracts cx indent st.names pattern source text :=
  ⟨st.names, st.extractor, x, _, _, List.Subset.refl _, extract_succeeds h, htext⟩

/-- A pattern without a default: its statement, and a placeholder or a removal. -/
theorem destructured_succeeds {index : Nat} {param : Param} {r : Replacement}
    (h : Succeeds (destructured cx s index param) st r st') :
    Declares cx s.layout.paramCount s.layout.indent st.names (.pattern index param) r.prologue ∧
    (s.keepsSlot index = true → ∃ name, r.removal = .replace param.span name .removal ∧
      (cx.extractor.Grows → NameSet.Drawn cx.options.stem st.names st'.names [name])) ∧
    (s.keepsSlot index = false →
      r.removal = s.remove ((s.previousEnd index).getD param.span.start) param.span.stop ∧
      (cx.extractor.Grows → st.names.taken ⊆ st'.names.taken)) := by
  obtain ⟨x, st₁, hextract, h⟩ := Succeeds.bind_iff.1 h
  obtain ⟨prologue, st₂, hprologue, h⟩ := Succeeds.bind_iff.1 h
  obtain ⟨hdeclaration, rfl⟩ := Succeeds.ofExcept_iff.1 hprologue
  obtain ⟨_, st₃, hregister, h⟩ := Succeeds.bind_iff.1 h
  obtain ⟨removal, st₄, hremoval, h⟩ := Succeeds.bind_iff.1 h
  obtain ⟨rfl, rfl⟩ := Succeeds.pure_iff.1 h
  have hsub : st₁.names.taken ⊆ st₃.names.taken := (registerAll_grows _ _ _ _).of_succeeds hregister
  refine ⟨extracts_of_succeeds hextract hdeclaration, ?_, ?_⟩
  · intro hslot
    rw [destructuredRemoval, if_pos hslot] at hremoval
    obtain ⟨name, st₅, hname, hremoval⟩ := Succeeds.bind_iff.1 hremoval
    obtain ⟨rfl, rfl⟩ := Succeeds.pure_iff.1 hremoval
    refine ⟨name, rfl, fun hgrows => ?_⟩
    exact (NameSet.Drawn.none (List.Subset.trans (extract_grows hgrows hextract) hsub)).append
      (placeholder_succeeds hname)
  · intro hslot
    rw [destructuredRemoval, if_neg (by simp [hslot])] at hremoval
    obtain ⟨rfl, rfl⟩ := Succeeds.pure_iff.1 hremoval
    exact ⟨rfl, fun hgrows => List.Subset.trans (extract_grows hgrows hextract) hsub⟩

theorem textOrError_eq_ok {range : Span} {source : List Char} {text : String}
    (h : range.textOrError source = .ok text) :
    ∃ value, range.text? source = some value ∧ text = String.ofList value := by
  unfold Span.textOrError at h
  split at h
  · rename_i value hvalue
    exact ⟨value, hvalue, (Except.ok.inj h).symm⟩
  · cases h

theorem defaultedPrologue_succeeds {index : Nat} {param : Param} {default : DefaultValue}
    {answer : String × List String}
    (h : Succeeds (defaultedPrologue cx s index param default) st answer st') :
    Declares cx s.layout.paramCount s.layout.indent st.names (.defaulted index param default)
      answer.1 ∧ (cx.extractor.Grows → st.names.taken ⊆ st'.names.taken) := by
  obtain ⟨text, st₁, htext, h⟩ := Succeeds.bind_iff.1 h
  obtain ⟨hvalue, rfl⟩ := Succeeds.ofExcept_iff.1 htext
  obtain ⟨value, hslice, rfl⟩ := textOrError_eq_ok hvalue
  -- what both kinds of patterns have in common
  have hpattern : ∀ {u v : PassState σ} {x : Extraction} {prologue : String},
      Succeeds (Lower.extract cx param.pattern (.defaultedArgument index (String.ofList value)))
        st x u →
      Succeeds (registerAll s.hoist default.span (.index index) x.leafNames) u () v →
      x.declaration s.layout.indent cx.options.cleanup = .ok prologue →
      Extracts cx s.layout.indent st.names param.pattern
          (.defaultedArgument index (String.ofList value)) prologue ∧
        (cx.extractor.Grows → st.names.taken ⊆ v.names.taken) :=
    fun hextract hregister hdeclaration => ⟨extracts_of_succeeds hextract hdeclaration,
      fun hgrows => List.Subset.trans (extract_grows hgrows hextract)
        ((registerAll_grows _ _ _ _).of_succeeds hregister)⟩
  obtain ⟨pattern, span⟩ := param
  cases pattern with
  | ident name nameSpan =>
    obtain ⟨u, hu, h⟩ : ∃ u, st.names.taken ⊆ u.names.taken ∧ Succeeds (do
        register s.hoist default.span (.index index) name
        return (guardedName name index (String.ofList value) s.layout.indent, [name]))
        u answer st' := by
      by_cases hself : default.ident = some name
      · simp only [hself, ↓reduceIte] at h
        obtain ⟨_, u, hwarn, h⟩ := Succeeds.bind_iff.1 h
        exact ⟨u, (warn_grows _ _).of_succeeds hwarn, h⟩
      · simp only [hself, ↓reduceIte] at h
        exact ⟨st, List.Subset.refl _, h⟩
    obtain ⟨_, v, hregister, h⟩ := Succeeds.bind_iff.1 h
    obtain ⟨rfl, rfl⟩ := Succeeds.pure_iff.1 h
    exact ⟨⟨value, hslice, rfl⟩,
      fun _ => List.Subset.trans hu ((register_grows _ _ _ _).of_succeeds hregister)⟩
  | object objectSpan props =>
    obtain ⟨x, u, hextract, h⟩ := Succeeds.bind_iff.1 h
    obtain ⟨_, v, hregister, h⟩ := Succeeds.bind_iff.1 h
    obtain ⟨prologue, _, hprologue, h⟩ := Succeeds.bind_iff.1 h
    obtain ⟨hdeclaration, rfl⟩ := Succeeds.ofExcept_iff.1 hprologue
    obtain ⟨rfl, rfl⟩ := Succeeds.pure_iff.1 h
    obtain ⟨htext, hsub⟩ := hpattern hextract hregister hdeclaration
    exact ⟨⟨value, hslice, htext⟩, hsub⟩
  | array arraySpan elements rest =>
    obtain ⟨x, u, hextract, h⟩ := Succeeds.bind_iff.1 h
    obtain ⟨_, v, hregister, h⟩ := Succeeds.bind_iff.1 h
    obtain ⟨prologue, _, hprologue, h⟩ := Succeeds.bind_iff.1 h
    obtain ⟨hdeclaration, rfl⟩ := Succeeds.ofExcept_iff.1 hprologue
    obtain ⟨rfl, rfl⟩ := Succeeds.pure_iff.1 h
    obtain ⟨htext, hsub⟩ := hpattern hextract hregister hdeclaration
    exact ⟨⟨value, hslice, htext⟩, hsub⟩

theorem defaulted_succeeds {index : Nat} {param : Param} {default : DefaultValue}
    {previousDefault : Option Nat} {r : Replacement}
    (horder : ∀ a ∈ s.previousEnd index, ∀ b ∈ previousDefault, a ≤ b)
    (h : Succeeds (defaulted cx s index param default previousDefault) st r st') :
    Declares cx s.layout.paramCount s.layout.indent st.names (.defaulted index param default)
      r.prologue ∧
    r.removal = s.remove ((previousDefault.or (s.previousEnd index)).getD param.span.start)
      default.span.stop ∧
    (cx.extractor.Grows → st.names.taken ⊆ st'.names.taken) := by
  obtain ⟨answer, u, hprologue, h⟩ := Succeeds.bind_iff.1 h
  obtain ⟨rfl, rfl⟩ := Succeeds.pure_iff.1 h
  obtain ⟨hdeclares, hgrows⟩ := defaultedPrologue_succeeds hprologue
  refine ⟨hdeclares, ?_, hgrows⟩
  cases ha : s.previousEnd index with
  | none => cases previousDefault <;> rfl
  | some a =>
    cases hb : previousDefault with
    | none => rfl
    | some b =>
      have hab : a ≤ b := horder a ha b hb
      simp [Nat.max_eq_right hab]

/-! ### Lists of elements -/

theorem destructuredFrom_cons {index : Nat} {p : Param} {ps : List Param}
    (hp : p.pattern.isDestructuring = true) {rs : List Replacement}
    (h : Succeeds (destructuredFrom cx s index (p :: ps)) st rs st') :
    ∃ r u rest, Succeeds (destructured cx s index p) st r u ∧
      Succeeds (destructuredFrom cx s (index + 1) ps) u rest st' ∧ rs = r :: rest := by
  rw [destructuredFrom, if_pos hp] at h
  obtain ⟨r, u, hr, h⟩ := Succeeds.bind_iff.1 h
  obtain ⟨rest, v, hrest, h⟩ := Succeeds.bind_iff.1 h
  obtain ⟨rfl, rfl⟩ := Succeeds.pure_iff.1 h
  exact ⟨r, u, rest, hr, hrest, rfl⟩

theorem destructuredFrom_cons_of_name {index : Nat} {p : Param} {ps : List Param}
    (hp : p.pattern.isDestructuring = false) {rs : List Replacement}
    (h : Succeeds (destructuredFrom cx s index (p :: ps)) st rs st') :
    Succeeds (destructuredFrom cx s (index + 1) ps) st rs st' := by
  rw [destructuredFrom, if_neg (by simp [hp])] at h
  exact h

theorem destructuredFrom_append {index : Nat} {ps qs : List Param} {rs : List Replacement}
    (h : Succeeds (destructuredFrom cx s index (ps ++ qs)) st rs st') :
    ∃ xs u ys, Succeeds (destructuredFrom cx s index ps) st xs u ∧
      Succeeds (destructuredFrom cx s (index + ps.length) qs) u ys st' ∧ rs = xs ++ ys := by
  induction ps generalizing index st rs with
  | nil => exact ⟨[], st, rs, Succeeds.pure_iff.2 ⟨rfl, rfl⟩, h, rfl⟩
  | cons p ps ih =>
    have hindex : index + (p :: ps).length = index + 1 + ps.length := by
      rw [List.length_cons]; omega
    rw [hindex]
    cases hp : p.pattern.isDestructuring with
    | true =>
      obtain ⟨r, u, rest, hr, hrest, rfl⟩ := destructuredFrom_cons hp h
      obtain ⟨xs, v, ys, hxs, hys, rfl⟩ := ih hrest
      refine ⟨r :: xs, v, ys, ?_, hys, rfl⟩
      rw [destructuredFrom, if_pos hp]
      exact Succeeds.bind_iff.2 ⟨r, u, hr, Succeeds.bind_iff.2
        ⟨xs, v, hxs, Succeeds.pure_iff.2 ⟨rfl, rfl⟩⟩⟩
    | false =>
      obtain ⟨xs, v, ys, hxs, hys, rfl⟩ := ih (destructuredFrom_cons_of_name hp h)
      refine ⟨xs, v, ys, ?_, hys, rfl⟩
      rw [destructuredFrom, if_neg (by simp [hp])]
      exact hxs

/-- The statements of replaced elements, each with at least the names known at the start. -/
abbrev DeclareAll (cx : PassContext σ) (s : Subject) (known : NameSet) (els : List Replaced)
    (rs : List Replacement) : Prop :=
  List.Forall₂ (fun el r => Declares cx s.layout.paramCount s.layout.indent known el r.prologue)
    els rs

theorem DeclareAll.mono {known known' : NameSet} {els : List Replaced} {rs : List Replacement}
    (h : DeclareAll cx s known' els rs) (hsub : known.taken ⊆ known'.taken) :
    DeclareAll cx s known els rs :=
  h.imp fun _ _ hel => hel.mono hsub

theorem destructuredFrom_declares (hgrows : cx.extractor.Grows) {index : Nat} {ps : List Param}
    {rs : List Replacement} (h : Succeeds (destructuredFrom cx s index ps) st rs st') :
    DeclareAll cx s st.names (Replaced.patternsFrom index ps) rs ∧ NamesGrow st st' := by
  induction ps generalizing index st rs with
  | nil =>
    obtain ⟨rfl, rfl⟩ := Succeeds.pure_iff.1 h
    exact ⟨.nil, List.Subset.refl _⟩
  | cons p ps ih =>
    rw [Replaced.patternsFrom]
    cases hp : p.pattern.isDestructuring with
    | true =>
      obtain ⟨r, u, rest, hr, hrest, rfl⟩ := destructuredFrom_cons hp h
      obtain ⟨hdeclares, hslot, hgap⟩ := destructured_succeeds hr
      have hsub : NamesGrow st u := by
        cases hkeeps : s.keepsSlot index with
        | true =>
          obtain ⟨name, -, hdrawn⟩ := hslot hkeeps
          exact (hdrawn hgrows).subset
        | false => exact (hgap hkeeps).2 hgrows
      obtain ⟨hall, hmore⟩ := ih hrest
      exact ⟨.cons hdeclares (hall.mono hsub), List.Subset.trans hsub hmore⟩
    | false => exact ih (destructuredFrom_cons_of_name hp h)

/-- Patterns whose slots have to stay are replaced by names. -/
theorem destructuredFrom_placeholders {index : Nat} {ps : List Param}
    (hslots : AllFrom (fun i p => p.pattern.isDestructuring = true → s.keepsSlot i = true) index ps)
    {rs : List Replacement} (h : Succeeds (destructuredFrom cx s index ps) st rs st') :
    ∃ names, names.length = (ps.filter (·.pattern.isDestructuring)).length ∧
      rs.map (·.removal) = Edit.renames ((ps.filter (·.pattern.isDestructuring)).zip names) ∧
      (cx.extractor.Grows → NameSet.Drawn cx.options.stem st.names st'.names names) := by
  induction ps generalizing index st rs with
  | nil =>
    obtain ⟨rfl, rfl⟩ := Succeeds.pure_iff.1 h
    exact ⟨[], rfl, rfl, fun _ => .none (List.Subset.refl _)⟩
  | cons p ps ih =>
    obtain ⟨hslot, hslots⟩ := hslots
    cases hp : p.pattern.isDestructuring with
    | true =>
      obtain ⟨r, u, rest, hr, hrest, rfl⟩ := destructuredFrom_cons hp h
      obtain ⟨name, hremoval, hdrawn⟩ := (destructured_succeeds hr).2.1 (hslot hp)
      obtain ⟨names, hlength, hremovals, hmore⟩ := ih hslots hrest
      refine ⟨name :: names, ?_, ?_, fun hgrows => (hdrawn hgrows).append (hmore hgrows)⟩
      · simp [hp, hlength]
      · rw [List.map_cons, hremoval, hremovals, List.filter_cons_of_pos (by simp [hp])]
        rfl
    | false =>
      obtain ⟨names, hlength, hremovals, hmore⟩ := ih hslots (destructuredFrom_cons_of_name hp h)
      refine ⟨names, ?_, ?_, hmore⟩
      · simp [hp, hlength]
      · simp [hp, hremovals]

/-- Patterns whose slots may go are removed one after another. -/
theorem destructuredFrom_removals {index : Nat} {ps : List Param}
    (hps : AllFrom (fun i p => p.pattern.isDestructuring = true ∧ s.keepsSlot i = false ∧
      s.function.params[i]? = some p) index ps)
    {rs : List Replacement} (h : Succeeds (destructuredFrom cx s index ps) st rs st') :
    rs.map (·.removal) = s.removesFrom (s.previousEnd index) (ps.map (·.span)) := by
  induction ps generalizing index st rs with
  | nil =>
    obtain ⟨rfl, rfl⟩ := Succeeds.pure_iff.1 h
    rfl
  | cons p ps ih =>
    obtain ⟨⟨hp, hslot, hparam⟩, hps⟩ := hps
    obtain ⟨r, u, rest, hr, hrest, rfl⟩ := destructuredFrom_cons hp h
    obtain ⟨hremoval, -⟩ := (destructured_succeeds hr).2.2 hslot
    rw [List.map_cons, List.map_cons, Subject.removesFrom, hremoval, ih hps hrest,
      Subject.previousEnd_succ hparam]

/-- Parameters with defaults are removed one after another. -/
theorem defaultedFrom_succeeds {index : Nat} {previousDefault : Option Nat}
    {ds : List (Param × DefaultValue)}
    (horder : ∀ a ∈ s.previousEnd index, ∀ b ∈ previousDefault, a ≤ b)
    (hds : AllFrom (fun i d => d.1.span.stop ≤ d.2.span.stop ∧
      s.function.params[i]? = some d.1) index ds)
    {rs : List Replacement}
    (h : Succeeds (defaultedFrom cx s index previousDefault ds) st rs st') :
    rs.map (·.removal) = s.removesFrom (previousDefault.or (s.previousEnd index))
        (ds.map fun d => ⟨d.1.span.start, d.2.span.stop⟩) ∧
      (cx.extractor.Grows → DeclareAll cx s st.names (Replaced.defaultsFrom index ds) rs ∧
        NamesGrow st st') := by
  induction ds generalizing index previousDefault st rs with
  | nil =>
    obtain ⟨rfl, rfl⟩ := Succeeds.pure_iff.1 h
    exact ⟨rfl, fun _ => ⟨.nil, List.Subset.refl _⟩⟩
  | cons d ds ih =>
    obtain ⟨param, default⟩ := d
    obtain ⟨⟨hstop, hparam⟩, hds⟩ := hds
    obtain ⟨r, u, hr, h⟩ := Succeeds.bind_iff.1 h
    obtain ⟨rest, v, hrest, h⟩ := Succeeds.bind_iff.1 h
    obtain ⟨rfl, rfl⟩ := Succeeds.pure_iff.1 h
    obtain ⟨hdeclares, hremoval, hsub⟩ := defaulted_succeeds horder hr
    have horder' : ∀ a ∈ s.previousEnd (index + 1), ∀ b ∈ some default.span.stop, a ≤ b := by
      rw [Subject.previousEnd_succ hparam]
      rintro a ha b hb
      obtain rfl := Option.some.inj ha
      obtain rfl := Option.some.inj hb
      exact hstop
    obtain ⟨hremovals, hmore⟩ := ih horder' hds hrest
    refine ⟨?_, fun hgrows => ?_⟩
    · rw [List.map_cons, List.map_cons, Subject.removesFrom, hremoval, hremovals]
      rfl
    · obtain ⟨hall, hgrow⟩ := hmore hgrows
      exact ⟨.cons hdeclares (hall.mono (hsub hgrows)), List.Subset.trans (hsub hgrows) hgrow⟩

theorem restReplacement_succeeds (cx : PassContext σ) {rs : List Replacement}
    (h : Succeeds (restReplacement (σ := σ) s) st rs st') :
    rs.map (·.removal) = s.removesFrom ((s.function.defaults.getLast?.map (·.span.stop)).or
        ((s.function.params.getLast?.map (·.span.stop)).or (s.function.thisParam.map (·.stop))))
        (s.function.rest.map (·.span)).toList ∧
      DeclareAll cx s st.names (s.function.rest.map Replaced.rest).toList rs ∧
      NamesGrow st st' := by
  unfold restReplacement at h
  split at h
  · rename_i hrest
    obtain ⟨rfl, rfl⟩ := Succeeds.pure_iff.1 h
    rw [hrest]
    exact ⟨rfl, .nil, List.Subset.refl _⟩
  · rename_i rest hrest
    obtain ⟨_, u, hregister, h⟩ := Succeeds.bind_iff.1 h
    obtain ⟨rfl, rfl⟩ := Succeeds.pure_iff.1 h
    rw [hrest]
    exact ⟨rfl, .cons rfl .nil, (register_grows _ _ _ _).of_succeeds hregister⟩

/-- The replacements of a function, part by part of its list. -/
theorem replacements_eq
    (hfirst : s.layout.firstDefault = s.function.params.length - s.function.defaults.length) :
    replacements cx s = (do
      let first ← destructuredFrom cx s 0 s.function.plain
      let second ← defaultedFrom cx s s.function.plain.length none s.function.defaulted
      let third ← restReplacement s
      return first ++ second ++ third) := by
  have hlength : s.function.plain.length = s.layout.firstDefault := by
    rw [FunctionNode.plain, List.length_take, hfirst]
    omega
  rw [replacements, hlength, FunctionNode.plain, FunctionNode.defaulted, hfirst]

/-- What a pass replaces: patterns in kept slots by names, and the elements after the kept ones
by nothing. -/
theorem replacements_succeeds
    (hcount : s.function.defaults.length ≤ s.function.params.length)
    (hfirst : s.layout.firstDefault = s.function.params.length - s.function.defaults.length)
    (hstops : ∀ d ∈ s.function.defaulted, d.1.span.stop ≤ d.2.span.stop)
    {rs : List Replacement} (h : Succeeds (replacements cx s) st rs st') :
    ∃ names, names.length = s.function.keptPatterns.length ∧
      rs.map (·.removal) = Edit.renames (s.function.keptPatterns.zip names) ++
        s.removesFrom s.function.keptEnd? s.function.removed ∧
      (cx.extractor.Grows → NameSet.Drawn cx.options.stem st.names st'.names names ∧
        DeclareAll cx s st.names s.function.replaced rs) := by
  rw [replacements_eq hfirst] at h
  obtain ⟨first, u, hfirsts, h⟩ := Succeeds.bind_iff.1 h
  obtain ⟨second, v, hsecond, h⟩ := Succeeds.bind_iff.1 h
  obtain ⟨third, w, hthird, h⟩ := Succeeds.bind_iff.1 h
  obtain ⟨rfl, rfl⟩ := Succeeds.pure_iff.1 h
  -- the patterns before and after the last name
  obtain ⟨slots, u', gaps, hslots, hgaps, rfl⟩ := destructuredFrom_append
    (show Succeeds (destructuredFrom cx s 0 (s.function.kept ++ s.function.dropped)) st first u from
      s.function.kept_append_dropped ▸ hfirsts)
  rw [Nat.zero_add] at hgaps
  obtain ⟨names, hnames, hslotRemovals, hdrawn⟩ :=
    destructuredFrom_placeholders (Subject.allFrom_kept hfirst) hslots
  have hgapRemovals := destructuredFrom_removals (Subject.allFrom_dropped hcount hfirst) hgaps
  obtain ⟨hdefaultRemovals, hdefaults⟩ := defaultedFrom_succeeds (by simp)
    (Subject.allFrom_defaulted hcount hstops) hsecond
  obtain ⟨hrestRemovals, hrest, hgrowRest⟩ := restReplacement_succeeds cx hthird
  refine ⟨names, hnames, ?_, fun hgrows => ?_⟩
  · rw [Subject.end_before_rest hcount] at hrestRemovals
    rw [Subject.previousEnd_kept hcount] at hgapRemovals
    rw [Option.none_or] at hdefaultRemovals
    rw [List.map_append, List.map_append, List.map_append, hslotRemovals, hgapRemovals,
      hdefaultRemovals, hrestRemovals, FunctionNode.removed, Subject.removesFrom_append,
      Subject.removesFrom_append, List.getLast?_append, Option.map_or, Option.or_assoc,
      ← Subject.previousEnd_plain hcount, FunctionNode.keptPatterns]
    simp only [List.append_assoc]
  · obtain ⟨hpatterns, hgrowPatterns⟩ := destructuredFrom_declares hgrows hfirsts
    obtain ⟨-, hgrowGaps⟩ := destructuredFrom_declares hgrows hgaps
    obtain ⟨hdefaultAll, hgrowDefaults⟩ := hdefaults hgrows
    have hdefaultAll' := hdefaultAll.mono hgrowPatterns
    have hrest' := hrest.mono (List.Subset.trans hgrowPatterns hgrowDefaults)
    constructor
    · have hgrow := List.Subset.trans (List.Subset.trans hgrowGaps hgrowDefaults) hgrowRest
      simpa using (hdrawn hgrows).append (.none hgrow)
    · exact List.rel_append (List.rel_append hpatterns hdefaultAll') hrest'

end Lower

end ParamLowering
