import ParamLowering.Proofs.ListShape
import ParamLowering.Proofs.PairedEdits
set_option autoImplicit false

/-!
A pass step by step.

The stepwise pass works on a rewrite of its own: it marks a parameter when it replaces it, refuses
to replace it twice, and adds one edit at a time. The edits go to the list of changes only when the
whole function is done. It does what the pass does: no mark is ever met again, and a function
gives all of its edits or none.
-/

namespace ParamLowering

/-! ### The stepwise pass -/

/-- What the stepwise pass has done to its function so far. -/
structure Rewrite where
  /-- For each positional parameter, whether it is replaced. -/
  marks : List Bool
  done : Outcome := {}

namespace Rewrite

variable (w : Rewrite)

def mark (index : Nat) : Rewrite where
  marks := w.marks.set index true
  done := { w.done with replaced := w.done.replaced ++ [index] }

def markRest : Rewrite := { w with done := { w.done with restReplaced := true } }

def addNames (names : List String) : Rewrite :=
  { w with done := { w.done with registered := w.done.registered ++ names } }

def addEdit (e : Edit) : Rewrite :=
  { w with done := { w.done with edits := w.done.edits ++ [e] } }

end Rewrite

/-- Why the stepwise pass fails. -/
inductive RewriteError where
  | lowering (cause : LoweringError)
  | replacedTwice (line index : Nat)
  deriving DecidableEq

abbrev Stepwise (σ : Type) := ExceptT RewriteError (StateM (PassState σ × Rewrite))

namespace Stepwise

variable {σ α : Type}

/-- A step of the pass, which leaves the rewrite alone. -/
def lift (m : Lower σ α) : Stepwise σ α := do
  let (st, w) ← get
  match m.run.run st with
  | (.ok a, st) =>
    set (st, w)
    return a
  | (.error e, st) =>
    set (st, w)
    throw (.lowering e)

def change (f : Rewrite → Rewrite) : Stepwise σ Unit := modify fun (st, w) => (st, f w)

def push (e : Edit) : Stepwise σ Unit := change (·.addEdit e)

def register (hoist : ScopeId) (origin : Span) (position : Position) (name : String) :
    Stepwise σ Unit := do
  lift (Lower.register hoist origin position name)
  change (·.addNames [name])

def registerAll (hoist : ScopeId) (origin : Span) (position : Position) (names : List String) :
    Stepwise σ Unit :=
  names.forM (register hoist origin position)

def markReplaced (line index : Nat) : Stepwise σ Unit := do
  let (_, w) ← get
  if w.marks[index]? = some false then change (·.mark index)
  else throw (.replacedTwice line index)

variable (cx : PassContext σ) (s : Subject)

def destructured (index : Nat) (param : Param) : Stepwise σ Unit := do
  let x ← lift (Lower.extract cx param.pattern (.argument index))
  let prologue ← lift (MonadExcept.ofExcept (x.declaration s.layout.indent cx.options.cleanup))
  registerAll s.hoist param.span (.index index) x.leafNames
  markReplaced s.function.line index
  push (.insertAt s.layout.anchor prologue .prologue)
  push (← lift (Lower.destructuredRemoval cx s index param))

def destructuredFrom : Nat → List Param → Stepwise σ Unit
  | _, [] => return
  | index, param :: params => do
    if param.pattern.isDestructuring then
      destructured cx s index param
    destructuredFrom (index + 1) params

def defaultedPrologue (index : Nat) (param : Param) (default : DefaultValue) :
    Stepwise σ String := do
  let text ← lift (MonadExcept.ofExcept (default.span.textOrError cx.source))
  match param.pattern with
  | .ident name _ => do
    if default.ident = some name then
      lift (Lower.warn s.function.line (.selfReferentialDefault name))
    register s.hoist default.span (.index index) name
    return guardedName name index text s.layout.indent
  | .object .. | .array .. => do
    let x ← lift (Lower.extract cx param.pattern (.defaultedArgument index text))
    registerAll s.hoist default.span (.index index) x.leafNames
    lift (MonadExcept.ofExcept (x.declaration s.layout.indent cx.options.cleanup))

def defaulted (index : Nat) (param : Param) (default : DefaultValue)
    (previousDefault : Option Nat) : Stepwise σ Unit := do
  let prologue ← defaultedPrologue cx s index param default
  markReplaced s.function.line index
  push (.insertAt s.layout.anchor prologue .prologue)
  let start := match s.previousEnd index, previousDefault with
    | some a, some b => max a b
    | some a, none => a
    | none, some b => b
    | none, none => param.span.start
  push (s.remove start default.span.stop)

def defaultedFrom : Nat → Option Nat → List (Param × DefaultValue) → Stepwise σ Unit
  | _, _, [] => return
  | index, previousDefault, (param, default) :: more => do
    defaulted cx s index param default previousDefault
    defaultedFrom (index + 1) (some default.span.stop) more

def restReplacement : Stepwise σ Unit :=
  match s.function.rest with
  | none => return
  | some rest => do
    register s.hoist rest.span .rest rest.name
    push (.insertAt s.layout.anchor
      s!"var {rest.name} = [].slice.call(arguments, {s.layout.paramCount});{s.layout.indent}"
      .prologue)
    let previous := (s.function.defaults.getLast?.map (·.span.stop)).or
      ((s.function.params.getLast?.map (·.span.stop)).or (s.function.thisParam.map (·.stop)))
    push (s.remove (previous.getD rest.span.start) rest.span.stop)
    change (·.markRest)

def replacements : Stepwise σ Unit := do
  destructuredFrom cx s 0 (s.function.params.take s.layout.firstDefault)
  defaultedFrom cx s s.layout.firstDefault none
    ((s.function.params.drop s.layout.firstDefault).zip s.function.defaults)
  restReplacement s

end Stepwise

/-- Lowers a function and adds its edits to `changes`, if all of it succeeds. -/
def rewriteInto {σ : Type} (cx : PassContext σ) (f : FunctionNode) (changes : List Edit)
    (st : PassState σ) : Except RewriteError Outcome × List Edit × PassState σ :=
  match Layout.ofFunction f cx.source with
  | .error e => (.error (.lowering e), changes, st)
  | .ok layout =>
    if f.isModern then match st.scopes.scopeOf? f.id with
      | none => (.error (.lowering (.missingScope f.line)), changes, st)
      | some scope =>
        let start : Rewrite := { marks := List.replicate layout.paramCount false }
        match (Stepwise.replacements cx
          ⟨f, layout, st.scopes.closestHoist scope⟩).run.run (st, start) with
        | (.ok (), st, w) => (.ok w.done, changes ++ w.done.edits, st)
        | (.error e, st, _) => (.error e, changes, st)
    else (.ok {}, changes, st)

/-! ### The stepwise pass beside the pass -/

/-- What two parts of a pass did, one after the other. -/
def Outcome.append (o p : Outcome) : Outcome where
  replaced := o.replaced ++ p.replaced
  restReplaced := o.restReplaced || p.restReplaced
  registered := o.registered ++ p.registered
  edits := o.edits ++ p.edits

theorem Outcome.append_nil (o : Outcome) (anchor : Nat) :
    o.append (ofReplacements anchor []) = o := by
  simp [append, ofReplacements]

theorem Outcome.append_append (o : Outcome) (anchor : Nat) (rs more : List Replacement) :
    (o.append (ofReplacements anchor rs)).append (ofReplacements anchor more) =
      o.append (ofReplacements anchor (rs ++ more)) := by
  simp [append, ofReplacements, List.filterMap_append, Bool.or_assoc]

/-- No parameter from `index` to `count` is replaced. -/
def Rewrite.UnmarkedFrom (w : Rewrite) (index count : Nat) : Prop :=
  ∀ i, index ≤ i → i < count → w.marks[i]? = some false

namespace Stepwise

variable {σ α β γ δ : Type} {st : PassState σ} {w : Rewrite}

/-- From a state, a stepwise run goes through the states of a run of the pass. Where that
succeeds so does the stepwise run, and where it fails the stepwise run fails with its error. -/
def Tracks (m : Stepwise σ α) (l : Lower σ β) (Q : β → α → Rewrite → Prop) (st : PassState σ)
    (w : Rewrite) : Prop :=
  match l.run.run st with
  | (.ok b, st') => ∃ a w', m.run.run (st, w) = (.ok a, st', w') ∧ Q b a w'
  | (.error e, st') => ∃ w', m.run.run (st, w) = (.error (.lowering e), st', w')

theorem Tracks.mono {m : Stepwise σ α} {l : Lower σ β} {Q P : β → α → Rewrite → Prop}
    (h : Tracks m l Q st w) (hQ : ∀ b a w', Q b a w' → P b a w') : Tracks m l P st w := by
  rw [Tracks] at h ⊢
  rcases hl : l.run.run st with ⟨e | b, st'⟩
  · rw [hl] at h
    exact h
  · rw [hl] at h
    obtain ⟨a, w', hrun, hw'⟩ := h
    exact ⟨a, w', hrun, hQ b a w' hw'⟩

theorem tracks_lift (l : Lower σ α) :
    Tracks (lift l) l (fun b a w' => b = a ∧ w = w') st w := by
  have hrun : (lift l).run.run (st, w) = match l.run.run st with
      | (.ok a, st') => (.ok a, st', w)
      | (.error e, st') => (.error (.lowering e), st', w) := by
    rw [lift, run_get_bind]
    dsimp only
    rcases l.run.run st with ⟨_ | _, _⟩ <;> rfl
  rw [Tracks, hrun]
  rcases l.run.run st with ⟨e | a, st'⟩
  · exact ⟨w, rfl⟩
  · exact ⟨a, w, rfl, rfl, rfl⟩

theorem tracks_bind {m : Stepwise σ α} {l : Lower σ β} {f : α → Stepwise σ γ} {g : β → Lower σ δ}
    {Q : β → α → Rewrite → Prop} {P : δ → γ → Rewrite → Prop} (hm : Tracks m l Q st w)
    (hf : ∀ b a st' w', Q b a w' → Tracks (f a) (g b) P st' w') :
    Tracks (m >>= f) (l >>= g) P st w := by
  rw [Tracks] at hm ⊢
  rw [run_bind, run_bind]
  rcases hl : l.run.run st with ⟨e | b, st'⟩
  · rw [hl] at hm
    obtain ⟨w', hrun⟩ := hm
    exact ⟨w', by rw [hrun]⟩
  · rw [hl] at hm
    obtain ⟨a, w', hrun, hQ⟩ := hm
    rw [hrun]
    exact hf b a st' w' hQ

theorem tracks_lift_bind {l : Lower σ α} {f : α → Stepwise σ γ} {g : α → Lower σ δ}
    {P : δ → γ → Rewrite → Prop} (hf : ∀ a st', Tracks (f a) (g a) P st' w) :
    Tracks (lift l >>= f) (l >>= g) P st w := by
  refine tracks_bind (tracks_lift l) ?_
  rintro a _ st' _ ⟨rfl, rfl⟩
  exact hf a st'

/-- The pass makes its answer from that of its last step. -/
theorem Tracks.map {m : Stepwise σ α} {l : Lower σ β} {g : β → δ} {Q : β → α → Rewrite → Prop}
    {P : δ → α → Rewrite → Prop} (h : Tracks m l Q st w)
    (hP : ∀ b a w', Q b a w' → P (g b) a w') :
    Tracks m (l >>= fun b => pure (g b)) P st w := by
  rw [Tracks] at h ⊢
  rw [run_bind]
  rcases hl : l.run.run st with ⟨e | b, st'⟩
  · rw [hl] at h
    exact h
  · rw [hl] at h
    obtain ⟨a, w', hrun, hQ⟩ := h
    exact ⟨a, w', hrun, hP b a w' hQ⟩

/-- A step that only the stepwise pass takes. -/
theorem tracks_silent {m : Stepwise σ α} {a : α} {w' : Rewrite} {f : α → Stepwise σ γ}
    {l : Lower σ δ} {P : δ → γ → Rewrite → Prop} (hm : m.run.run (st, w) = (.ok a, st, w'))
    (hf : Tracks (f a) l P st w') : Tracks (m >>= f) l P st w := by
  rw [Tracks] at hf ⊢
  rw [run_bind, hm]
  exact hf

theorem tracks_pure {b : β} {a : α} {P : β → α → Rewrite → Prop} (h : P b a w) :
    Tracks (pure a) (pure b) P st w := ⟨a, w, rfl, h⟩

theorem tracks_change {b : β} {f : Rewrite → Rewrite} {P : β → Unit → Rewrite → Prop}
    (h : P b () (f w)) : Tracks (change f) (pure b) P st w := ⟨(), f w, rfl, h⟩

theorem change_run (f : Rewrite → Rewrite) :
    (change f).run.run (st, w) = (.ok (), st, f w) := rfl

theorem markReplaced_run {line index : Nat} (h : w.marks[index]? = some false) :
    (markReplaced line index).run.run (st, w) = (.ok (), st, w.mark index) := by
  rw [markReplaced, run_get_bind]
  simp only [h, ↓reduceIte]
  rfl

theorem register_tracks (hoist : ScopeId) (origin : Span) (position : Position) (name : String) :
    Tracks (register hoist origin position name) (Lower.register hoist origin position name)
      (fun _ _ w' => w' = w.addNames [name]) st w := ⟨(), _, rfl, rfl⟩

theorem registerAll_tracks (hoist : ScopeId) (origin : Span) (position : Position)
    (names : List String) :
    Tracks (registerAll hoist origin position names) (Lower.registerAll hoist origin position names)
      (fun _ _ w' => w' = w.addNames names) st w := by
  induction names generalizing st w with
  | nil => exact tracks_pure (by simp [Rewrite.addNames])
  | cons name names ih =>
    refine tracks_bind (register_tracks hoist origin position name) ?_
    rintro _ _ st' _ rfl
    refine ih.mono ?_
    rintro _ _ _ rfl
    simp [Rewrite.addNames]

variable (cx : PassContext σ) (s : Subject)

/-- A replacement is recorded, and its parameter is marked. -/
def Records (w : Rewrite) (anchor index : Nat) (r : Replacement) (w' : Rewrite) : Prop :=
  w'.marks = w.marks.set index true ∧ w'.done = w.done.append (.ofReplacements anchor [r])

theorem destructured_tracks {index : Nat} (param : Param) (h : w.marks[index]? = some false) :
    Tracks (destructured cx s index param) (Lower.destructured cx s index param)
      (fun r _ w' => Records w s.layout.anchor index r w') st w := by
  refine tracks_lift_bind fun x st₁ => tracks_lift_bind fun prologue st₂ => ?_
  refine tracks_bind (registerAll_tracks _ _ _ _) ?_
  rintro _ _ st₃ _ rfl
  refine tracks_silent (markReplaced_run (by exact h)) (tracks_silent (change_run _) ?_)
  refine tracks_lift_bind fun removal st₄ => tracks_change ⟨rfl, ?_⟩
  simp [Outcome.append, Outcome.ofReplacements, Replacement.edits, Position.index?,
    Rewrite.addEdit, Rewrite.mark, Rewrite.addNames]

theorem defaultedPrologue_tracks (index : Nat) (param : Param) (default : DefaultValue) :
    Tracks (defaultedPrologue cx s index param default)
      (Lower.defaultedPrologue cx s index param default)
      (fun b prologue w' => prologue = b.1 ∧ w' = w.addNames b.2) st w := by
  refine tracks_lift_bind fun text st₁ => ?_
  have hpattern : Tracks (do
      let x ← lift (Lower.extract cx param.pattern (.defaultedArgument index text))
      registerAll s.hoist default.span (.index index) x.leafNames
      lift (MonadExcept.ofExcept (x.declaration s.layout.indent cx.options.cleanup))) (do
      let x ← Lower.extract cx param.pattern (.defaultedArgument index text)
      Lower.registerAll s.hoist default.span (.index index) x.leafNames
      let prologue ← MonadExcept.ofExcept (x.declaration s.layout.indent cx.options.cleanup)
      return (prologue, x.leafNames))
      (fun b prologue w' => prologue = b.1 ∧ w' = w.addNames b.2) st₁ w := by
    refine tracks_lift_bind fun x st₂ => ?_
    refine tracks_bind (registerAll_tracks _ _ _ _) ?_
    rintro _ _ st₃ _ rfl
    refine (tracks_lift _).map ?_
    rintro prologue _ _ ⟨rfl, rfl⟩
    exact ⟨rfl, rfl⟩
  obtain ⟨pattern, span⟩ := param
  cases pattern with
  | object => exact hpattern
  | array => exact hpattern
  | ident name nameSpan =>
    have hname : ∀ st₂ : PassState σ, Tracks (do
        register s.hoist default.span (.index index) name
        return guardedName name index text s.layout.indent) (do
        Lower.register s.hoist default.span (.index index) name
        return (guardedName name index text s.layout.indent, [name]))
        (fun b prologue w' => prologue = b.1 ∧ w' = w.addNames b.2) st₂ w := by
      intro st₂
      refine tracks_bind (register_tracks _ _ _ name) ?_
      rintro _ _ st₃ _ rfl
      exact tracks_pure ⟨rfl, rfl⟩
    by_cases hself : default.ident = some name
    · simp only [hself, ↓reduceIte]
      exact tracks_lift_bind fun _ st₂ => hname st₂
    · simp only [hself, ↓reduceIte]
      exact hname st₁

theorem defaulted_tracks {index : Nat} (param : Param) (default : DefaultValue)
    (previousDefault : Option Nat) (h : w.marks[index]? = some false) :
    Tracks (defaulted cx s index param default previousDefault)
      (Lower.defaulted cx s index param default previousDefault)
      (fun r _ w' => Records w s.layout.anchor index r w') st w := by
  refine tracks_bind (defaultedPrologue_tracks cx s index param default) ?_
  rintro ⟨prologue, registered⟩ _ st₁ _ ⟨rfl, rfl⟩
  refine tracks_silent (markReplaced_run (by exact h)) (tracks_silent (change_run _) ?_)
  refine tracks_change ⟨rfl, ?_⟩
  -- both passes choose the start by a match of their own
  cases s.previousEnd index <;> cases previousDefault <;>
    simp [Outcome.append, Outcome.ofReplacements, Replacement.edits, Position.index?,
      Rewrite.addEdit, Rewrite.mark, Rewrite.addNames]

/-- Replacements of parameters before `stop` are recorded, and no mark is set from there on. -/
structure RecordsAll (w : Rewrite) (anchor stop count : Nat) (rs : List Replacement)
    (w' : Rewrite) : Prop where
  done : w'.done = w.done.append (.ofReplacements anchor rs)
  unmarked : w'.UnmarkedFrom stop count

theorem RecordsAll.nil {anchor stop count : Nat} (h : w.UnmarkedFrom stop count) :
    RecordsAll w anchor stop count [] w :=
  ⟨(Outcome.append_nil w.done anchor).symm, h⟩

theorem Records.unmarked {anchor index count : Nat} {r : Replacement} {w' : Rewrite}
    (h : Records w anchor index r w') (hw : w.UnmarkedFrom index count) :
    w'.UnmarkedFrom (index + 1) count := by
  intro i hi hcount
  rw [h.1, List.getElem?_set_ne (by omega)]
  exact hw i (by omega) hcount

theorem Records.cons {anchor index stop count : Nat} {r : Replacement} {rs : List Replacement}
    {w' w'' : Rewrite} (h : Records w anchor index r w')
    (h' : RecordsAll w' anchor stop count rs w'') :
    RecordsAll w anchor stop count (r :: rs) w'' :=
  ⟨by rw [h'.done, h.2, Outcome.append_append]; rfl, h'.unmarked⟩

theorem destructuredFrom_tracks {index count : Nat} {ps : List Param}
    (hcount : index + ps.length ≤ count) (h : w.UnmarkedFrom index count) :
    Tracks (destructuredFrom cx s index ps) (Lower.destructuredFrom cx s index ps)
      (fun rs _ w' => RecordsAll w s.layout.anchor (index + ps.length) count rs w') st w := by
  induction ps generalizing index st w with
  | nil => exact tracks_pure (.nil h)
  | cons p ps ih =>
    have hstop : index + (p :: ps).length = index + 1 + ps.length := by
      rw [List.length_cons]
      omega
    rw [hstop] at hcount ⊢
    rw [destructuredFrom, Lower.destructuredFrom]
    cases hp : p.pattern.isDestructuring with
    | true =>
      have hfree : w.marks[index]? = some false := h index (Nat.le_refl _) (by omega)
      refine tracks_bind (destructured_tracks cx s p hfree) ?_
      intro r _ st₁ w₁ hr
      exact (ih hcount (hr.unmarked h)).map fun rs _ w₂ hrs => hr.cons hrs
    | false =>
      -- a name is passed over, and its mark with it
      have hskip : w.UnmarkedFrom (index + 1) count := fun i hi => h i (by omega)
      exact ih hcount hskip

theorem defaultedFrom_tracks {index count : Nat} {previousDefault : Option Nat}
    {ds : List (Param × DefaultValue)} (hcount : index + ds.length ≤ count)
    (h : w.UnmarkedFrom index count) :
    Tracks (defaultedFrom cx s index previousDefault ds)
      (Lower.defaultedFrom cx s index previousDefault ds)
      (fun rs _ w' => RecordsAll w s.layout.anchor (index + ds.length) count rs w') st w := by
  induction ds generalizing index previousDefault st w with
  | nil => exact tracks_pure (.nil h)
  | cons d ds ih =>
    have hstop : index + (d :: ds).length = index + 1 + ds.length := by
      rw [List.length_cons]
      omega
    rw [hstop] at hcount ⊢
    have hfree : w.marks[index]? = some false := h index (Nat.le_refl _) (by omega)
    refine tracks_bind (defaulted_tracks cx s d.1 d.2 previousDefault hfree) ?_
    intro r _ st₁ w₁ hr
    exact (ih hcount (hr.unmarked h)).map fun rs _ w₂ hrs => hr.cons hrs

theorem restReplacement_tracks :
    Tracks (restReplacement s) (Lower.restReplacement s)
      (fun rs _ w' => w'.done = w.done.append (.ofReplacements s.layout.anchor rs)) st w := by
  rw [restReplacement, Lower.restReplacement]
  cases s.function.rest with
  | none => exact tracks_pure (Outcome.append_nil w.done s.layout.anchor).symm
  | some rest =>
    refine tracks_bind (register_tracks _ _ _ rest.name) ?_
    rintro _ _ st₁ _ rfl
    refine tracks_silent (change_run _) (tracks_silent (change_run _) (tracks_change ?_))
    simp [Outcome.append, Outcome.ofReplacements, Replacement.edits, Position.index?,
      Rewrite.addEdit, Rewrite.markRest, Rewrite.addNames]

theorem replacements_tracks (h : w.UnmarkedFrom 0 s.function.params.length)
    (hcount : s.layout.firstDefault ≤ s.function.params.length) :
    Tracks (replacements cx s) (Lower.replacements cx s)
      (fun rs _ w' => w'.done = w.done.append (.ofReplacements s.layout.anchor rs)) st w := by
  have hplain : 0 + (s.function.params.take s.layout.firstDefault).length ≤
      s.function.params.length := by
    rw [List.length_take]
    omega
  refine tracks_bind (destructuredFrom_tracks cx s hplain h) ?_
  intro first _ st₁ w₁ hfirst
  have hdefaulted : s.layout.firstDefault + ((s.function.params.drop s.layout.firstDefault).zip
      s.function.defaults).length ≤ s.function.params.length := by
    rw [List.length_zip, List.length_drop]
    omega
  have hunmarked : w₁.UnmarkedFrom s.layout.firstDefault s.function.params.length := by
    have hstop := hfirst.unmarked
    rwa [Nat.zero_add, List.length_take, Nat.min_eq_left hcount] at hstop
  refine tracks_bind (defaultedFrom_tracks cx s hdefaulted hunmarked) ?_
  intro second _ st₂ w₂ hsecond
  refine (restReplacement_tracks s).map fun third _ w₃ hthird => ?_
  rw [hthird, hsecond.done, hfirst.done, Outcome.append_append, Outcome.append_append,
    List.append_assoc]

/-- From the layout on, with nothing marked, the stepwise pass records what the pass returns. -/
theorem replacements_tracks_unmarked {f : FunctionNode} {layout : Layout} (hoist : ScopeId)
    (hlayout : Layout.ofFunction f cx.source = .ok layout) :
    Tracks (replacements cx ⟨f, layout, hoist⟩) (Lower.replacements cx ⟨f, layout, hoist⟩)
      (fun rs _ w' => w'.done = .ofReplacements layout.anchor rs) st
      { marks := List.replicate layout.paramCount false } := by
  obtain ⟨-, -, -, heq⟩ := ofFunction_eq_ok hlayout
  refine (replacements_tracks cx ⟨f, layout, hoist⟩ (fun i _ hi => ?_) ?_).mono
    fun rs _ w' hw' => hw'
  · rw [heq]
    exact List.getElem?_replicate_of_lt hi
  · rw [heq]
    exact Nat.sub_le _ _

end Stepwise

section

variable {σ : Type} (cx : PassContext σ) (f : FunctionNode) (changes : List Edit)
  (st : PassState σ)

/-- The stepwise pass does what the pass does, and adds its edits to the changes. -/
theorem rewriteInto_eq : rewriteInto cx f changes st =
    match (lowerFunction cx f).run.run st with
    | (.ok o, st') => (.ok o, changes ++ o.edits, st')
    | (.error e, st') => (.error (.lowering e), changes, st') := by
  rw [lowerFunction_run, rewriteInto]
  cases hlayout : Layout.ofFunction f cx.source with
  | error e => rfl
  | ok layout =>
    dsimp only
    cases f.isModern with
    | false => simp
    | true =>
      rw [if_pos rfl, if_pos rfl]
      cases st.scopes.scopeOf? f.id with
      | none => rfl
      | some scope =>
        have htracks : Stepwise.Tracks _ _ _ st _ := Stepwise.replacements_tracks_unmarked cx
          (st.scopes.closestHoist scope) hlayout
        rw [Stepwise.Tracks] at htracks
        dsimp only
        rcases hrun : (Lower.replacements cx _).run.run st with ⟨e | rs, st'⟩
        · rw [hrun] at htracks
          obtain ⟨w', hstepwise⟩ := htracks
          rw [hstepwise]
        · rw [hrun] at htracks
          obtain ⟨_, w', hstepwise, hdone⟩ := htracks
          rw [hstepwise]
          simp only [hdone]

/-- A function gives all of its edits or none. If the stepwise pass fails, the pass fails for the
same reason, never because a parameter was replaced before, and the changes are what they were.
If it succeeds, the edits of the outcome follow the changes, in pairs. A plain list changes
nothing. -/
theorem rewriteInto_all_or_none :
    (∀ e changes' st', rewriteInto cx f changes st = (.error e, changes', st') →
      changes' = changes ∧ ∃ cause, e = .lowering cause ∧
        (lowerFunction cx f).run.run st = (.error cause, st')) ∧
    (∀ o changes' st', rewriteInto cx f changes st = (.ok o, changes', st') →
      changes' = changes ++ o.edits ∧ Succeeds (lowerFunction cx f) st o st' ∧
        ∃ layout hoist, Layout.ofFunction f cx.source = .ok layout ∧
          o.Paired cx ⟨f, layout, hoist⟩) ∧
    ∀ layout, Layout.ofFunction f cx.source = .ok layout → f.isModern = false →
      rewriteInto cx f changes st = (.ok {}, changes, st) := by
  rw [rewriteInto_eq]
  refine ⟨?_, ?_, ?_⟩
  · intro e changes' st' h
    rcases hrun : (lowerFunction cx f).run.run st with ⟨cause | o, u⟩
    · rw [hrun] at h
      obtain ⟨rfl, rfl, rfl⟩ : _ ∧ _ ∧ _ := by simpa using h
      exact ⟨rfl, cause, rfl, rfl⟩
    · rw [hrun] at h
      cases h
  · intro o changes' st' h
    rcases hrun : (lowerFunction cx f).run.run st with ⟨cause | p, u⟩
    · rw [hrun] at h
      cases h
    · rw [hrun] at h
      obtain ⟨rfl, rfl, rfl⟩ : _ ∧ _ ∧ _ := by simpa using h
      exact ⟨rfl, hrun, lowerFunction_pairs hrun⟩
  · intro layout hlayout hplain
    rw [lowerFunction_run, hlayout, hplain]
    simp

end

-- The default ends inside a character. By then the pattern is replaced and its name declared.
example :
    let run := rewriteInto (Run.passContext {} sampleSource)
      { sampleFunction with defaults := [⟨⟨16, 17⟩, none⟩] }
      [.insertAt 0 "before" .prologue] sampleState
    (run.1.isOk, run.2.1, (run.2.2.scopes.get? 1 "a").isSome) =
      (false, [.insertAt 0 "before" .prologue], true) := by
  decide +kernel

end ParamLowering
