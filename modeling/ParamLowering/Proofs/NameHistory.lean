import ParamLowering.Proofs.Emission
import ParamLowering.Proofs.NameGrowth
import ParamLowering.Proofs.Replacement
set_option autoImplicit false

/-!
How the names of a run come to be taken.

A history lists, in order, the names that stand in the sources, those that generated statements
declare for the user, and those that are made up. A name is made up only if nothing before it in
the history has it.
-/

namespace ParamLowering

/-- A reason for a name to be taken. -/
inductive NameEvent where
  /-- The name stands in a source text. -/
  | mentioned (name : String)
  /-- A generated statement declares the name for the user. -/
  | registered (name : String)
  /-- The name is a temporary or a placeholder. -/
  | generated (name : String)
  deriving DecidableEq, Repr

def NameEvent.name : NameEvent → String
  | mentioned name | registered name | generated name => name

namespace NameSet

/-- The events between two sets of names, with names of one stem made up. -/
inductive History (stem : String) : NameSet → List NameEvent → NameSet → Prop where
  | nil (s : NameSet) : History stem s [] s
  | mentioned {s t : NameSet} {name : String} {es : List NameEvent}
      (more : History stem (s.add name) es t) : History stem s (.mentioned name :: es) t
  | registered {s t : NameSet} {name : String} {es : List NameEvent}
      (more : History stem (s.add name) es t) : History stem s (.registered name :: es) t
  | generated {s t : NameSet} {es : List NameEvent} (more : History stem (s.fresh stem).2 es t) :
      History stem s (.generated (s.fresh stem).1 :: es) t

namespace History

variable {stem : String} {s t u : NameSet} {es fs : List NameEvent}

theorem append (hes : History stem s es t) (hfs : History stem t fs u) :
    History stem s (es ++ fs) u := by
  induction hes with
  | nil s => exact hfs
  | mentioned _ ih => exact .mentioned (ih hfs)
  | registered _ ih => exact .registered (ih hfs)
  | generated _ ih => exact .generated (ih hfs)

theorem split (h : History stem s (es ++ fs) u) :
    ∃ t, History stem s es t ∧ History stem t fs u := by
  induction es generalizing s with
  | nil => exact ⟨s, .nil s, h⟩
  | cons e es ih =>
    cases h with
    | mentioned more =>
      obtain ⟨t, hes, hfs⟩ := ih more
      exact ⟨t, .mentioned hes, hfs⟩
    | registered more =>
      obtain ⟨t, hes, hfs⟩ := ih more
      exact ⟨t, .registered hes, hfs⟩
    | generated more =>
      obtain ⟨t, hes, hfs⟩ := ih more
      exact ⟨t, .generated hes, hfs⟩

/-- Taken is what was taken before, and what the events took. -/
theorem mem_taken_iff (h : History stem s es t) {name : String} :
    name ∈ t.taken ↔ name ∈ s.taken ∨ ∃ e ∈ es, e.name = name := by
  induction h with
  | nil s => simp
  | mentioned _ ih | registered _ ih =>
    rw [ih, mem_add_taken]
    simp only [List.exists_mem_cons_iff, NameEvent.name]
    grind
  | generated _ ih =>
    rw [ih, fresh_taken, List.mem_cons]
    simp only [List.exists_mem_cons_iff, NameEvent.name]
    grind

/-- A name that is made up is not one that was taken before. -/
theorem generated_new {name : String}
    (h : History stem s (es ++ .generated name :: fs) t) :
    name ∉ s.taken ∧ ∀ e ∈ es, e.name ≠ name := by
  obtain ⟨u, hes, hmore⟩ := h.split
  have hnew : name ∉ u.taken := by
    cases hmore with
    | generated more => exact fresh_notMem u stem
  rw [hes.mem_taken_iff] at hnew
  grind

end History

end NameSet

/-! ### Extraction -/

/-- The names that an extraction made up, in order. -/
def Extraction.temporaries (x : Extraction) : List String :=
  (x.bindings.filter (·.generated)).map (·.name)

theorem Extraction.temporaries_ordered (x : Extraction) (bs : List Binding) :
    Extraction.temporaries ⟨x.ordered ++ bs, []⟩ =
      x.temporaries ++ Extraction.temporaries ⟨bs, []⟩ := by
  have hdefinitions : (x.definitions.filterMap (·.binding?)).filter (·.generated) = [] := by
    refine List.filter_eq_nil_iff.2 fun b hb => ?_
    obtain ⟨d, -, hd⟩ := List.mem_filterMap.1 hb
    obtain ⟨name, -, rfl⟩ := Option.map_eq_some_iff.1 hd
    simp
  simp [temporaries, ordered, List.filter_append, hdefinitions]

namespace Extracting

/-- The names that are made up on the way are those of the temporaries that are bound. -/
def Draws (stem : String) (s t : ExtractionState) : Prop :=
  s.out.Simple → t.out.Simple ∧ ∃ names, t.out.temporaries = s.out.temporaries ++ names ∧
    NameSet.History stem s.names (names.map .generated) t.names

theorem draws_steps (stem : String) : StepsKeep stem (Draws stem) where
  refl := fun s hs => ⟨hs, [], by simp, .nil s.names⟩
  trans := by
    intro s t u hst htu hs
    obtain ⟨ht, xs, hxs, hfirst⟩ := hst hs
    obtain ⟨hu, ys, hys, hsecond⟩ := htu ht
    refine ⟨hu, xs ++ ys, by rw [hys, hxs, List.append_assoc], ?_⟩
    rw [List.map_append]
    exact hfirst.append hsecond
  bind := by
    intro b hb s hs
    have hrun : Succeeds (Extracting.bind b) s () _ := (bind_succeeds hs).2 rfl
    rw [hrun]
    refine ⟨Extraction.simple_bindings _, [], ?_, .nil s.names⟩
    rw [Extraction.temporaries_ordered]
    simp [Extraction.temporaries, hb]
  defer := by
    intro name span temporary accessor s hs
    exact ⟨Extraction.simple_defer hs _ _ _ _, [], (List.append_nil _).symm, .nil s.names⟩
  temporary := by
    intro init s hs
    have hrun := temporary_succeeds hs stem init
    rw [Succeeds] at hrun
    rw [hrun]
    refine ⟨Extraction.simple_bindings _, [(s.names.fresh stem).1], ?_, .generated (.nil _)⟩
    exact Extraction.temporaries_ordered s.out _

end Extracting

/-- The extractor makes up the temporaries of its answers, and takes no other name. -/
def Extractor.Records {σ : Type} (e : Extractor σ) (stem : String) : Prop :=
  ∀ pattern source names state, ∃ drawn,
    NameSet.History stem names (drawn.map .generated) (e.run pattern source names state).2.1 ∧
      ∀ x, (e.run pattern source names state).1 = .ok x → x.temporaries = drawn

theorem ExtractionContext.extractor_records (cx : ExtractionContext) :
    cx.extractor.Records cx.stem := by
  intro pattern source names state
  obtain ⟨-, drawn, htemporaries, hhistory⟩ :=
    extract_keeps (Extracting.draws_steps cx.stem) pattern source { names }
      (Extraction.simple_bindings [])
  refine ⟨drawn, ?_⟩
  simp only [ExtractionContext.extractor]
  rcases hrun : (cx.extract pattern source).run.run { names } with ⟨answer, s⟩
  rw [hrun] at htemporaries hhistory
  cases answer with
  | ok =>
    refine ⟨hhistory, fun x hx => ?_⟩
    obtain rfl := Except.ok.inj hx
    exact htemporaries
  | error e => exact ⟨hhistory, fun x hx => by cases hx⟩

end ParamLowering
