import ParamLowering.Proofs.Fresh
import ParamLowering.Proofs.Steps
set_option autoImplicit false

/-!
No step gives a name back: not extraction, not a pass, and not when it fails.
-/

namespace ParamLowering

/-! ### Extraction -/

namespace Extracting

/-- No name is given back. -/
abbrev Grows (a b : ExtractionState) : Prop := a.names.taken ⊆ b.names.taken

theorem bind_grows (b : Binding) : Keeps Grows (Extracting.bind b) := by
  refine keeps_get_bind fun s => ?_
  cases s.out.bind b with
  | error e => exact List.Subset.refl s.names.taken
  | ok out => exact List.Subset.refl s.names.taken

theorem temporary_grows (stem : String) (init : Initializer) :
    Keeps Grows (Extracting.temporary stem init) := by
  refine keeps_get_bind fun s => ?_
  have htrans : ∀ a b c : ExtractionState, Grows a b → Grows b c → Grows a c :=
    fun a b c hab hbc => List.Subset.trans hab hbc
  have hbind := keeps_bind htrans
    (bind_grows { name := (s.names.fresh stem).1, init, needsCleanup := true, generated := true })
    (fun _ => keeps_pure (fun a => List.Subset.refl a.names.taken) (s.names.fresh stem).1)
    { s with names := (s.names.fresh stem).2 }
  exact List.Subset.trans (List.subset_cons_self _ _) hbind

/-- Every step of extraction gives no name back. -/
theorem grows_steps (stem : String) : StepsKeep stem Grows where
  refl := fun s => List.Subset.refl s.names.taken
  trans := fun _ _ _ hab hbc => List.Subset.trans hab hbc
  bind := fun b _ => bind_grows b
  defer := fun _ _ _ _ => keeps_modify fun s => List.Subset.refl s.names.taken
  temporary := temporary_grows stem

end Extracting

/-- The extractor gives no name back. -/
def Extractor.Grows {σ : Type} (e : Extractor σ) : Prop :=
  ∀ pattern source names state, names.taken ⊆ (e.run pattern source names state).2.1.taken

theorem ExtractionContext.extractor_grows (cx : ExtractionContext) : cx.extractor.Grows := by
  intro pattern source names state
  have h := cx.extract_keeps (Extracting.grows_steps cx.stem) pattern source { names }
  simp only [ExtractionContext.extractor]
  rcases hrun : (cx.extract pattern source).run.run { names } with ⟨answer, s⟩
  rw [hrun] at h
  cases answer with
  | ok => exact h
  | error e => exact h

/-! ### Passes -/

namespace Lower

variable {σ : Type}

/-- No name is given back. -/
abbrev NamesGrow (a b : PassState σ) : Prop := a.names.taken ⊆ b.names.taken

theorem register_grows (hoist : ScopeId) (origin : Span) (position : Position) (name : String) :
    Keeps (NamesGrow (σ := σ)) (register hoist origin position name) :=
  keeps_modify fun _ _ h => NameSet.mem_add_taken.2 (.inr h)

theorem registerAll_grows (hoist : ScopeId) (origin : Span) (position : Position)
    (names : List String) :
    Keeps (NamesGrow (σ := σ)) (registerAll hoist origin position names) := by
  induction names with
  | nil => exact keeps_pure (fun a => List.Subset.refl a.names.taken) _
  | cons name names ih =>
    exact keeps_bind (fun a b c (hab : NamesGrow a b) hbc => List.Subset.trans hab hbc)
      (register_grows hoist origin position name) fun _ => ih

theorem warn_grows (line : Nat) (kind : WarningKind) :
    Keeps (NamesGrow (σ := σ)) (warn line kind) :=
  keeps_modify fun a => List.Subset.refl a.names.taken

end Lower

end ParamLowering
