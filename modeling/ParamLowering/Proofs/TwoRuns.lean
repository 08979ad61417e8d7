import ParamLowering.NameSet
import ParamLowering.Proofs.Success
set_option autoImplicit false

/-!
Two runs of the same steps that draw different names.

Two runs stay in step if they draw equally many names and both give a value or both the same
error. Whatever mentions a name drawn is the same in both only as long as the names are; the
proposition that all names drawn so far are the same is carried along for it.
-/

namespace ParamLowering

/-- The names made up so far, latest first. -/
def NameSet.drawn (s : NameSet) : List String := s.resume.map fun r => numbered r.1 (r.2 - 1)

@[simp] theorem NameSet.drawn_fresh (s : NameSet) (stem : String) :
    (s.fresh stem).2.drawn = (s.fresh stem).1 :: s.drawn := by
  simp [drawn, fresh]

@[simp] theorem NameSet.drawn_add (s : NameSet) (name : String) : (s.add name).drawn = s.drawn := by
  unfold add insert
  split <;> rfl

variable {ε S α β : Type}

/-- Two values that are related, or the same error twice. -/
inductive Answers (Q : α → α → Prop) : Except ε α → Except ε α → Prop where
  | ok {a a' : α} (h : Q a a') : Answers Q (.ok a) (.ok a')
  | error (e : ε) : Answers Q (.error e) (.error e)

theorem Answers.mono {Q P : α → α → Prop} (hQ : ∀ a a', Q a a' → P a a') {r r' : Except ε α}
    (h : Answers Q r r') : Answers P r r' := by
  cases h with
  | ok h => exact .ok (hQ _ _ h)
  | error e => exact .error e

/-- Two values that are the same under an assumption. -/
def SameIf (E : Prop) (a a' : α) : Prop := E → a = a'

/-- How two runs end that began under the assumption `E`, with the names that they draw, latest
first. Behind them the assumption is that these are the same too. -/
structure InStep (draw : S → List String) (R : Prop → S → S → Prop) (Q : Prop → α → α → Prop)
    (E : Prop) (s s' : S) (r r' : Except ε α × S) (ds ds' : List String) : Prop where
  length : ds.length = ds'.length
  drawn : draw r.2 = ds ++ draw s
  drawn' : draw r'.2 = ds' ++ draw s'
  states : R (E ∧ ds = ds') r.2 r'.2
  answers : Answers (Q (E ∧ ds = ds')) r.1 r'.1

/-- From related states two steps stay in step. -/
def SideBySide (draw : S → List String) (R : Prop → S → S → Prop) (Q : Prop → α → α → Prop)
    (E : Prop) (m m' : ExceptT ε (StateM S) α) : Prop :=
  ∀ s s', R E s s' → ∃ ds ds', InStep draw R Q E s s' (m.run.run s) (m'.run.run s') ds ds'

section SideBySide

variable {draw : S → List String} {R : Prop → S → S → Prop} {Q : Prop → α → α → Prop}
  {P : Prop → β → β → Prop} {E : Prop}

/-- Steps that draw no name, from one pair of states. -/
theorem inStep_nil {s s' : S} {r r' : Except ε α × S} (hdraw : draw r.2 = draw s)
    (hdraw' : draw r'.2 = draw s') (hstates : R E r.2 r'.2) (hanswers : Answers (Q E) r.1 r'.1) :
    InStep draw R Q E s s' r r' [] [] := by
  have hE : (E ∧ ([] : List String) = []) = E := by simp
  exact ⟨rfl, hdraw, hdraw', hE.symm ▸ hstates, hE.symm ▸ hanswers⟩

theorem inStep_of_succeeds {m m' : ExceptT ε (StateM S) α} {s s' t t' : S} {a a' : α}
    {ds ds' : List String} (h : Succeeds m s a t) (h' : Succeeds m' s' a' t')
    (hlength : ds.length = ds'.length) (hdrawn : draw t = ds ++ draw s)
    (hdrawn' : draw t' = ds' ++ draw s') (hstates : R (E ∧ ds = ds') t t')
    (hvalues : Q (E ∧ ds = ds') a a') :
    InStep draw R Q E s s' (m.run.run s) (m'.run.run s') ds ds' := by
  rw [Succeeds] at h h'
  rw [h, h']
  exact ⟨hlength, hdrawn, hdrawn', hstates, .ok hvalues⟩

theorem sideBySide_pure {a a' : α} (h : Q E a a') :
    SideBySide draw R Q E (pure a : ExceptT ε (StateM S) α) (pure a') :=
  fun _ _ hs => ⟨[], [], inStep_nil rfl rfl hs (.ok h)⟩

theorem sideBySide_throw (e : ε) : SideBySide draw R Q E (throw e : ExceptT ε (StateM S) α)
    (throw e) :=
  fun _ _ hs => ⟨[], [], inStep_nil rfl rfl hs (.error e)⟩

theorem sideBySide_ofExcept {x x' : Except ε α} (h : Answers (Q E) x x') :
    SideBySide draw R Q E (MonadExcept.ofExcept x : ExceptT ε (StateM S) α)
      (MonadExcept.ofExcept x') := by
  cases h with
  | ok h => exact sideBySide_pure h
  | error e => exact sideBySide_throw e

theorem sideBySide_modify {f f' : S → S} (hdraw : ∀ s, draw (f s) = draw s)
    (hdraw' : ∀ s, draw (f' s) = draw s) (hf : ∀ s s', R E s s' → R E (f s) (f' s')) :
    SideBySide draw R SameIf E (modify f : ExceptT ε (StateM S) PUnit) (modify f') :=
  fun s s' hs => ⟨[], [], inStep_nil (hdraw s) (hdraw' s') (hf s s' hs) (.ok fun _ => rfl)⟩

theorem sideBySide_get_bind {f f' : S → ExceptT ε (StateM S) α}
    (hf : ∀ s s', R E s s' → ∃ ds ds',
      InStep draw R Q E s s' ((f s).run.run s) ((f' s').run.run s') ds ds') :
    SideBySide draw R Q E (get >>= f) (get >>= f') := fun s s' hs => hf s s' hs

/-- What two steps draw comes behind what was drawn before. -/
theorem sideBySide_bind {m m' : ExceptT ε (StateM S) α} {f f' : α → ExceptT ε (StateM S) β}
    (hm : SideBySide draw R Q E m m')
    (hf : ∀ (F : Prop) a a', (F → E) → Q F a a' → SideBySide draw R P F (f a) (f' a')) :
    SideBySide draw R P E (m >>= f) (m' >>= f') := by
  intro s s' hs
  obtain ⟨ds, ds', hfirst⟩ := hm s s' hs
  rw [run_bind, run_bind]
  rcases hr : m.run.run s with ⟨r, t⟩
  rcases hr' : m'.run.run s' with ⟨r', t'⟩
  rw [hr, hr'] at hfirst
  have hanswers : Answers (Q (E ∧ ds = ds')) r r' := hfirst.answers
  cases hanswers with
  | error e => exact ⟨ds, ds', hfirst.length, hfirst.drawn, hfirst.drawn', hfirst.states, .error e⟩
  | @ok a a' ha =>
    obtain ⟨es, es', hsecond⟩ := hf _ a a' And.left ha t t' hfirst.states
    have hall : ((E ∧ ds = ds') ∧ es = es') = (E ∧ es ++ ds = es' ++ ds') := by
      refine propext ⟨fun h => ⟨h.1.1, by rw [h.1.2, h.2]⟩, fun h => ?_⟩
      obtain ⟨hes, hds⟩ := List.append_inj h.2 hsecond.length
      exact ⟨⟨h.1, hds⟩, hes⟩
    refine ⟨es ++ ds, es' ++ ds', ?_, ?_, ?_, hall ▸ hsecond.states, hall ▸ hsecond.answers⟩
    · rw [List.length_append, List.length_append, hsecond.length, hfirst.length]
    · rw [hsecond.drawn, hfirst.drawn, List.append_assoc]
    · rw [hsecond.drawn', hfirst.drawn', List.append_assoc]

end SideBySide

end ParamLowering
