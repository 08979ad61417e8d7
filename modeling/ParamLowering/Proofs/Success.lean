import ParamLowering.LoweringError
set_option autoImplicit false

/-!
Successful runs of steps that carry a state and can fail.

A run that succeeds comes apart at each bind into two runs that succeed. What every step keeps,
whether it succeeds or fails, a whole run keeps. If no step can fail, the run gives a value.
-/

namespace ParamLowering

variable {ε S α β : Type}

/-- A step goes from one state to another and gives a value. -/
def Succeeds (m : ExceptT ε (StateM S) α) (s : S) (a : α) (t : S) : Prop :=
  m.run.run s = (.ok a, t)

/-- A run succeeds if its answer is not an error. -/
theorem exists_succeeds {m : ExceptT ε (StateM S) α} {s : S}
    (h : (m.run.run s).1.toOption.isSome = true) : ∃ a t, Succeeds m s a t := by
  unfold Succeeds
  match hrun : m.run.run s, h with
  | (.ok a, t), _ => exact ⟨a, t, rfl⟩

theorem run_bind (m : ExceptT ε (StateM S) α) (f : α → ExceptT ε (StateM S) β) (s : S) :
    (m >>= f).run.run s = match m.run.run s with
      | (.ok a, t) => (f a).run.run t
      | (.error e, t) => (.error e, t) := by
  change (match m.run.run s with | (r, t) => (ExceptT.bindCont f r).run t) = _
  match m.run.run s with
  | (.ok a, t) => rfl
  | (.error e, t) => rfl

theorem run_get_bind (f : S → ExceptT ε (StateM S) β) (s : S) :
    (get >>= f).run.run s = (f s).run.run s := rfl

theorem run_ofExcept (x : Except ε α) (s : S) :
    (MonadExcept.ofExcept x : ExceptT ε (StateM S) α).run.run s = (x, s) := by
  cases x <;> rfl

namespace Succeeds

@[simp] theorem pure_iff {a b : α} {s t : S} :
    Succeeds (pure a : ExceptT ε (StateM S) α) s b t ↔ a = b ∧ s = t := by
  change ((Except.ok a, s) : Except ε α × S) = (.ok b, t) ↔ _
  simp

@[simp] theorem throw_iff {e : ε} {a : α} {s t : S} :
    Succeeds (throw e : ExceptT ε (StateM S) α) s a t ↔ False := by
  change ((Except.error e, s) : Except ε α × S) = (.ok a, t) ↔ _
  simp

@[simp] theorem bind_iff {m : ExceptT ε (StateM S) α} {f : α → ExceptT ε (StateM S) β}
    {s u : S} {b : β} :
    Succeeds (m >>= f) s b u ↔ ∃ a t, Succeeds m s a t ∧ Succeeds (f a) t b u := by
  constructor
  · intro h
    rw [Succeeds, run_bind] at h
    match hm : m.run.run s, h with
    | (.ok a, t), h => exact ⟨a, t, hm, h⟩
    | (.error e, t), h => cases h
  · rintro ⟨a, t, hm, hf⟩
    rw [Succeeds, run_bind, hm]
    exact hf

@[simp] theorem get_iff {s t a : S} :
    Succeeds (get : ExceptT ε (StateM S) S) s a t ↔ s = a ∧ s = t := by
  change ((Except.ok s, s) : Except ε S × S) = (.ok a, t) ↔ _
  simp

@[simp] theorem set_iff {s t x : S} {u : PUnit} :
    Succeeds (set x : ExceptT ε (StateM S) PUnit) s u t ↔ x = t := by
  change ((Except.ok PUnit.unit, x) : Except ε PUnit × S) = (.ok u, t) ↔ _
  simp

@[simp] theorem modify_iff {f : S → S} {s t : S} {u : PUnit} :
    Succeeds (modify f : ExceptT ε (StateM S) PUnit) s u t ↔ f s = t := by
  change ((Except.ok PUnit.unit, f s) : Except ε PUnit × S) = (.ok u, t) ↔ _
  simp

@[simp] theorem ofExcept_iff {x : Except ε α} {s t : S} {a : α} :
    Succeeds (MonadExcept.ofExcept x : ExceptT ε (StateM S) α) s a t ↔ x = .ok a ∧ s = t := by
  cases x with
  | ok b => exact pure_iff.trans (by simp)
  | error e => exact throw_iff.trans (by simp)

end Succeeds

/-- A step keeps a relation between the states before and after it, also when it fails. -/
def Keeps (R : S → S → Prop) (m : ExceptT ε (StateM S) α) : Prop := ∀ s, R s (m.run.run s).2

section Keeps

variable {R : S → S → Prop} {m : ExceptT ε (StateM S) α}

theorem Keeps.of_succeeds (h : Keeps R m) {s t : S} {a : α} (hm : Succeeds m s a t) : R s t := by
  have hs := h s
  rw [hm] at hs
  exact hs

theorem keeps_pure (hrefl : ∀ s, R s s) (a : α) : Keeps R (pure a : ExceptT ε (StateM S) α) :=
  fun s => hrefl s

theorem keeps_throw (hrefl : ∀ s, R s s) (e : ε) : Keeps R (throw e : ExceptT ε (StateM S) α) :=
  fun s => hrefl s

theorem keeps_get_bind {f : S → ExceptT ε (StateM S) α} (hf : ∀ s, R s ((f s).run.run s).2) :
    Keeps R (get >>= f) := fun s => hf s

theorem keeps_modify {f : S → S} (hf : ∀ s, R s (f s)) :
    Keeps R (modify f : ExceptT ε (StateM S) PUnit) := fun s => hf s

theorem keeps_bind (htrans : ∀ s t u, R s t → R t u → R s u) {f : α → ExceptT ε (StateM S) β}
    (hm : Keeps R m) (hf : ∀ a, Keeps R (f a)) : Keeps R (m >>= f) := by
  intro s
  have hs := hm s
  rw [run_bind]
  match h : m.run.run s, hs with
  | (.ok a, t), hs => exact htrans s t _ hs (hf a t)
  | (.error e, t), hs => exact hs

end Keeps

/-- From every state with a property a step gives a value, and the state behind it has the
property too. -/
def Gives (I : S → Prop) (Q : α → Prop) (m : ExceptT ε (StateM S) α) : Prop :=
  ∀ s, I s → ∃ a t, Succeeds m s a t ∧ Q a ∧ I t

section Gives

variable {I : S → Prop} {P : α → Prop} {Q : β → Prop} {m : ExceptT ε (StateM S) α}

theorem gives_pure {a : α} (ha : P a) : Gives I P (pure a : ExceptT ε (StateM S) α) :=
  fun s hs => ⟨a, s, Succeeds.pure_iff.2 ⟨rfl, rfl⟩, ha, hs⟩

theorem gives_bind {f : α → ExceptT ε (StateM S) β} (hm : Gives I P m)
    (hf : ∀ a, P a → Gives I Q (f a)) : Gives I Q (m >>= f) := by
  intro s hs
  obtain ⟨a, t, hat, ha, ht⟩ := hm s hs
  obtain ⟨b, u, hbu, hb, hu⟩ := hf a ha t ht
  exact ⟨b, u, Succeeds.bind_iff.2 ⟨a, t, hat, hbu⟩, hb, hu⟩

theorem gives_get_bind {f : S → ExceptT ε (StateM S) β}
    (hf : ∀ s, I s → ∃ b t, Succeeds (f s) s b t ∧ Q b ∧ I t) : Gives I Q (get >>= f) := by
  intro s hs
  obtain ⟨b, t, hbt, hb, ht⟩ := hf s hs
  exact ⟨b, t, Succeeds.bind_iff.2 ⟨s, s, Succeeds.get_iff.2 ⟨rfl, rfl⟩, hbt⟩, hb, ht⟩

theorem gives_modify {f : S → S} (hf : ∀ s, I s → I (f s)) :
    Gives I (fun _ => True) (modify f : ExceptT ε (StateM S) PUnit) :=
  fun s hs => ⟨⟨⟩, f s, Succeeds.modify_iff.2 rfl, trivial, hf s hs⟩

theorem gives_ofExcept {x : Except ε α} {a : α} (hx : x = .ok a) (ha : P a) :
    Gives I P (MonadExcept.ofExcept x : ExceptT ε (StateM S) α) :=
  fun s hs => ⟨a, s, Succeeds.ofExcept_iff.2 ⟨hx, rfl⟩, ha, hs⟩

end Gives

end ParamLowering
