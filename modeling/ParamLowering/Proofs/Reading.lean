import ParamLowering.Proofs.Cursor
set_option autoImplicit false

/-!
Parsers that stay in a text.

A parser that reads from a cursor on a text goes on to another one, never back. What it gives
stands between the offset from which it read and the one up to which it read: from a bound on what
was read before, or from the token of a known cursor.
-/

namespace ParamLowering.Grammar

/-- What is listed stands one behind the other between two offsets. -/
inductive InOrder {α : Type} (Q : Nat → Nat → α → Prop) : Nat → Nat → List α → Prop where
  | nil {lo hi : Nat} (hle : lo ≤ hi) : InOrder Q lo hi []
  | cons {lo mid hi : Nat} {a : α} {as : List α} (ha : Q lo mid a) (has : InOrder Q mid hi as) :
    InOrder Q lo hi (a :: as)

namespace InOrder

variable {α β : Type} {Q : Nat → Nat → α → Prop} {lo hi : Nat} {as : List α}

theorem mono {R : Nat → Nat → α → Prop} (h : InOrder Q lo hi as)
    (hQ : ∀ {lo hi a}, Q lo hi a → R lo hi a) : InOrder R lo hi as := by
  induction h with
  | nil hle => exact .nil hle
  | cons ha _ ih => exact .cons (hQ ha) ih

theorem map {R : Nat → Nat → β → Prop} {f : α → β} (h : InOrder Q lo hi as)
    (hQ : ∀ {lo hi a}, Q lo hi a → R lo hi (f a)) : InOrder R lo hi (as.map f) := by
  induction h with
  | nil hle => exact .nil hle
  | cons ha _ ih => exact .cons (hQ ha) ih

theorem forall_mem {P : α → Prop} (h : InOrder Q lo hi as) (hQ : ∀ {lo hi a}, Q lo hi a → P a) :
    ∀ a ∈ as, P a := by
  induction h with
  | nil => simp
  | cons ha _ ih => exact List.forall_mem_cons.2 ⟨hQ ha, ih⟩

/-- Each of what is listed stands behind the first offset. -/
theorem forall_from (h : InOrder Q lo hi as) (hQ : ∀ {lo hi a}, Q lo hi a → lo ≤ hi) :
    ∀ a ∈ as, ∃ lo' hi', lo ≤ lo' ∧ Q lo' hi' a := by
  induction h with
  | nil => simp
  | cons ha _ ih =>
    refine List.forall_mem_cons.2 ⟨⟨_, _, Nat.le_refl _, ha⟩, fun b hb => ?_⟩
    obtain ⟨lo', hi', hle, hb⟩ := ih b hb
    exact ⟨lo', hi', Nat.le_trans (hQ ha) hle, hb⟩

theorem mono_left {lo' : Nat} (h : InOrder Q lo hi as) (hle : lo' ≤ lo)
    (hQ : ∀ {lo' lo hi a}, lo' ≤ lo → Q lo hi a → Q lo' hi a) : InOrder Q lo' hi as := by
  cases h with
  | nil hle' => exact .nil (Nat.le_trans hle hle')
  | cons ha has => exact .cons (hQ hle ha) has

theorem le (h : InOrder Q lo hi as) (hQ : ∀ {lo hi a}, Q lo hi a → lo ≤ hi) : lo ≤ hi := by
  induction h with
  | nil hle => exact hle
  | cons ha _ ih => exact Nat.le_trans (hQ ha) ih

end InOrder

namespace Parse

variable {α β : Type} {text : List Char} {lo : Nat} {c : Cursor}

theorem bind_eq_some {p : Parse α} {f : α → Parse β} {c c' : Cursor} {b : β} :
    (p >>= f) c = some (b, c') ↔ ∃ a d, p c = some (a, d) ∧ f a d = some (b, c') := by
  change (p c).bind (fun x => f x.1 x.2) = some (b, c') ↔ _
  simp [Option.bind_eq_some_iff]

/-- From certain cursors a parser goes on until the text was read up to an offset `hi`, and what
it gives has a property up to there. -/
def Runs (text : List Char) (lo : Nat) (P : Cursor → Prop) (p : Parse α) (Q : Nat → α → Prop) :
    Prop :=
  ∀ (c c' : Cursor) (a : α), P c → p c = some (a, c') → ∃ hi, lo ≤ hi ∧ c'.At text hi ∧ Q hi a

/-- A parser that runs wherever the text was read up to a bound. -/
abbrev Reads (text : List Char) (lo : Nat) (p : Parse α) (Q : Nat → α → Prop) : Prop :=
  Runs text lo (Cursor.At text lo) p Q

/-- A parser that runs from the token of a cursor. -/
abbrev Begins (text : List Char) (c : Cursor) (p : Parse α) (Q : Nat → α → Prop) : Prop :=
  Runs text c.start (Eq c) p Q

/-- A parser that only passes over text. -/
def Passes (text : List Char) (p : Parse α) : Prop :=
  ∀ (c c' : Cursor) (a : α), c.In text → p c = some (a, c') →
    c'.In text ∧ c.lastStop ≤ c'.lastStop

/-- A parser that reads nothing. -/
def Peeks (p : Parse α) : Prop := ∀ (c c' : Cursor) (a : α), p c = some (a, c') → c' = c

/-- A parser that gives nothing and leaves the cursor, or runs from its token. -/
def Offers (text : List Char) (c : Cursor) (p : Parse (Option α)) (Q : Nat → α → Prop) : Prop :=
  ∀ (c' : Cursor) (o : Option α), p c = some (o, c') →
    (o = none ∧ c' = c) ∨ ∃ a hi, o = some a ∧ c.start ≤ hi ∧ c'.At text hi ∧ Q hi a

/-! ### Peeking and skipping -/

namespace Peeks

variable {p : Parse α} {f : α → Parse β}

theorem seq (hp : Peeks p) (hf : ∀ a, Peeks (f a)) : Peeks (p >>= f) := by
  intro c c' b h
  obtain ⟨a, d, hpa, hfb⟩ := bind_eq_some.1 h
  obtain rfl := hp c d a hpa
  exact hf a _ c' b hfb

theorem pure (a : α) : Peeks (pure a : Parse α) :=
  fun _ _ _ h => (Prod.mk.inj (Option.some.inj h)).2.symm

theorem failure : Peeks (failure : Parse α) := by
  intro c c' a h
  cases h

theorem ite {b : Prop} [Decidable b] {q : Parse α} (hp : Peeks p) (hq : Peeks q) :
    Peeks (if b then p else q) := by
  split
  · exact hp
  · exact hq

theorem passes (hp : Peeks p) : Passes text p := by
  intro c c' a hc h
  obtain rfl := hp c c' a h
  exact ⟨hc, Nat.le_refl _⟩

theorem bind {P : Cursor → Prop} {R : Nat → β → Prop} (hp : Peeks p)
    (hf : ∀ a, Runs text lo P (f a) R) : Runs text lo P (p >>= f) R := by
  intro c c' b hc h
  obtain ⟨a, d, hpa, hfb⟩ := bind_eq_some.1 h
  obtain rfl := hp c d a hpa
  exact hf a _ c' b hc hfb

theorem offer {f : α → Parse (Option β)} {R : Nat → β → Prop} (hp : Peeks p)
    (hf : ∀ a, Offers text c (f a) R) : Offers text c (p >>= f) R := by
  intro c' b h
  obtain ⟨a, d, hpa, hfb⟩ := bind_eq_some.1 h
  obtain rfl := hp c d a hpa
  exact hf a c' b hfb

end Peeks

/-- What is only looked up in the cursor. -/
theorem peek (f : Cursor → α) : Peeks (do return f (← get)) :=
  fun _ _ _ h => (Prod.mk.inj (Option.some.inj h)).2.symm

theorem get_peeks : Peeks (get : Parse Cursor) := peek id

theorem token_peeks : Peeks token := peek _

theorem start_peeks : Peeks start := peek _

theorem onNewLine_peeks : Peeks onNewLine := peek _

theorem atMark_peeks (sign : String) : Peeks (atMark sign) := peek _

theorem atWord_peeks (name : String) : Peeks (atWord name) := peek _

theorem nextIs_peeks (f : Cursor → Bool) : Peeks (nextIs f) := peek _

theorem nextOnLineIs_peeks (f : Token → Bool) : Peeks (nextOnLineIs f) := peek _

theorem spanFrom_peeks (at_ : Nat) : Peeks (spanFrom at_) := peek _

theorem require_peeks (b : Bool) : Peeks (require b) := .ite (.pure _) .failure

theorem ahead_peeks (p : Parse Bool) : Peeks (ahead p) := by
  intro c c' b h
  rw [ahead] at h
  split at h <;> exact (Prod.mk.inj (Option.some.inj h)).2.symm

namespace Passes

variable {p : Parse α} {f : α → Parse β}

theorem seq (hp : Passes text p) (hf : ∀ a, Passes text (f a)) : Passes text (p >>= f) := by
  intro c c' b hc h
  obtain ⟨a, d, hpa, hfb⟩ := bind_eq_some.1 h
  obtain ⟨hd, hle⟩ := hp c d a hc hpa
  obtain ⟨hc', hle'⟩ := hf a d c' b hd hfb
  exact ⟨hc', Nat.le_trans hle hle'⟩

theorem pure (a : α) : Passes text (pure a : Parse α) := (Peeks.pure a).passes

theorem failure : Passes text (failure : Parse α) := Peeks.failure.passes

theorem ite {b : Prop} [Decidable b] {q : Parse α} (hp : Passes text p) (hq : Passes text q) :
    Passes text (if b then p else q) := by
  split
  · exact hp
  · exact hq

theorem map (hp : Passes text p) (f : α → β) : Passes text (f <$> p) := by
  intro c c' b hc h
  change (p c).bind (fun x => some (f x.1, x.2)) = some (b, c') at h
  obtain ⟨⟨a, d⟩, hpa, hfa⟩ := Option.bind_eq_some_iff.1 h
  obtain ⟨-, rfl⟩ := Prod.mk.inj (Option.some.inj hfa)
  exact hp c d a hc hpa

theorem bind {R : Nat → β → Prop} (hp : Passes text p) (hf : ∀ a, Reads text lo (f a) R) :
    Reads text lo (p >>= f) R := by
  intro c c' b hc h
  obtain ⟨a, d, hpa, hfb⟩ := bind_eq_some.1 h
  obtain ⟨hd, hle⟩ := hp c d a hc.inText hpa
  exact hf a d c' b ⟨hd, Nat.le_trans hc.bound hle⟩ hfb

/-- Two ways to one continuation. -/
theorem branch {b : Prop} [Decidable b] {q : Parse α} {R : Nat → β → Prop} (hp : Passes text p)
    (hq : Passes text q) (hf : ∀ a, Reads text lo (f a) R) :
    Reads text lo (if b then p >>= f else q >>= f) R := by
  split
  · exact hp.bind hf
  · exact hq.bind hf

theorem attempt (hp : Passes text p) : Passes text (attempt p) := by
  intro c c' o hc h
  rw [Parse.attempt] at h
  split at h
  · rename_i a d hpa
    obtain ⟨-, rfl⟩ := Prod.mk.inj (Option.some.inj h)
    exact hp c d a hc hpa
  · obtain ⟨-, rfl⟩ := Prod.mk.inj (Option.some.inj h)
    exact ⟨hc, Nat.le_refl _⟩

theorem repeated {step : Parse (Option α)} (hstep : Passes text step) (bound : Nat) :
    Passes text (repeated bound step) := by
  induction bound with
  | zero => exact .failure
  | succ bound ih =>
    refine hstep.seq fun o => ?_
    cases o with
    | none => exact .pure _
    | some a => exact ih.seq fun _ => .pure _

/-- The step that ends a repetition gives nothing. -/
theorem repeated_last {step : Parse (Option α)} (hstep : Passes text step) {bound : Nat}
    {c c' : Cursor} {as : List α} (hc : c.In text) (h : Parse.repeated bound step c = some (as, c')) :
    ∃ d, d.In text ∧ c.lastStop ≤ d.lastStop ∧ step d = some (none, c') := by
  induction bound generalizing c as with
  | zero => cases h
  | succ bound ih =>
    obtain ⟨o, d, ho, hrest⟩ := bind_eq_some.1 h
    cases o with
    | none =>
      obtain ⟨-, rfl⟩ := Prod.mk.inj (Option.some.inj hrest)
      exact ⟨c, hc, Nat.le_refl _, ho⟩
    | some a =>
      obtain ⟨more, e, hmore, heq⟩ := bind_eq_some.1 hrest
      obtain ⟨-, rfl⟩ := Prod.mk.inj (Option.some.inj heq)
      obtain ⟨hd, hle⟩ := hstep c d _ hc ho
      obtain ⟨last, hlast, hle', hnone⟩ := ih hd hmore
      exact ⟨last, hlast, Nat.le_trans hle hle', hnone⟩

end Passes

theorem skip_passes : Passes text skip := by
  intro c c' a hc h
  obtain ⟨-, rfl⟩ := Prod.mk.inj (Option.some.inj h)
  exact ⟨hc.next, Nat.le_trans hc.lastStop_le_start
    (Nat.le_trans hc.start_le_ahead hc.next_at.bound)⟩

theorem mark?_passes (sign : String) : Passes text (mark? sign) :=
  (atMark_peeks sign).passes.seq fun _ => .ite (skip_passes.seq fun _ => .pure _) (.pure _)

theorem word?_passes (name : String) : Passes text (word? name) :=
  (atWord_peeks name).passes.seq fun _ => .ite (skip_passes.seq fun _ => .pure _) (.pure _)

theorem mark_passes (sign : String) : Passes text (mark sign) :=
  (mark?_passes sign).seq fun _ => .ite .failure (.pure _)

theorem word_passes (name : String) : Passes text (word name) :=
  (word?_passes name).seq fun _ => .ite .failure (.pure _)

theorem semicolon_passes : Passes text semicolon :=
  (mark?_passes ";").seq fun _ => .ite (.pure _) <|
    get_peeks.passes.seq fun _ => (require_peeks _).passes

theorem anyName_passes : Passes text anyName := by
  refine get_peeks.passes.seq fun c => ?_
  split
  · exact skip_passes.seq fun _ => .pure _
  · exact .failure

theorem ident_passes : Passes text ident := by
  refine token_peeks.passes.seq fun t => ?_
  split
  · exact (require_peeks _).passes.seq fun _ => anyName_passes
  · exact .failure

theorem Passes.separated {p : Parse α} (hp : Passes text p) (separator : String) (bound : Nat) :
    Passes text (Parse.separated bound separator p) := by
  induction bound with
  | zero => exact .failure
  | succ bound ih =>
    exact hp.seq fun _ => (mark?_passes separator).seq fun _ =>
      .ite (ih.seq fun _ => .pure _) (.pure _)

/-! ### Reading parts -/

namespace Runs

variable {P : Cursor → Prop} {p : Parse α} {f : α → Parse β} {Q S : Nat → α → Prop}
  {R : Nat → β → Prop}

theorem bind (hp : Runs text lo P p Q) (hf : ∀ hi a, Q hi a → Reads text hi (f a) R) :
    Runs text lo P (p >>= f) R := by
  intro c c' b hc h
  obtain ⟨a, d, hpa, hfb⟩ := bind_eq_some.1 h
  obtain ⟨mid, hle, hd, ha⟩ := hp c d a hc hpa
  obtain ⟨hi, hle', hc', hb⟩ := hf mid a ha d c' b hd hfb
  exact ⟨hi, Nat.le_trans hle hle', hc', hb⟩

theorem pure {a : α} (ha : Q lo a) : Reads text lo (pure a) Q := by
  intro c c' b hc h
  obtain ⟨rfl, rfl⟩ := Prod.mk.inj (Option.some.inj h)
  exact ⟨lo, Nat.le_refl _, hc, ha⟩

theorem failure : Runs text lo P (failure : Parse α) Q := by
  intro c c' a hc h
  cases h

theorem mono (hp : Runs text lo P p Q) (h : ∀ hi a, Q hi a → S hi a) : Runs text lo P p S := by
  intro c c' a hc ha
  obtain ⟨hi, hle, hc', hpa⟩ := hp c c' a hc ha
  exact ⟨hi, hle, hc', h hi a hpa⟩

theorem ite {b : Prop} [Decidable b] {q : Parse α} (hp : b → Runs text lo P p Q)
    (hq : ¬b → Runs text lo P q Q) : Runs text lo P (if b then p else q) Q := by
  split
  · exact hp ‹_›
  · exact hq ‹_›

/-- What was read is not looked at any more. -/
theorem drop (hp : Reads text lo p Q) (hf : ∀ a, Reads text lo (f a) R) :
    Reads text lo (p >>= f) R := by
  intro c c' b hc h
  obtain ⟨a, d, hpa, hfb⟩ := bind_eq_some.1 h
  obtain ⟨mid, hle, hd, -⟩ := hp c d a hc hpa
  exact hf a d c' b (hd.mono hle) hfb

/-- Two ways to one continuation. -/
theorem branch {b : Prop} [Decidable b] {q : Parse α} (hp : Runs text lo P p Q)
    (hq : Runs text lo P q Q) (hf : ∀ hi a, Q hi a → Reads text hi (f a) R) :
    Runs text lo P (if b then p >>= f else q >>= f) R :=
  .ite (fun _ => hp.bind hf) fun _ => hq.bind hf

/-- Something that may be passed over in front of the rest. -/
theorem optional {b : Prop} [Decidable b] {q : Parse β} (hp : Passes text p)
    (hq : Reads text lo q R) : Reads text lo (if b then p >>= fun _ => q else q) R :=
  .ite (fun _ => hp.bind fun _ => hq) fun _ => hq

/-- Something made of what may be read, or something that stands in for it. -/
theorem made {γ : Type} {b : Prop} [Decidable b] {make : α → γ} {other : γ} {S : Nat → γ → Prop}
    {k : γ → Parse β} (hp : Reads text lo p fun hi a => S hi (make a)) (hother : S lo other)
    (hk : ∀ hi x, S hi x → Reads text hi (k x) R) :
    Reads text lo (if b then p >>= fun a => Pure.pure (make a) >>= k else Pure.pure other >>= k) R :=
  .ite (fun _ => hp.bind fun hi a ha => hk hi (make a) ha) fun _ => hk lo other hother

/-- Something that may be read, or something else in its place. -/
theorem orElse {p : Parse (Option α)} {f : Option α → Parse β}
    (hp : Reads text lo p fun hi o => ∀ a ∈ o, Q hi a)
    (hsome : ∀ hi a, Q hi a → Reads text hi (f (some a)) R) (hnone : Reads text lo (f none) R) :
    Reads text lo (p >>= f) R := by
  intro c c' b hc h
  obtain ⟨o, d, ho, hfb⟩ := bind_eq_some.1 h
  obtain ⟨mid, hle, hd, hgiven⟩ := hp c d o hc ho
  cases o with
  | none => exact hnone d c' b (hd.mono hle) hfb
  | some a =>
    obtain ⟨hi, hle', hc', hb⟩ := hsome mid a (hgiven a rfl) d c' b hd hfb
    exact ⟨hi, Nat.le_trans hle hle', hc', hb⟩

theorem absent : Reads text lo (Pure.pure none) fun hi (o : Option α) => ∀ a ∈ o, Q hi a :=
  .pure (by simp)

theorem present (hp : Runs text lo P p Q) :
    Runs text lo P (do return some (← p)) fun hi o => ∀ a ∈ o, Q hi a :=
  hp.bind fun hi a ha => .pure (by simpa using ha)

theorem attempt {S : Nat → Option α → Prop} (hp : Reads text lo p fun hi a => S hi (some a))
    (hnone : S lo none) : Reads text lo (attempt p) S := by
  intro c c' o hc h
  rw [Parse.attempt] at h
  split at h
  · rename_i a d hpa
    obtain ⟨rfl, rfl⟩ := Prod.mk.inj (Option.some.inj h)
    exact hp c d a hc hpa
  · obtain ⟨rfl, rfl⟩ := Prod.mk.inj (Option.some.inj h)
    exact ⟨lo, Nat.le_refl _, hc, hnone⟩

theorem passes {S : Nat → Nat → α → Prop} (hp : ∀ lo, Reads text lo p (S lo)) :
    Passes text p := by
  intro c c' a hc h
  obtain ⟨hi, hle, hc', -⟩ := hp c.lastStop c c' a ⟨hc, Nat.le_refl _⟩ h
  exact ⟨hc'.inText, Nat.le_trans hle hc'.bound⟩

/-- What runs from every token behind a bound. -/
theorem of_begins (hp : ∀ c : Cursor, c.In text → lo ≤ c.start → Begins text c p Q) :
    Reads text lo p Q := by
  intro c c' a hc h
  obtain ⟨hi, hle, hc', ha⟩ := hp c hc.inText hc.le_start c c' a rfl h
  exact ⟨hi, Nat.le_trans hc.le_start hle, hc', ha⟩

end Runs

theorem Passes.of_begins {p : Parse α}
    (hp : ∀ c : Cursor, c.In text → Begins text c p fun _ _ => True) : Passes text p :=
  Runs.passes (S := fun _ _ _ => True) fun _ => .of_begins fun c hc _ => hp c hc

section

variable {Q : Nat → Nat → α → Prop}

theorem repeated_reads {step : Parse (Option α)}
    (hstep : ∀ lo, Reads text lo step fun hi o => ∀ a ∈ o, Q lo hi a) (bound : Nat) :
    Reads text lo (repeated bound step) fun hi as => InOrder Q lo hi as := by
  induction bound generalizing lo with
  | zero => exact .failure
  | succ bound ih =>
    intro c c' as hc h
    obtain ⟨o, d, ho, hrest⟩ := bind_eq_some.1 h
    obtain ⟨mid, hle, hd, hgiven⟩ := hstep lo c d o hc ho
    cases o with
    | none =>
      obtain ⟨rfl, rfl⟩ := Prod.mk.inj (Option.some.inj hrest)
      exact ⟨mid, hle, hd, .nil hle⟩
    | some a =>
      obtain ⟨more, e, hmore, heq⟩ := bind_eq_some.1 hrest
      obtain ⟨rfl, rfl⟩ := Prod.mk.inj (Option.some.inj heq)
      obtain ⟨hi, hle', he, hin⟩ := ih d e more hd hmore
      exact ⟨hi, Nat.le_trans hle hle', he, .cons (hgiven a rfl) hin⟩

theorem items_reads {p : Parse α} (hp : ∀ lo, Reads text lo p (Q lo)) (close : String)
    (bound : Nat) : Reads text lo (items bound close p) fun hi as => InOrder Q lo hi as := by
  induction bound generalizing lo with
  | zero => exact .failure
  | succ bound ih =>
    refine (mark?_passes close).bind fun _ => .ite (fun _ => .pure (.nil (Nat.le_refl _))) fun _ => ?_
    refine (hp lo).bind fun mid a ha => (mark?_passes ",").bind fun _ => .ite (fun _ => ?_) fun _ => ?_
    · exact ih.bind fun _ as has => .pure (.cons ha has)
    · exact (mark_passes close).bind fun _ => .pure (.cons ha (.nil (Nat.le_refl _)))

theorem separated_reads {p : Parse α} (hp : ∀ lo, Reads text lo p (Q lo)) (separator : String)
    (bound : Nat) :
    Reads text lo (separated bound separator p) fun hi as => InOrder Q lo hi as := by
  induction bound generalizing lo with
  | zero => exact .failure
  | succ bound ih =>
    refine (hp lo).bind fun mid a ha => (mark?_passes separator).bind fun _ => .ite (fun _ => ?_)
      fun _ => .pure (.cons ha (.nil (Nat.le_refl _)))
    exact ih.bind fun _ as has => .pure (.cons ha has)

end

/-- A span that began at an offset ends where the text was read up to. -/
theorem spanFrom_reads (at_ : Nat) : Reads text lo (spanFrom at_)
    fun hi s => lo ≤ hi ∧ s = ⟨at_, hi⟩ ∧ Text.isBoundary text hi = true := by
  intro c c' s hc h
  obtain ⟨rfl, rfl⟩ := Prod.mk.inj (Option.some.inj h)
  exact ⟨c.lastStop, hc.bound, ⟨hc.inText, Nat.le_refl _⟩, hc.bound, rfl,
    hc.inText.isBoundary_lastStop⟩

theorem resume_runs {q : Place} (hq : q.In text) (hlo : lo ≤ q.offset) {P : Cursor → Prop} :
    Runs text lo P (resume q) fun hi _ => hi = q.offset := by
  intro c c' u _ h
  obtain ⟨-, rfl⟩ := Prod.mk.inj (Option.some.inj h)
  exact ⟨q.offset, hlo, .behind hq (Nat.le_refl _), rfl⟩

/-! ### Reading from a token -/

theorem mark?_eq_some {sign : String} {c c' : Cursor} {b : Bool}
    (h : mark? sign c = some (b, c')) :
    (b = true ∧ c.token.isMark sign = true ∧ c' = c.next) ∨ (b = false ∧ c' = c) := by
  change (if c.token.isMark sign then _ else _ : Parse Bool) c = some (b, c') at h
  split at h
  · obtain ⟨rfl, rfl⟩ := Prod.mk.inj (Option.some.inj h)
    exact .inl ⟨rfl, ‹_›, rfl⟩
  · obtain ⟨rfl, rfl⟩ := Prod.mk.inj (Option.some.inj h)
    exact .inr ⟨rfl, rfl⟩

theorem word?_eq_some {name : String} {c c' : Cursor} {b : Bool}
    (h : word? name c = some (b, c')) :
    (b = true ∧ c.token.isWord name = true ∧ c' = c.next) ∨ (b = false ∧ c' = c) := by
  change (if c.token.isWord name then _ else _ : Parse Bool) c = some (b, c') at h
  split at h
  · obtain ⟨rfl, rfl⟩ := Prod.mk.inj (Option.some.inj h)
    exact .inl ⟨rfl, ‹_›, rfl⟩
  · obtain ⟨rfl, rfl⟩ := Prod.mk.inj (Option.some.inj h)
    exact .inr ⟨rfl, rfl⟩

theorem mark_eq_some {sign : String} {c c' : Cursor} {u : Unit} (h : mark sign c = some (u, c')) :
    c.token.isMark sign = true ∧ c' = c.next := by
  obtain ⟨b, d, hb, hrest⟩ := bind_eq_some.1 h
  rcases mark?_eq_some hb with ⟨rfl, htoken, rfl⟩ | ⟨rfl, rfl⟩
  · obtain ⟨-, rfl⟩ := Prod.mk.inj (Option.some.inj hrest)
    exact ⟨htoken, rfl⟩
  · cases hrest

theorem word_eq_some {name : String} {c c' : Cursor} {u : Unit} (h : word name c = some (u, c')) :
    c.token.isWord name = true ∧ c' = c.next := by
  obtain ⟨b, d, hb, hrest⟩ := bind_eq_some.1 h
  rcases word?_eq_some hb with ⟨rfl, htoken, rfl⟩ | ⟨rfl, rfl⟩
  · obtain ⟨-, rfl⟩ := Prod.mk.inj (Option.some.inj hrest)
    exact ⟨htoken, rfl⟩
  · cases hrest

theorem anyName_eq_some {c c' : Cursor} {id : Tree.Ident} (h : anyName c = some (id, c')) :
    c.token.Opens ∧ id.span = ⟨c.start, c.ahead.offset⟩ ∧ c' = c.next := by
  obtain ⟨d, e, hget, hrest⟩ := bind_eq_some.1 h
  obtain ⟨rfl, rfl⟩ := Prod.mk.inj (Option.some.inj hget)
  cases htoken : c.token with
  | word name escaped =>
    rw [htoken] at hrest
    obtain ⟨rfl, rfl⟩ := Prod.mk.inj (Option.some.inj hrest)
    exact ⟨⟨⟨nofun, nofun⟩, nofun⟩, rfl, rfl⟩
  | _ =>
    rw [htoken] at hrest
    cases hrest

section

variable {f : α → Parse β} {Q : Nat → α → Prop} {R : Nat → β → Prop}

/-- A construct that has to do with its first token. -/
theorem begins_start {f : Nat → Parse β} (h : Begins text c (f c.start) R) :
    Begins text c (start >>= f) R := by
  rintro _ c' b rfl hrun
  exact h c c' b rfl hrun

theorem begins_token {f : Token → Parse β} (h : Begins text c (f c.token) R) :
    Begins text c (token >>= f) R := by
  rintro _ c' b rfl hrun
  exact h c c' b rfl hrun

theorem begins_get {f : Cursor → Parse β} (h : Begins text c (f c) R) :
    Begins text c (get >>= f) R := by
  rintro _ c' b rfl hrun
  exact h c c' b rfl hrun

/-- What is looked up in a known cursor is known. -/
theorem begins_peek {p : Parse α} {f : α → Parse β} (hp : Peeks p)
    (hf : ∀ a, p c = some (a, c) → Begins text c (f a) R) : Begins text c (p >>= f) R := by
  rintro _ c' b rfl h
  obtain ⟨a, d, hpa, hfb⟩ := bind_eq_some.1 h
  obtain rfl := hp c d a hpa
  exact hf a hpa _ c' b rfl hfb

variable (hc : c.In text)

include hc

theorem skip_goes : Begins text c skip fun hi _ => c.start ≤ hi := by
  rintro _ c' a rfl h
  obtain ⟨-, rfl⟩ := Prod.mk.inj (Option.some.inj h)
  exact ⟨_, hc.start_le_ahead, hc.next_at, hc.start_le_ahead⟩

theorem skip_begins (ht : c.token.Opens) : Begins text c skip fun hi _ => Began text c.start hi := by
  rintro _ c' a rfl h
  obtain ⟨-, rfl⟩ := Prod.mk.inj (Option.some.inj h)
  exact ⟨_, hc.start_le_ahead, hc.next_at, hc.began ht⟩

theorem mark_begins {sign : String} (hsign : sign ≠ ",") :
    Begins text c (mark sign) fun hi _ => Began text c.start hi := by
  rintro _ c' a rfl h
  obtain ⟨htoken, rfl⟩ := mark_eq_some h
  exact ⟨_, hc.start_le_ahead, hc.next_at, hc.began (Token.opens_of_isMark htoken hsign)⟩

theorem word_begins (name : String) :
    Begins text c (word name) fun hi _ => Began text c.start hi := by
  rintro _ c' a rfl h
  obtain ⟨htoken, rfl⟩ := word_eq_some h
  exact ⟨_, hc.start_le_ahead, hc.next_at, hc.began (Token.opens_of_isWord htoken)⟩

theorem anyName_begins : Begins text c anyName
    fun hi id => Began text c.start hi ∧ id.span = ⟨c.start, hi⟩ ∧ Text.isBoundary text hi = true := by
  rintro _ c' id rfl h
  obtain ⟨hopens, hspan, rfl⟩ := anyName_eq_some h
  exact ⟨_, hc.start_le_ahead, hc.next_at, hc.began hopens, hspan, hc.ahead_in.isBoundary⟩

theorem ident_begins : Begins text c ident
    fun hi id => Began text c.start hi ∧ id.span = ⟨c.start, hi⟩ ∧ Text.isBoundary text hi = true := by
  refine token_peeks.bind fun t => ?_
  split
  · exact (require_peeks _).bind fun _ => anyName_begins hc
  · exact .failure

theorem begins_mark? {sign : String} {f : Bool → Parse β}
    (hread : c.token.isMark sign = true → Reads text c.ahead.offset (f true) R)
    (hleft : Begins text c (f false) R) : Begins text c (mark? sign >>= f) R := by
  rintro _ c' b rfl h
  obtain ⟨read, d, hmark, hrest⟩ := bind_eq_some.1 h
  rcases mark?_eq_some hmark with ⟨rfl, htoken, rfl⟩ | ⟨rfl, rfl⟩
  · obtain ⟨hi, hle, hc', hb⟩ := hread htoken _ c' b hc.next_at hrest
    exact ⟨hi, Nat.le_trans hc.start_le_ahead hle, hc', hb⟩
  · exact hleft _ c' b rfl hrest

theorem begins_word? {name : String} {f : Bool → Parse β}
    (hread : c.token.isWord name = true → Reads text c.ahead.offset (f true) R)
    (hleft : Begins text c (f false) R) : Begins text c (word? name >>= f) R := by
  rintro _ c' b rfl h
  obtain ⟨read, d, hmark, hrest⟩ := bind_eq_some.1 h
  rcases word?_eq_some hmark with ⟨rfl, htoken, rfl⟩ | ⟨rfl, rfl⟩
  · obtain ⟨hi, hle, hc', hb⟩ := hread htoken _ c' b hc.next_at hrest
    exact ⟨hi, Nat.le_trans hc.start_le_ahead hle, hc', hb⟩
  · exact hleft _ c' b rfl hrest

/-- A sign that may be there tells how to go on. -/
theorem begins_ifMark {sign : String} {p q : Parse β}
    (hread : c.token.isMark sign = true → Reads text c.ahead.offset p R)
    (hleft : Begins text c q R) : Begins text c (do if ← mark? sign then p else q) R :=
  begins_mark? hc (fun h => .ite (fun _ => hread h) (fun hfalse => absurd rfl hfalse))
    (.ite nofun fun _ => hleft)

end

namespace Offers

variable {Q : Nat → α → Prop} {R : Nat → β → Prop} {p : Parse (Option α)}

theorem nothing : Offers text c (Pure.pure none) Q := by
  intro c' o h
  obtain ⟨rfl, rfl⟩ := Prod.mk.inj (Option.some.inj h)
  exact .inl ⟨rfl, rfl⟩

theorem of_runs (h : Begins text c p fun hi o => ∃ a, o = some a ∧ Q hi a) : Offers text c p Q := by
  intro c' o hrun
  obtain ⟨hi, hle, hc', a, rfl, ha⟩ := h c c' o rfl hrun
  exact .inr ⟨a, hi, rfl, hle, hc', ha⟩

theorem given {p : Parse α} (hp : Begins text c p Q) :
    Offers text c (do return some (← p)) Q :=
  .of_runs (hp.bind fun _ a ha => .pure ⟨a, rfl, ha⟩)

theorem attempt {p : Parse α} (hp : Begins text c p Q) : Offers text c (attempt p) Q := by
  intro c' o h
  rw [Parse.attempt] at h
  split at h
  · rename_i a d hpa
    obtain ⟨rfl, rfl⟩ := Prod.mk.inj (Option.some.inj h)
    obtain ⟨hi, hle, hd, ha⟩ := hp c d a rfl hpa
    exact .inr ⟨a, hi, rfl, hle, hd, ha⟩
  · obtain ⟨rfl, rfl⟩ := Prod.mk.inj (Option.some.inj h)
    exact .inl ⟨rfl, rfl⟩

theorem ite {b : Prop} [Decidable b] {q : Parse (Option α)} (hp : b → Offers text c p Q)
    (hq : ¬b → Offers text c q Q) : Offers text c (if b then p else q) Q := by
  split
  · exact hp ‹_›
  · exact hq ‹_›

theorem bind {f : Option α → Parse β} (hp : Offers text c p Q)
    (hsome : ∀ hi a, Q hi a → Reads text hi (f (some a)) R) (hnone : Begins text c (f none) R) :
    Begins text c (p >>= f) R := by
  rintro _ c' b rfl h
  obtain ⟨o, d, ho, hrest⟩ := bind_eq_some.1 h
  rcases hp d o ho with ⟨rfl, rfl⟩ | ⟨a, mid, rfl, hle, hd, ha⟩
  · exact hnone _ c' b rfl hrest
  · obtain ⟨hi, hle', hc', hb⟩ := hsome mid a ha d c' b hd hrest
    exact ⟨hi, Nat.le_trans hle hle', hc', hb⟩

/-- If nothing is given, something else is offered. -/
theorem orElse {f : Option α → Parse (Option β)} (hp : Offers text c p Q)
    (hsome : ∀ hi a, Q hi a → Reads text hi (f (some a)) fun hi o => ∃ b, o = some b ∧ R hi b)
    (hnone : Offers text c (f none) R) : Offers text c (p >>= f) R := by
  intro c' b h
  obtain ⟨o, d, ho, hrest⟩ := bind_eq_some.1 h
  rcases hp d o ho with ⟨rfl, rfl⟩ | ⟨a, mid, rfl, hle, hd, ha⟩
  · exact hnone c' b hrest
  · obtain ⟨hi, hle', hc', x, rfl, hx⟩ := hsome mid a ha d c' b hd hrest
    exact .inr ⟨x, hi, rfl, Nat.le_trans hle hle', hc', hx⟩

theorem peek {f : β → Parse (Option α)} {q : Parse β} (hq : Peeks q)
    (hf : ∀ b, q c = some (b, c) → Offers text c (f b) Q) : Offers text c (q >>= f) Q := by
  intro c' o h
  obtain ⟨b, d, hqb, hfo⟩ := bind_eq_some.1 h
  obtain rfl := hq c d b hqb
  exact hf b hqb c' o hfo

theorem start {f : Nat → Parse (Option α)} (h : Offers text c (f c.start) Q) :
    Offers text c (Parse.start >>= f) Q :=
  h

theorem token {f : Token → Parse (Option α)} (h : Offers text c (f c.token) Q) :
    Offers text c (Parse.token >>= f) Q :=
  h

/-- Steps on offer in front of a construct. If none was taken, the construct begins with the token
that stands there, and if one was taken, that says something about this token. -/
theorem repeated_bind {Q : Nat → Nat → α → Prop} {F : Cursor → Prop} {step : Parse (Option α)}
    (hstep : ∀ c : Cursor, c.In text → Offers text c step fun hi a => F c ∧ Q c.start hi a)
    (hQ : ∀ {lo' lo hi a}, lo' ≤ lo → Q lo hi a → Q lo' hi a) (hc : c.In text)
    {f : List α → Parse β} (hnone : Begins text c (f []) R)
    (hsome : ∀ (d : Cursor) (as : List α), d.In text → as ≠ [] → F c →
      InOrder Q c.start d.start as → Begins text d (f as) R) (bound : Nat) :
    Begins text c (repeated bound step >>= f) R := by
  have hsteps : ∀ (bound : Nat) (c d : Cursor) (as : List α), c.In text →
      repeated bound step c = some (as, d) → d.In text ∧ c.start ≤ d.start ∧
        InOrder Q c.start d.start as ∧ (as = [] ∧ d = c ∨ as ≠ [] ∧ F c) := by
    intro bound
    induction bound with
    | zero =>
      intro c d as _ h
      cases h
    | succ bound ih =>
      intro c d as hc h
      obtain ⟨o, e, ho, hrest⟩ := bind_eq_some.1 h
      rcases hstep c hc e o ho with ⟨rfl, rfl⟩ | ⟨a, mid, rfl, hle, he, hfirst, ha⟩
      · obtain ⟨rfl, rfl⟩ := Prod.mk.inj (Option.some.inj hrest)
        exact ⟨hc, Nat.le_refl _, .nil (Nat.le_refl _), .inl ⟨rfl, rfl⟩⟩
      · obtain ⟨more, e', hmore, heq⟩ := bind_eq_some.1 hrest
        obtain ⟨rfl, rfl⟩ := Prod.mk.inj (Option.some.inj heq)
        obtain ⟨hd, hle', hin, -⟩ := ih e e' more he.inText hmore
        have hmid := he.le_start
        exact ⟨hd, Nat.le_trans hle (Nat.le_trans hmid hle'), .cons ha (hin.mono_left hmid hQ),
          .inr ⟨List.cons_ne_nil _ _, hfirst⟩⟩
  rintro _ c' b rfl h
  obtain ⟨as, d, has, hrest⟩ := bind_eq_some.1 h
  obtain ⟨hd, hle, hin, ⟨rfl, rfl⟩ | ⟨hne, hfirst⟩⟩ := hsteps bound c d as hc has
  · exact hnone _ c' b rfl hrest
  · obtain ⟨hi, hle', hc', hb⟩ := hsome d as hd hne hfirst hin d c' b rfl hrest
    exact ⟨hi, Nat.le_trans hle hle', hc', hb⟩

end Offers

end Parse

end ParamLowering.Grammar
