import ParamLowering.Discovery
import ParamLowering.Proofs.FileEdits
import ParamLowering.Proofs.Totality
set_option autoImplicit false

/-!
Trees whose ranges address a text.

The parts of a construct lie in ranges of which no two overlap, though not always in their order
in the tree. Parameters stand in their order, each before the next and all before the body, and
what the lowering reads or replaces is text.
-/

namespace ParamLowering

open ParamLowering.Tree

/-! ### Ranges -/

namespace Span

/-- A piece of text that begins with neither a blank nor a comma. -/
structure Solid (source : List Char) (s : Span) : Prop where
  nonempty : s.start < s.stop
  opens : ∃ c after, Text.from? source s.start = some (c :: after) ∧ Text.isBlank c = false ∧ c ≠ ','
  stop : Text.isBoundary source s.stop = true

def Within (inner outer : Span) : Prop := outer.start ≤ inner.start ∧ inner.stop ≤ outer.stop

/-- No byte belongs to both ranges. -/
def Apart (a b : Span) : Prop := a.stop ≤ b.start ∨ b.stop ≤ a.start

/-- Ranges inside another one, side by side in any order. -/
structure Spread (outer : Span) (rs : List Span) : Prop where
  within : ∀ r ∈ rs, r.Within outer
  apart : rs.Pairwise Apart

instance : DecidableRel Within := fun a b =>
  inferInstanceAs (Decidable (b.start ≤ a.start ∧ a.stop ≤ b.stop))

instance : DecidableRel Apart := fun a b =>
  inferInstanceAs (Decidable (a.stop ≤ b.start ∨ b.stop ≤ a.start))

theorem Spread.apart_of_append {r : Span} {ps bs : List Span} (h : r.Spread (ps ++ bs)) :
    ps.Pairwise Apart ∧ bs.Pairwise Apart ∧ ∀ p ∈ ps, ∀ b ∈ bs, p.Apart b :=
  List.pairwise_append.1 h.apart

theorem Apart.symm {a b : Span} (h : a.Apart b) : b.Apart a := Or.symm h

theorem Solid.isBoundary_start {source : List Char} {s : Span} (h : s.Solid source) :
    Text.isBoundary source s.start = true := by
  obtain ⟨c, after, hafter, -, -⟩ := h.opens
  obtain ⟨before, hsource, hlength⟩ := Text.from?_eq_some_iff.1 hafter
  exact Text.isBoundary_iff.2 ⟨before, c :: after, hsource, hlength⟩

theorem isText_of_boundaries {source : List Char} {s : Span}
    (hstart : Text.isBoundary source s.start = true) (hstop : Text.isBoundary source s.stop = true)
    (hle : s.start ≤ s.stop) : s.IsText source := by
  obtain ⟨before, part, after, hsource, hbefore, hpart⟩ := Text.exists_split hstart hstop hle
  exact ⟨part, Text.slice?_eq_some_iff.2 ⟨before, after, hsource, hbefore, hpart⟩⟩

theorem Solid.isText {source : List Char} {s : Span} (h : s.Solid source) : s.IsText source :=
  isText_of_boundaries h.isBoundary_start h.stop (Nat.le_of_lt h.nonempty)

end Span

/-! ### Trees -/

namespace Tree

/-- The ranges that a parameter takes up in its list: its own, and that of its default. -/
def Target.elements : Target → List Span
  | .withDefault target value => [target.span, value.span]
  | target => [target.span]

/-- A parameter stands in a range of its list. -/
structure Target.Lies (source : List Char) (target : Target) (r : Span) : Prop where
  solid : ∀ s ∈ target.elements, s.Solid source
  inOrder : target.elements.Pairwise fun a b => a.stop ≤ b.start
  within : ∀ s ∈ target.elements, s.Within r

/-- The place where a body with these statements gets its new ones. -/
def bodyAnchor (bodySpan : Span) (body : List Node) : Nat :=
  (body.head?.map (·.span.start)).getD (bodySpan.start + 1)

/-- A function stands in a range: its parameters one after another in `ps`, then its body with
the statements in `bs`. -/
structure FunctionLies (source : List Char) (r : Span) (params : List Target) (bodySpan : Span)
    (body : List Node) (ps bs : List Span) : Prop where
  params : List.Forall₂ (Target.Lies source) params ps
  inOrder : ps.Pairwise fun a b => a.stop ≤ b.start
  beforeBody : ∀ p ∈ ps, p.Within ⟨r.start, bodySpan.start⟩
  within : bodySpan.Within r
  brace : ∃ c after, Text.from? source bodySpan.start = some (c :: after) ∧
    Text.isBlank c = false ∧ c ≠ ',' ∧ c.utf8Size = 1
  anchor : bodySpan.start < bodyAnchor bodySpan body ∧ bodyAnchor bodySpan body ≤ bodySpan.stop
  boundary : Text.isBoundary source (bodyAnchor bodySpan body) = true
  statements : (⟨bodyAnchor bodySpan body, bodySpan.stop⟩ : Span).Spread bs

mutual
/-- A part of the tree stands in a range of the source. -/
def Node.Placed (source : List Char) : Node → Span → Prop
  | .name _, _ | .functionName _, _ | .className _, _ => True
  | .group _ parts, r => ∃ rs, r.Spread rs ∧ Node.AllPlaced source parts rs
  | .function _ _ params bodySpan body, r => ∃ ps bs,
    FunctionLies source r params bodySpan body ps bs ∧
      Target.AllPlaced source params ps ∧ Node.AllPlaced source body bs
  | .closure _ params body, r | .handler _ params body, r => ∃ ps bs, r.Spread (ps ++ bs) ∧
    Target.AllPlaced source params ps ∧ Node.AllPlaced source body bs
  | .block _ body, r => ∃ rs, r.Spread rs ∧ Node.AllPlaced source body rs
  | .declaration _ _ targets, r => ∃ rs, r.Spread rs ∧ Target.AllPlaced source targets rs

def Node.AllPlaced (source : List Char) : List Node → List Span → Prop
  | [], rs => rs = []
  | n :: ns, rs => ∃ r rest, rs = r :: rest ∧ n.Placed source r ∧ Node.AllPlaced source ns rest

def Target.Placed (source : List Char) : Target → Span → Prop
  | .name _ _ notes, r => ∃ rs, r.Spread rs ∧ Node.AllPlaced source notes rs
  | .object _ fields notes, r => ∃ fs ns, r.Spread (fs ++ ns) ∧
    Field.AllPlaced source fields fs ∧ Node.AllPlaced source notes ns
  | .array _ slots notes, r => ∃ ss ns, r.Spread (ss ++ ns) ∧
    Slot.AllPlaced source slots ss ∧ Node.AllPlaced source notes ns
  | .rest _ target notes, r => ∃ t ns, r.Spread (t :: ns) ∧
    target.Placed source t ∧ Node.AllPlaced source notes ns
  | .withDefault target value, r => value.span.IsText source ∧ ∃ t v, r.Spread [t, v] ∧
    target.Placed source t ∧ value.Placed source v
  | .undeclared target, r => target.Placed source r

def Target.AllPlaced (source : List Char) : List Target → List Span → Prop
  | [], rs => rs = []
  | t :: ts, rs => ∃ r rest, rs = r :: rest ∧ t.Placed source r ∧ Target.AllPlaced source ts rest

def Field.Placed (source : List Char) : Field → Span → Prop
  | .keyed key keyParts value, r => (∀ k ∈ key, k.Sliceable source) ∧ ∃ ks v, r.Spread (ks ++ [v]) ∧
    Node.AllPlaced source keyParts ks ∧ value.Placed source v
  | .shorthand _ none, _ => True
  | .shorthand _ (some value), r => value.span.IsText source ∧ value.Placed source r
  | .rest target, r => target.Placed source r

def Field.AllPlaced (source : List Char) : List Field → List Span → Prop
  | [], rs => rs = []
  | f :: fs, rs => ∃ r rest, rs = r :: rest ∧ f.Placed source r ∧ Field.AllPlaced source fs rest

def Slot.AllPlaced (source : List Char) : List Slot → List Span → Prop
  | [], rs => rs = []
  | .hole :: ss, rs => ∃ r rest, rs = r :: rest ∧ Slot.AllPlaced source ss rest
  | .item target :: ss, rs =>
    ∃ r rest, rs = r :: rest ∧ target.Placed source r ∧ Slot.AllPlaced source ss rest
end

/-- The statements of a file stand side by side in its text. -/
def Placed (source : List Char) (statements : List Node) : Prop :=
  ∃ rs, rs.Pairwise Span.Apart ∧ Node.AllPlaced source statements rs

end Tree

/-! ### Patterns -/

theorem PatternProperty.ofValue_eq_ok {key : Option PropertyKey}
    {value : Except SkipReason Pattern} {default : Option Span} {prop : PatternProperty}
    (h : PatternProperty.ofValue key value default = .ok prop) :
    ∃ k p, key = some k ∧ value = .ok p ∧ prop = .mk k p default := by
  cases value with
  | error r => cases h
  | ok p =>
    cases key with
    | none => cases h
    | some k => exact ⟨k, p, rfl, rfl, (Except.ok.inj h).symm⟩

theorem PatternElement.before_eq_ok {value : Except SkipReason Pattern} {default : Option Span}
    {later : Except SkipReason (List PatternElement × Option Pattern)}
    {elements : List PatternElement} {rest : Option Pattern}
    (h : PatternElement.before value default later = .ok (elements, rest)) :
    ∃ p es, value = .ok p ∧ later = .ok (es, rest) ∧ elements = .item p default :: es := by
  cases value with
  | error r => cases h
  | ok p =>
    match later, h with
    | .ok (es, rest'), h =>
      obtain ⟨rfl, rfl⟩ := Prod.mk.inj (Except.ok.inj h)
      exact ⟨p, es, rfl, rfl, rfl⟩

namespace Tree

/-- A target without its default. -/
def Target.bare : Target → Target
  | .withDefault target _ => target
  | target => target

def Target.default? : Target → Option Span
  | .withDefault _ value => some value.span
  | _ => none

theorem Target.bare_of_pattern {t : Target} {p : Pattern} (h : t.pattern = .ok p) : t.bare = t := by
  cases t with
  | withDefault target value => cases h
  | name | object | array | rest | undeclared => rfl

theorem Field.property_keyed (key : Option PropertyKey) (keyParts : List Node) (value : Target) :
    (Field.keyed key keyParts value).property =
      PatternProperty.ofValue key value.bare.pattern value.default? := by
  cases value <;> rfl

theorem Slot.elements_item {t : Target} (ht : t.isRest = false) (slots : List Slot)
    (rest : Option Pattern) : Slot.elements (.item t :: slots) rest =
      PatternElement.before t.bare.pattern t.default? (Slot.elements slots rest) := by
  cases t with
  | rest => cases ht
  | name | object | array | withDefault | undeclared => rfl

variable (source : List Char)

mutual
/-- What a pattern reads is text: its own keys and defaults, and its default as a value. -/
theorem Target.sliceable : ∀ (t : Target) (r : Span), t.Placed source r →
    (∀ p, t.bare.pattern = .ok p → p.Sliceable source) ∧ ∀ d ∈ t.default?, d.IsText source
  | .name id _ _, _, _ => by
    refine ⟨fun p hp => ?_, by simp [Target.default?]⟩
    obtain rfl := Except.ok.inj hp
    trivial
  | .object span fields _, _, ⟨fs, _, _, hfields, _⟩ => by
    refine ⟨fun p hp => ?_, by simp [Target.default?]⟩
    simp only [Target.bare, Target.pattern] at hp
    split at hp
    · rename_i props hprops
      obtain rfl := Except.ok.inj hp
      exact Field.properties_sliceable fields fs hfields hprops
    · cases hp
  | .array span slots _, _, ⟨ss, _, _, hslots, _⟩ => by
    refine ⟨fun p hp => ?_, by simp [Target.default?]⟩
    simp only [Target.bare, Target.pattern] at hp
    split at hp
    · rename_i elements rest helements
      obtain rfl := Except.ok.inj hp
      obtain ⟨hes, hrest⟩ := Slot.elements_sliceable slots ss hslots (by simp) helements
      cases rest with
      | none => exact hes
      | some rest => exact ⟨hes, hrest rest rfl⟩
    · cases hp
  | .rest _ _ _, _, _ => ⟨fun _ hp => (by cases hp), by simp [Target.default?]⟩
  | .undeclared _, _, _ => ⟨fun _ hp => (by cases hp), by simp [Target.default?]⟩
  | .withDefault target value, _, ⟨htext, t, _, _, htarget, _⟩ => by
    refine ⟨fun p hp => ?_, by simpa [Target.default?] using htext⟩
    have hbare : target.bare = target := Target.bare_of_pattern hp
    exact (Target.sliceable target t htarget).1 p (by rw [hbare]; exact hp)

theorem Field.properties_sliceable : ∀ (fields : List Field) (fs : List Span),
    Field.AllPlaced source fields fs → ∀ {props : List PatternProperty},
    Field.properties fields = .ok props → PatternProperty.AllSliceable source props
  | [], _, _, props, h => by
    obtain rfl := Except.ok.inj h
    trivial
  | f :: fields, _, ⟨r, rest, _, hf, hfields⟩, props, h => by
    simp only [Field.properties] at h
    split at h
    · cases h
    · rename_i prop hprop
      split at h
      · cases h
      · rename_i others hothers
        obtain rfl := Except.ok.inj h
        obtain ⟨k, p, d, rfl, hone⟩ := Field.property_sliceable f r hf hprop
        exact ⟨hone, Field.properties_sliceable fields rest hfields hothers⟩

theorem Field.property_sliceable : ∀ (f : Field) (r : Span), f.Placed source r →
    ∀ {prop : PatternProperty}, f.property = .ok prop → ∃ k p d, prop = .mk k p d ∧
      k.Sliceable source ∧ p.Sliceable source ∧ ∀ s ∈ d, s.IsText source
  | .keyed key keyParts value, _, ⟨hkey, _, v, _, _, hvalue⟩, prop, h => by
    rw [Field.property_keyed] at h
    obtain ⟨k, p, rfl, hp, rfl⟩ := PatternProperty.ofValue_eq_ok h
    obtain ⟨hpattern, hdefault⟩ := Target.sliceable value v hvalue
    exact ⟨k, p, _, rfl, hkey k rfl, hpattern p hp, hdefault⟩
  | .shorthand id none, _, _, prop, h => by
    obtain rfl := Except.ok.inj h
    exact ⟨_, _, _, rfl, trivial, trivial, by simp⟩
  | .shorthand id (some value), _, ⟨htext, _⟩, prop, h => by
    obtain rfl := Except.ok.inj h
    exact ⟨_, _, _, rfl, trivial, trivial, by simpa using htext⟩
  | .rest _, _, _, prop, h => by cases h

theorem Slot.elements_sliceable : ∀ (slots : List Slot) (ss : List Span),
    Slot.AllPlaced source slots ss → ∀ {rest rest' : Option Pattern} {elements : List PatternElement},
    (∀ p ∈ rest, p.Sliceable source) → Slot.elements slots rest = .ok (elements, rest') →
    PatternElement.AllSliceable source elements ∧ ∀ p ∈ rest', p.Sliceable source
  | [], _, _, rest, rest', elements, hrest, h => by
    obtain ⟨rfl, rfl⟩ := Prod.mk.inj (Except.ok.inj h)
    exact ⟨trivial, hrest⟩
  | .hole :: slots, _, ⟨_, ss, _, hslots⟩, rest, rest', elements, hrest, h => by
    simp only [Slot.elements] at h
    split at h
    · cases h
    · rename_i es rest'' hes
      obtain ⟨rfl, rfl⟩ := Prod.mk.inj (Except.ok.inj h)
      have hothers := Slot.elements_sliceable slots ss hslots hrest hes
      exact hothers
  | .item t :: slots, _, ⟨r, ss, _, ht, hslots⟩, rest, rest', elements, hrest, h => by
    by_cases hkind : t.isRest = true
    · cases t with
      | name | object | array | withDefault | undeclared => cases hkind
      | rest span target notes =>
        obtain ⟨q, _, _, htarget, _⟩ := ht
        simp only [Slot.elements] at h
        split at h
        · cases h
        · rename_i p hp
          have hbare : target.bare = target := Target.bare_of_pattern hp
          refine Slot.elements_sliceable slots ss hslots (fun p' hp' => ?_) h
          obtain rfl := Option.some.inj hp'
          exact (Target.sliceable target q htarget).1 p (by rw [hbare]; exact hp)
    · have hsliceable := Target.sliceable t r ht
      rw [Slot.elements_item (by simpa using hkind)] at h
      obtain ⟨p, es, hp, hes, rfl⟩ := PatternElement.before_eq_ok h
      obtain ⟨hothers, hrest'⟩ := Slot.elements_sliceable slots ss hslots hrest hes
      exact ⟨⟨⟨hsliceable.1 p hp, hsliceable.2⟩, hothers⟩, hrest'⟩
end

end Tree

end ParamLowering
