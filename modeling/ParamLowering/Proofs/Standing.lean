import Mathlib.Data.List.Forall2
import ParamLowering.Proofs.Addresses
import ParamLowering.Proofs.Placement
set_option autoImplicit false

/-!
Parts of a tree between two offsets of a text.

A part stands between two offsets if its functions address the text and its ranges lie there. What
stands one behind the other makes up a construct, in whatever order the construct lists it.
-/

namespace ParamLowering

open ParamLowering.Grammar ParamLowering.Tree

variable {text : List Char} {lo lo' mid hi hi' at_ : Nat}

/-! ### Ranges -/

namespace Span

theorem Within.trans {r s t : Span} (h : r.Within s) (h' : s.Within t) : r.Within t :=
  ⟨Nat.le_trans h'.1 h.1, Nat.le_trans h.2 h'.2⟩

theorem Spread.mono {r r' : Span} {rs : List Span} (h : r.Spread rs) (hr : r.Within r') :
    r'.Spread rs :=
  ⟨fun s hs => (h.within s hs).trans hr, h.apart⟩

theorem Spread.nil (r : Span) : r.Spread [] := ⟨by simp, .nil⟩

theorem Spread.single {r s : Span} (h : s.Within r) : r.Spread [s] := ⟨by simpa using h, by simp⟩

theorem Spread.append {rs qs : List Span} (hr : (⟨lo, mid⟩ : Span).Spread rs)
    (hq : (⟨mid, hi⟩ : Span).Spread qs) (hle : lo ≤ mid) (hle' : mid ≤ hi) :
    (⟨lo, hi⟩ : Span).Spread (rs ++ qs) := by
  refine ⟨List.forall_mem_append.2 ⟨fun r hmem => ?_, fun q hmem => ?_⟩,
    List.pairwise_append.2 ⟨hr.apart, hq.apart, fun r hmem q hmem' => .inl ?_⟩⟩
  · exact (hr.within r hmem).trans ⟨Nat.le_refl lo, hle'⟩
  · exact (hq.within q hmem).trans ⟨hle, Nat.le_refl hi⟩
  · exact Nat.le_trans (hr.within r hmem).2 (hq.within q hmem').1

theorem Spread.perm {r : Span} {rs qs : List Span} (h : r.Spread rs) (hperm : rs.Perm qs) :
    r.Spread qs :=
  ⟨fun q hq => h.within q (hperm.mem_iff.2 hq), (hperm.pairwise_iff fun hab => hab.symm).1 h.apart⟩

theorem solid_of_began (h : Began text at_ hi) (hboundary : Text.isBoundary text hi = true) :
    (⟨at_, hi⟩ : Span).Solid text := by
  obtain ⟨hlt, cs, hcs, c, after, rfl, hblank, hcomma⟩ := h
  exact ⟨hlt, ⟨c, after, hcs, hblank, hcomma⟩, hboundary⟩

end Span

/-- What is listed in its order takes up ranges one behind the other. -/
theorem Grammar.InOrder.exists_ranges {α : Type} {P : α → Span → Prop} {as : List α}
    (h : InOrder (fun lo hi a => lo ≤ hi ∧ P a ⟨lo, hi⟩) lo hi as) :
    lo ≤ hi ∧ ∃ rs, List.Forall₂ P as rs ∧ (⟨lo, hi⟩ : Span).Spread rs ∧
      rs.Pairwise fun a b => a.stop ≤ b.start := by
  induction h with
  | nil hle => exact ⟨hle, [], .nil, .nil _, .nil⟩
  | @cons lo mid hi a as ha _ ih =>
    obtain ⟨hle', rs, hrs, hspread, hinOrder⟩ := ih
    refine ⟨Nat.le_trans ha.1 hle', ⟨lo, mid⟩ :: rs, .cons ha.2 hrs, ?_, ?_⟩
    · exact Span.Spread.append (.single ⟨Nat.le_refl lo, Nat.le_refl mid⟩) hspread ha.1 hle'
    · exact List.pairwise_cons.2 ⟨fun r hr => (hspread.within r hr).1, hinOrder⟩

namespace Tree

/-! ### Larger ranges -/

section

variable {r r' : Span}

theorem Target.Lies.mono {t : Target} (h : t.Lies text r) (hr : r.Within r') : t.Lies text r' :=
  { h with within := fun s hs => (h.within s hs).trans hr }

theorem FunctionLies.mono {params : List Target} {bodySpan : Span} {body : List Node}
    {ps bs : List Span} (h : FunctionLies text r params bodySpan body ps bs) (hr : r.Within r') :
    FunctionLies text r' params bodySpan body ps bs :=
  { h with
    beforeBody := fun p hp => (h.beforeBody p hp).trans ⟨hr.1, Nat.le_refl _⟩
    within := h.within.trans hr }

theorem Node.Placed.mono {n : Node} (h : n.Placed text r) (hr : r.Within r') :
    n.Placed text r' := by
  cases n with
  | name | functionName | className => trivial
  | group | block | declaration =>
    obtain ⟨rs, hspread, hrs⟩ := h
    exact ⟨rs, hspread.mono hr, hrs⟩
  | function =>
    obtain ⟨ps, bs, hlies, hparts⟩ := h
    exact ⟨ps, bs, hlies.mono hr, hparts⟩
  | closure | handler =>
    obtain ⟨ps, bs, hspread, hparts⟩ := h
    exact ⟨ps, bs, hspread.mono hr, hparts⟩

theorem Target.Placed.mono : ∀ {t : Target}, t.Placed text r → r.Within r' → t.Placed text r'
  | .name .., ⟨rs, hspread, hnotes⟩, hr => ⟨rs, hspread.mono hr, hnotes⟩
  | .object .., ⟨fs, ns, hspread, hparts⟩, hr => ⟨fs, ns, hspread.mono hr, hparts⟩
  | .array .., ⟨ss, ns, hspread, hparts⟩, hr => ⟨ss, ns, hspread.mono hr, hparts⟩
  | .rest .., ⟨t, ns, hspread, hparts⟩, hr => ⟨t, ns, hspread.mono hr, hparts⟩
  | .withDefault .., ⟨htext, t, v, hspread, hparts⟩, hr => ⟨htext, t, v, hspread.mono hr, hparts⟩
  | .undeclared target, h, hr => Target.Placed.mono (t := target) h hr

end

theorem Node.allPlaced_iff {ns : List Node} {rs : List Span} :
    Node.AllPlaced text ns rs ↔ List.Forall₂ (Node.Placed text) ns rs := by
  induction ns generalizing rs with
  | nil => simp [Node.AllPlaced]
  | cons n ns ih => simp [Node.AllPlaced, List.forall₂_cons_left_iff, ih, and_comm, and_assoc]

theorem Target.allPlaced_iff {ts : List Target} {rs : List Span} :
    Target.AllPlaced text ts rs ↔ List.Forall₂ (Target.Placed text) ts rs := by
  induction ts generalizing rs with
  | nil => simp [Target.AllPlaced]
  | cons t ts ih => simp [Target.AllPlaced, List.forall₂_cons_left_iff, ih, and_comm, and_assoc]

theorem Field.allPlaced_iff {fs : List Field} {rs : List Span} :
    Field.AllPlaced text fs rs ↔ List.Forall₂ (Field.Placed text) fs rs := by
  induction fs generalizing rs with
  | nil => simp [Field.AllPlaced]
  | cons f fs ih => simp [Field.AllPlaced, List.forall₂_cons_left_iff, ih, and_comm, and_assoc]

/-- The target in a place of an array pattern, if there is one, stands in a range. -/
def Slot.Placed (text : List Char) (s : Slot) (r : Span) : Prop := ∀ t ∈ s.target?, t.Placed text r

theorem Slot.allPlaced_iff {ss : List Slot} {rs : List Span} :
    Slot.AllPlaced text ss rs ↔ List.Forall₂ (Slot.Placed text) ss rs := by
  induction ss generalizing rs with
  | nil => simp [Slot.AllPlaced]
  | cons s ss ih =>
    cases s <;> simp [Slot.AllPlaced, List.forall₂_cons_left_iff, ih, and_comm, and_assoc,
      Slot.Placed, Slot.target?]

/-! ### Parts -/

/-- A part that fits stands between two offsets. -/
structure Node.Stands (text : List Char) (lo hi : Nat) (n : Node) : Prop where
  fits : n.Fits text
  le : lo ≤ hi
  placed : n.Placed text ⟨lo, hi⟩

/-- Parts that fit stand side by side between two offsets. -/
structure Node.StandAll (text : List Char) (lo hi : Nat) (ns : List Node) : Prop where
  fits : FitAll text ns
  le : lo ≤ hi
  placed : ∃ rs, List.Forall₂ (Node.Placed text) ns rs ∧ (⟨lo, hi⟩ : Span).Spread rs

structure Target.Stands (text : List Char) (lo hi : Nat) (t : Target) : Prop where
  fits : t.Fits text
  le : lo ≤ hi
  placed : t.Placed text ⟨lo, hi⟩

structure Field.Stands (text : List Char) (lo hi : Nat) (f : Field) : Prop where
  fits : f.Fits text
  le : lo ≤ hi
  placed : f.Placed text ⟨lo, hi⟩

structure Slot.Stands (text : List Char) (lo hi : Nat) (s : Slot) : Prop where
  fits : s.Fits text
  le : lo ≤ hi
  placed : s.Placed text ⟨lo, hi⟩

theorem Node.Stands.mono {n : Node} (h : n.Stands text lo hi) (hlo : lo' ≤ lo) (hhi : hi ≤ hi') :
    n.Stands text lo' hi' :=
  ⟨h.fits, Nat.le_trans hlo (Nat.le_trans h.le hhi), h.placed.mono ⟨hlo, hhi⟩⟩

theorem Target.Stands.mono {t : Target} (h : t.Stands text lo hi) (hlo : lo' ≤ lo)
    (hhi : hi ≤ hi') : t.Stands text lo' hi' :=
  ⟨h.fits, Nat.le_trans hlo (Nat.le_trans h.le hhi), h.placed.mono ⟨hlo, hhi⟩⟩

namespace Node.StandAll

variable {n : Node} {ns ms : List Node}

theorem nil : StandAll text lo lo [] := ⟨.nil, Nat.le_refl _, [], .nil, .nil _⟩

theorem single (hn : n.Stands text lo hi) : StandAll text lo hi [n] :=
  ⟨.single hn.fits, hn.le, [⟨lo, hi⟩], .cons hn.placed .nil, .single ⟨Nat.le_refl _, Nat.le_refl _⟩⟩

theorem append (hns : StandAll text lo mid ns) (hms : StandAll text mid hi ms) :
    StandAll text lo hi (ns ++ ms) := by
  obtain ⟨hfits, hle, rs, hrs, hspread⟩ := hns
  obtain ⟨hfits', hle', qs, hqs, hspread'⟩ := hms
  exact ⟨hfits.append hfits', Nat.le_trans hle hle', rs ++ qs, List.rel_append hrs hqs,
    hspread.append hspread' hle hle'⟩

theorem cons (hn : n.Stands text lo mid) (hns : StandAll text mid hi ns) :
    StandAll text lo hi (n :: ns) :=
  (single hn).append hns

/-- The order in which parts are listed does not matter. -/
theorem perm (h : StandAll text lo hi ns) (hperm : ms.Perm ns) : StandAll text lo hi ms := by
  obtain ⟨hfits, hle, rs, hrs, hspread⟩ := h
  obtain ⟨qs, hqs, hperm'⟩ := List.perm_comp_forall₂ hperm hrs
  exact ⟨fun n hn => hfits n (hperm.mem_iff.1 hn), hle, qs, hqs, hspread.perm hperm'.symm⟩

/-- Parts listed in front of those that stand before them. -/
theorem prepend (hns : StandAll text lo mid ns) (hms : StandAll text mid hi ms) :
    StandAll text lo hi (ms ++ ns) :=
  (hns.append hms).perm List.perm_append_comm

theorem mono (h : StandAll text lo hi ns) (hlo : lo' ≤ lo) (hhi : hi ≤ hi') :
    StandAll text lo' hi' ns := by
  obtain ⟨hfits, hle, rs, hrs, hspread⟩ := h
  exact ⟨hfits, Nat.le_trans hlo (Nat.le_trans hle hhi), rs, hrs, hspread.mono ⟨hlo, hhi⟩⟩

theorem of_inOrder (h : InOrder (Node.Stands text) lo hi ns) : StandAll text lo hi ns := by
  induction h with
  | nil hle => exact nil.mono (Nat.le_refl _) hle
  | cons hn _ ih => exact .cons hn ih

theorem flatMap {α : Type} {f : α → List Node} {as : List α}
    (h : InOrder (fun lo hi a => StandAll text lo hi (f a)) lo hi as) :
    StandAll text lo hi (as.flatMap f) := by
  induction h with
  | nil hle => exact nil.mono (Nat.le_refl _) hle
  | cons ha _ ih => exact ha.append ih

theorem flatten {nss : List (List Node)} (h : InOrder (StandAll text) lo hi nss) :
    StandAll text lo hi nss.flatten := by
  rw [← List.flatMap_id]
  exact flatMap h

theorem name {id : Ident} (h : StandAll text lo hi ns) : StandAll text lo hi (.name id :: ns) :=
  cons ⟨by simp, Nat.le_refl lo, trivial⟩ h

theorem names (ids : List Ident) : StandAll text lo lo (ids.map .name) := by
  induction ids with
  | nil => exact nil
  | cons id ids ih => exact name ih

end Node.StandAll

/-- Targets in their order take up ranges of which no two overlap. -/
theorem Target.exists_allPlaced {ts : List Target} (h : InOrder (Target.Stands text) lo hi ts) :
    (∀ t ∈ ts, t.Fits text) ∧ lo ≤ hi ∧
      ∃ rs, Target.AllPlaced text ts rs ∧ (⟨lo, hi⟩ : Span).Spread rs := by
  obtain ⟨hle, rs, hrs, hspread, -⟩ := (h.mono fun ht => ⟨ht.le, ht.placed⟩).exists_ranges
  exact ⟨h.forall_mem fun ht => ht.fits, hle, rs, Target.allPlaced_iff.2 hrs, hspread⟩

namespace Node

theorem stands_name (id : Ident) (hle : lo ≤ hi) : (Node.name id).Stands text lo hi :=
  ⟨by simp, hle, trivial⟩

theorem stands_functionName (id : Ident) : (Node.functionName id).Stands text lo lo :=
  ⟨by simp, Nat.le_refl _, trivial⟩

theorem stands_className (id : Ident) : (Node.className id).Stands text lo lo :=
  ⟨by simp, Nat.le_refl _, trivial⟩

theorem stands_group {span : Span} {parts : List Node} (h : StandAll text lo hi parts) :
    (Node.group span parts).Stands text lo hi := by
  obtain ⟨hfits, hle, rs, hrs, hspread⟩ := h
  exact ⟨fits_group.2 hfits, hle, rs, hspread, allPlaced_iff.2 hrs⟩

theorem stands_block {span : Span} {body : List Node} (h : StandAll text lo hi body) :
    (Node.block span body).Stands text lo hi := by
  obtain ⟨hfits, hle, rs, hrs, hspread⟩ := h
  exact ⟨fits_block.2 hfits, hle, rs, hspread, allPlaced_iff.2 hrs⟩

theorem stands_closure {span : Span} {params : List Target} {body : List Node}
    (hparams : InOrder (Target.Stands text) lo mid params) (hbody : StandAll text mid hi body) :
    (Node.closure span params body).Stands text lo hi := by
  obtain ⟨hfits, hle, ps, hps, hspread⟩ := Target.exists_allPlaced hparams
  obtain ⟨hfits', hle', bs, hbs, hspread'⟩ := hbody
  exact ⟨fits_closure.2 ⟨hfits, hfits'⟩, Nat.le_trans hle hle', ps, bs,
    hspread.append hspread' hle hle', hps, allPlaced_iff.2 hbs⟩

theorem stands_handler {span : Span} {params : List Target} {body : List Node}
    (hparams : InOrder (Target.Stands text) lo mid params) (hbody : StandAll text mid hi body) :
    (Node.handler span params body).Stands text lo hi := by
  obtain ⟨hfits, hle, ps, hps, hspread⟩ := Target.exists_allPlaced hparams
  obtain ⟨hfits', hle', bs, hbs, hspread'⟩ := hbody
  exact ⟨fits_handler.2 ⟨hfits, hfits'⟩, Nat.le_trans hle hle', ps, bs,
    hspread.append hspread' hle hle', hps, allPlaced_iff.2 hbs⟩

theorem stands_declaration {span : Span} {kind : DeclarationKind} {targets : List Target}
    (hkind : kind = .var ∨ kind = .letBinding ∨ kind = .constBinding)
    (h : InOrder (Target.Stands text) lo hi targets) :
    (Node.declaration span kind targets).Stands text lo hi := by
  obtain ⟨hfits, hle, rs, hrs, hspread⟩ := Target.exists_allPlaced h
  exact ⟨fits_declaration.2 ⟨hkind, hfits⟩, hle, rs, hspread, hrs⟩

end Node

/-! ### Targets -/

section

variable {span : Span} {notes : List Node}

theorem Target.stands_name {id : Ident} (h : Node.StandAll text lo hi notes) :
    (Target.name id span notes).Stands text lo hi := by
  obtain ⟨hfits, hle, rs, hrs, hspread⟩ := h
  exact ⟨fits_name.2 hfits, hle, rs, hspread, Node.allPlaced_iff.2 hrs⟩

theorem Target.stands_object {fields : List Field} (h : InOrder (Field.Stands text) lo mid fields)
    (hnotes : Node.StandAll text mid hi notes) :
    (Target.object span fields notes).Stands text lo hi := by
  obtain ⟨hle, fs, hfs, hspread, -⟩ := (h.mono fun hf => ⟨hf.le, hf.placed⟩).exists_ranges
  obtain ⟨hfits, hle', rs, hrs, hspread'⟩ := hnotes
  exact ⟨fits_object.2 ⟨h.forall_mem fun hf => hf.fits, hfits⟩, Nat.le_trans hle hle', fs, rs,
    hspread.append hspread' hle hle', Field.allPlaced_iff.2 hfs, Node.allPlaced_iff.2 hrs⟩

theorem Target.stands_array {slots : List Slot} (h : InOrder (Slot.Stands text) lo mid slots)
    (hnotes : Node.StandAll text mid hi notes) :
    (Target.array span slots notes).Stands text lo hi := by
  obtain ⟨hle, ss, hss, hspread, -⟩ := (h.mono fun hs => ⟨hs.le, hs.placed⟩).exists_ranges
  obtain ⟨hfits, hle', rs, hrs, hspread'⟩ := hnotes
  exact ⟨fits_array.2 ⟨h.forall_mem fun hs => hs.fits, hfits⟩, Nat.le_trans hle hle', ss, rs,
    hspread.append hspread' hle hle', Slot.allPlaced_iff.2 hss, Node.allPlaced_iff.2 hrs⟩

theorem Target.stands_rest {target : Target} (h : target.Stands text lo mid)
    (hnotes : Node.StandAll text mid hi notes) :
    (Target.rest span target notes).Stands text lo hi := by
  obtain ⟨hfits, hle', rs, hrs, hspread⟩ := hnotes
  exact ⟨fits_rest.2 ⟨h.fits, hfits⟩, Nat.le_trans h.le hle', ⟨lo, mid⟩, rs,
    Span.Spread.append (.single ⟨Nat.le_refl _, Nat.le_refl _⟩) hspread h.le hle', h.placed,
    Node.allPlaced_iff.2 hrs⟩

theorem Target.stands_withDefault {target : Target} {value : Node}
    (h : target.Stands text lo mid) (hvalue : value.Stands text mid hi)
    (htext : value.span.IsText text) : (Target.withDefault target value).Stands text lo hi :=
  ⟨fits_withDefault.2 ⟨h.fits, hvalue.fits⟩, Nat.le_trans h.le hvalue.le, htext, ⟨lo, mid⟩, ⟨mid, hi⟩,
    Span.Spread.append (.single ⟨Nat.le_refl _, Nat.le_refl _⟩)
      (.single ⟨Nat.le_refl _, Nat.le_refl _⟩) h.le hvalue.le, h.placed, hvalue.placed⟩

theorem Target.stands_undeclared {target : Target} (h : target.Stands text lo hi) :
    (Target.undeclared target).Stands text lo hi :=
  ⟨fits_undeclared.2 h.fits, h.le, h.placed⟩

theorem Field.stands_keyed {key : Option PropertyKey} {keyParts : List Node} {value : Target}
    (hkey : ∀ k ∈ key, k.Sliceable text) (hparts : Node.StandAll text lo mid keyParts)
    (hvalue : value.Stands text mid hi) : (Field.keyed key keyParts value).Stands text lo hi := by
  obtain ⟨hfits, hle, rs, hrs, hspread⟩ := hparts
  exact ⟨fits_keyed.2 ⟨hfits, hvalue.fits⟩, Nat.le_trans hle hvalue.le, hkey, rs, ⟨mid, hi⟩,
    hspread.append (.single ⟨Nat.le_refl _, Nat.le_refl _⟩) hle hvalue.le,
    Node.allPlaced_iff.2 hrs, hvalue.placed⟩

theorem Field.stands_shorthand (id : Ident) (hle : lo ≤ hi) :
    (Field.shorthand id none).Stands text lo hi :=
  ⟨by simp, hle, trivial⟩

theorem Field.stands_shorthandDefault {id : Ident} {value : Node} (h : value.Stands text lo hi)
    (htext : value.span.IsText text) : (Field.shorthand id (some value)).Stands text lo hi :=
  ⟨by simpa using h.fits, h.le, htext, h.placed⟩

theorem Field.stands_rest {target : Target} (h : target.Stands text lo hi) :
    (Field.rest target).Stands text lo hi :=
  ⟨fits_rest.2 h.fits, h.le, h.placed⟩

theorem Slot.stands_hole : Slot.hole.Stands text lo lo :=
  ⟨by simp, Nat.le_refl _, by simp [Slot.Placed, Slot.target?]⟩

theorem Slot.stands_item {target : Target} (h : target.Stands text lo hi) :
    (Slot.item target).Stands text lo hi :=
  ⟨fits_item.2 h.fits, h.le, by simpa [Slot.Placed, Slot.target?] using h.placed⟩

end

/-! ### What begins with a token -/

/-- An expression that was read from an offset on. Its span may begin behind a comment in the
manner of markup that stands there. -/
structure Node.Solid (text : List Char) (at_ hi : Nat) (n : Node) : Prop where
  stands : n.Stands text at_ hi
  opens : OpensAt text at_
  start : at_ ≤ n.span.start
  solid : n.span.Solid text
  stop : n.span.stop ≤ hi

namespace Node.Solid

variable {n : Node}

theorem of_span (h : n.Stands text at_ hi) (hspan : n.span = ⟨at_, hi⟩) (hbegan : Began text at_ hi)
    (hboundary : Text.isBoundary text hi = true) : n.Solid text at_ hi where
  stands := h
  opens := hbegan.opens
  start := by rw [hspan]
  solid := hspan ▸ Span.solid_of_began hbegan hboundary
  stop := by rw [hspan]

theorem began (h : n.Solid text at_ hi) : Began text at_ hi :=
  ⟨Nat.lt_of_le_of_lt h.start (Nat.lt_of_lt_of_le h.solid.nonempty h.stop), h.opens⟩

theorem isText (h : n.Solid text at_ hi) : n.span.IsText text := h.solid.isText

end Node.Solid

theorem Node.Solid.mono {n : Node} (h : n.Solid text at_ hi) (hle : hi ≤ hi') :
    n.Solid text at_ hi' :=
  { h with stands := h.stands.mono (Nat.le_refl _) hle, stop := Nat.le_trans h.stop hle }

/-- The parts of a construct that began at an offset. -/
structure Node.Begun (text : List Char) (at_ hi : Nat) (parts : List Node) : Prop where
  began : Began text at_ hi
  standAll : Node.StandAll text at_ hi parts

namespace Node.Begun

variable {parts : List Node}

/-- Parts behind the first token. -/
theorem behind (hbegan : Began text at_ lo) (h : Node.StandAll text lo hi parts) :
    Node.Begun text at_ hi parts :=
  ⟨hbegan.mono h.le, h.mono (Nat.le_of_lt hbegan.lt) (Nat.le_refl _)⟩

/-- Parts of which the first one begins the construct. -/
theorem cons {n : Node} (hn : n.Solid text at_ lo) (h : Node.StandAll text lo hi parts) :
    Node.Begun text at_ hi (n :: parts) :=
  ⟨hn.began.mono h.le, .cons hn.stands h⟩

theorem group {span : Span} (h : Node.Begun text at_ lo parts)
    (hspan : lo ≤ hi ∧ span = ⟨at_, hi⟩ ∧ Text.isBoundary text hi = true) :
    (Node.group span parts).Solid text at_ hi := by
  obtain ⟨hle, rfl, hboundary⟩ := hspan
  exact .of_span ((Node.stands_group h.standAll).mono (Nat.le_refl _) hle) rfl (h.began.mono hle)
    hboundary

end Node.Begun

/-- A statement that was read from an offset on begins there. -/
structure Node.StandsAt (text : List Char) (at_ hi : Nat) (n : Node) : Prop where
  stands : n.Stands text at_ hi
  start : n.span.start = at_
  boundary : Text.isBoundary text at_ = true

/-- A statement that began somewhere with its parts behind that place. -/
theorem Node.StandsAt.group {span : Span} {parts : List Node} (hat : Starts text at_ lo)
    (hspan : mid ≤ hi ∧ span = ⟨at_, hi⟩ ∧ Text.isBoundary text hi = true)
    (h : Node.StandAll text lo mid parts) : (Node.group span parts).StandsAt text at_ hi := by
  obtain ⟨hle, rfl, -⟩ := hspan
  exact ⟨(Node.stands_group h).mono hat.le hle, rfl, hat.boundary⟩

/-- A statement begins behind an offset. -/
def Node.Follows (text : List Char) (lo hi : Nat) (n : Node) : Prop :=
  ∃ at_, lo ≤ at_ ∧ n.StandsAt text at_ hi

theorem Node.Follows.stands {n : Node} (h : n.Follows text lo hi) : n.Stands text lo hi := by
  obtain ⟨at_, hle, hn⟩ := h
  exact hn.stands.mono hle (Nat.le_refl _)

/-- A parameter stands between two offsets and begins with its sign. -/
structure Target.IsParam (text : List Char) (lo hi : Nat) (t : Target) : Prop where
  stands : t.Stands text lo hi
  opens : t.Opens text
  lies : t.Lies text ⟨lo, hi⟩

theorem Target.IsParam.mono {t : Target} (h : t.IsParam text lo hi) (hlo : lo' ≤ lo)
    (hhi : hi ≤ hi') : t.IsParam text lo' hi' :=
  ⟨h.stands.mono hlo hhi, h.opens, h.lies.mono ⟨hlo, hhi⟩⟩

/-- A parameter without a default takes up one range. -/
theorem Target.IsParam.of_span {t : Target} {s : Span} (h : t.Stands text lo hi)
    (hopens : t.Opens text) (helements : t.elements = [s]) (hsolid : s.Solid text)
    (hs : s.Within ⟨lo, hi⟩) : t.IsParam text lo hi where
  stands := h
  opens := hopens
  lies := by
    have hmem : ∀ r ∈ t.elements, r = s := by simp [helements]
    exact ⟨fun r hr => hmem r hr ▸ hsolid, by simp [helements], fun r hr => hmem r hr ▸ hs⟩

theorem Target.span_mem_elements (t : Target) : t.span ∈ t.elements := by
  cases t <;> simp [Target.elements, Target.span]

theorem Target.IsParam.withDefault {target : Target} {value : Node}
    (h : target.IsParam text lo mid) (hvalue : value.Solid text at_ hi) (hat : mid ≤ at_) :
    (Target.withDefault target value).IsParam text lo hi where
  stands := Target.stands_withDefault h.stands
    (hvalue.stands.mono hat (Nat.le_refl hi)) hvalue.isText
  opens := h.opens
  lies := by
    have hspan := target.span_mem_elements
    obtain ⟨hstart, hstop⟩ := h.lies.within _ hspan
    have hle := h.stands.le
    have hle' := hvalue.stands.le
    have hvstart := hvalue.start
    have hvstop := hvalue.stop
    refine ⟨?_, ?_, ?_⟩
    · exact List.forall_mem_cons.2 ⟨h.lies.solid _ hspan, by simpa using hvalue.solid⟩
    · simp only [Target.elements, List.pairwise_pair]
      exact Nat.le_trans hstop (Nat.le_trans hat hvstart)
    · simp only [Target.elements, List.forall_mem_cons, List.not_mem_nil, false_imp_iff,
        forall_true_iff, and_true, Span.Within]
      dsimp only at hstart hstop
      omega

end Tree

end ParamLowering
