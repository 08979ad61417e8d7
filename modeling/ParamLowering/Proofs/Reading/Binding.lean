import ParamLowering.Grammar.Binding
import ParamLowering.Proofs.Standing
set_option autoImplicit false

/-!
Templates, regular expressions, keys, targets and parameter lists.

What they read stands where it was read: targets and the parts of templates one behind the other,
and a parameter with its sign in front.
-/

namespace ParamLowering.Grammar

open ParamLowering.Tree Parse

/-- Markup that was read from a place to a later one. -/
structure Place.Encloses (text : List Char) (p q : Place) (n : Node) : Prop where
  stands : n.Stands text p.offset q.offset
  span : n.span = ⟨p.offset, q.offset⟩
  lt : p.offset < q.offset
  last : q.In text

/-- Recursive productions that read parts which stand where they were read. -/
structure Rules.Reads (text : List Char) (g : Rules) : Prop where
  expressionAt : ∀ {c : Cursor} {m : Mode}, c.In text →
    Begins text c (g.expression m) (Node.Stands text c.start)
  assignmentAt : ∀ {c : Cursor} {m : Mode}, c.In text →
    Begins text c (g.assignment m) fun hi o => o.node.Solid text c.start hi
  operandAt : ∀ {c : Cursor} {m : Mode} {calls : Bool}, c.In text →
    Begins text c (g.operand m calls) fun hi o => o.node.Solid text c.start hi
  target : ∀ {lo : Nat} {m : Mode}, Parse.Reads text lo (g.target m) (Target.Stands text lo)
  type : ∀ {lo : Nat} {m : Mode}, Parse.Reads text lo (g.type m) (Node.StandAll text lo)
  statementAt : ∀ {c : Cursor} {m : Mode}, c.In text →
    Begins text c (g.statement m) (Node.StandsAt text c.start)
  item : ∀ {lo : Nat} {m : Mode}, Parse.Reads text lo (g.item m) (Node.Stands text lo)
  element : ∀ {m : Mode} {p q : Place} {n : Node}, p.In text → g.element m p = some (n, q) →
    p.Encloses text q n

variable {text : List Char} {lo at_ : Nat} {g : Rules} {m : Mode} {c : Cursor}

namespace Rules.Reads

variable (hg : g.Reads text)

include hg

theorem expression : Parse.Reads text lo (g.expression m) (Node.Stands text lo) :=
  .of_begins fun _ hc hle => (hg.expressionAt hc).mono fun _ _ hn => hn.mono hle (Nat.le_refl _)

/-- An expression with a range of its own. -/
theorem value : Parse.Reads text lo (g.assignment m)
    fun hi o => ∃ at_, lo ≤ at_ ∧ o.node.Solid text at_ hi :=
  .of_begins fun _ hc hle => (hg.assignmentAt hc).mono fun _ _ ho => ⟨_, hle, ho⟩

theorem assignment : Parse.Reads text lo (g.assignment m) fun hi o => o.node.Stands text lo hi :=
  hg.value.mono fun _ _ ⟨_, hle, ho⟩ => ho.stands.mono hle (Nat.le_refl _)

theorem operand {calls : Bool} :
    Parse.Reads text lo (g.operand m calls) fun hi o => o.node.Stands text lo hi :=
  .of_begins fun _ hc hle => (hg.operandAt hc).mono fun _ _ ho =>
    ho.stands.mono hle (Nat.le_refl _)

theorem statement : Parse.Reads text lo (g.statement m) (Node.Follows text lo) :=
  .of_begins fun _ hc hle => (hg.statementAt hc).mono fun _ _ hn => ⟨_, hle, hn⟩

end Rules.Reads

/-! ### Pieces of text -/

section

variable {α : Type} {Q : Nat → Nat → α → Prop} {hole : Parse α}

theorem holes_reads (hhole : ∀ lo, Reads text lo hole (Q lo)) (tagged : Bool) {bound : Nat}
    {p q : Place} {as : List α} (hp : p.In text) (hlo : lo ≤ p.offset)
    (h : holes hole tagged bound p = some (as, q)) :
    q.In text ∧ p.offset ≤ q.offset ∧ InOrder Q lo q.offset as := by
  induction bound generalizing p as lo with
  | zero => cases h
  | succ bound ih =>
    have hfurther : ∀ {r : Place} {as : List α}, p.Leads r →
        holes hole tagged bound r = some (as, q) →
        q.In text ∧ p.offset ≤ q.offset ∧ InOrder Q lo q.offset as := by
      intro r as hr h
      obtain ⟨hq, hle, has⟩ := ih (hp.trans hr) (Nat.le_trans hlo hr.offset_le) h
      exact ⟨hq, Nat.le_trans hr.offset_le hle, has⟩
    rw [holes] at h
    split at h
    · cases h
    · rename_i hrest
      obtain ⟨rfl, rfl⟩ := Prod.mk.inj (Option.some.inj h)
      have hskip := Place.Leads.skip_one hrest (by decide)
      exact ⟨hp.trans hskip, hskip.offset_le, .nil (Nat.le_trans hlo hskip.offset_le)⟩
    · rename_i c cs hrest
      split at h
      · have hnext : p.Leads ⟨cs, p.offset + 1 + c.utf8Size⟩ :=
          (Place.Leads.of_cons hrest).trans (.cons c cs _)
        exact hfurther hnext h
      · cases h
    · rename_i cs hrest
      have hskip := Place.Leads.skip ['$', '\x7b'] hrest (by decide)
      split at h
      · cases h
      · rename_i a c hread
        split at h
        · rename_i hclose
          obtain ⟨⟨more, last⟩, hmore, heq⟩ := Option.map_eq_some_iff.1 h
          obtain ⟨rfl, rfl⟩ := Prod.mk.inj heq
          obtain ⟨mid, -, hc, ha⟩ := hhole lo _ c a
            (.behind (hp.trans hskip) (Nat.le_trans hlo hskip.offset_le)) hread
          obtain ⟨hbehind, hmid⟩ := hc.skip_mark hclose rfl
          obtain ⟨further, hfurther, hc', -⟩ := hhole (p.skip 2).offset _ c a
            (.behind (hp.trans hskip) (Nat.le_refl _)) hread
          have hfrom := Nat.le_trans hfurther (hc'.skip_mark hclose rfl).2
          obtain ⟨hq, hle, has⟩ := ih hbehind hmid hmore
          exact ⟨hq, Nat.le_trans hskip.offset_le (Nat.le_trans hfrom hle), .cons ha has⟩
        · cases h
    · rename_i c cs _ _ _ hrest
      exact hfurther (.of_cons hrest) h

theorem template_begins (hhole : ∀ lo, Reads text lo hole (Q lo)) (tagged : Bool) (hc : c.In text)
    (hlo : lo ≤ c.ahead.offset) : Begins text c (template hole tagged)
      fun hi as => Began text c.start c.ahead.offset ∧ InOrder Q lo hi as := by
  refine begins_get ?_
  split
  · rename_i htoken
    split
    · rename_i as p hholes
      have hopens : c.token.Opens := by
        rw [htoken]
        exact ⟨⟨nofun, nofun⟩, nofun⟩
      obtain ⟨hp, hle, has⟩ := holes_reads hhole tagged hc.ahead_in hlo hholes
      exact (resume_runs hp (Nat.le_trans hc.start_le_ahead hle)).bind fun _ _ h =>
        .pure ⟨hc.began hopens, h ▸ has⟩
    · exact .failure
  · exact .failure

theorem template_reads (hhole : ∀ lo, Reads text lo hole (Q lo)) (tagged : Bool) :
    Reads text lo (template hole tagged) (InOrder Q lo) :=
  .of_begins fun _ hc hlo => (template_begins hhole tagged hc
    (Nat.le_trans hlo hc.start_le_ahead)).mono fun _ _ h => h.2

end

theorem regexEnd_leads {inClass : Bool} {cs : List Char} {offset : Nat} {q : Place}
    (h : regexEnd inClass cs offset = some q) : Place.Leads ⟨cs, offset⟩ q := by
  have hslash : ∀ {c : Char} {inClass : Bool} {cs : List Char} {offset : Nat},
      (decide (c = '/') && !inClass) = true → Place.Leads ⟨c :: cs, offset⟩ ⟨cs, offset + 1⟩ := by
    intro c inClass cs offset hc
    obtain rfl : c = '/' := of_decide_eq_true (Bool.and_eq_true_iff.1 hc).1
    exact .cons '/' cs offset
  fun_induction regexEnd inClass cs offset with
  | case1 | case3 | case4 | case5 => cases h
  | case2 inClass c offset hc | case7 inClass c d cs offset _ _ hc =>
    obtain rfl := Option.some.inj h
    exact hslash hc
  | case6 inClass d cs offset _ _ ih =>
    exact ((Place.Leads.cons '\\' (d :: cs) offset).trans (.cons d cs _)).trans (ih h)
  | case8 inClass c d cs offset _ _ _ ih => exact (Place.Leads.cons c (d :: cs) offset).trans (ih h)

theorem regex_begins (hc : c.In text) (ht : c.token.Opens) :
    Begins text c regex fun hi _ => Began text c.start hi := by
  refine begins_get ?_
  dsimp only
  split
  · rename_i cs hrest
    split
    · rename_i q hq
      split
      · rename_i last hlast
        have hbehind := (regexEnd_leads hq).trans (readName_leads hlast)
        have hlt := Nat.lt_of_le_of_lt hc.start_le_place (Nat.lt_of_succ_le hbehind.offset_le)
        exact (resume_runs (hc.place_in.trans ((Place.Leads.of_cons hrest).trans hbehind))
          (Nat.le_of_lt hlt)).mono fun _ _ h => h ▸ ⟨hlt, (hc.began ht).opens⟩
      · exact .failure
    · exact .failure
  · exact .failure

theorem bindingName_begins (hc : c.In text) : Begins text c (bindingName m)
    fun hi _ => Began text c.start hi :=
  (atWord_peeks "this").bind fun _ => .ite
    (fun _ => (anyName_begins hc).mono fun _ _ h => h.1)
    fun _ => (ident_begins hc).mono fun _ _ h => h.1

theorem accessWord?_passes : Passes text (accessWord? m) := by
  refine .ite (.pure _) (token_peeks.passes.seq fun t => ?_)
  split
  · exact (nextIs_peeks _).passes.seq fun _ => .ite (skip_passes.seq fun _ => .pure _) (.pure _)
  · exact .pure _

/-- What there is to visit in a key stands where the key does, and what is kept of it is text. -/
structure Key.Stands (text : List Char) (lo hi : Nat) (k : Key) : Prop where
  parts : Node.StandAll text lo hi k.parts
  property : ∀ p ∈ k.property?, p.Sliceable text

section

variable (hg : g.Reads text)

include hg

theorem key_reads : Reads text lo (key g m) (Key.Stands text lo) := by
  refine token_peeks.bind fun t => ?_
  split
  · exact anyName_passes.bind fun id => .pure ⟨.nil, by simp [Key.property?, PropertyKey.Sliceable]⟩
  iterate 4
    · exact skip_passes.bind fun _ =>
        .pure ⟨.nil, by simp [Key.property?, PropertyKey.Sliceable]⟩
  · refine (mark_passes "[").bind fun _ => hg.value.bind fun _ o ⟨_, hle, ho⟩ => ?_
    exact (mark_passes "]").bind fun _ => .pure ⟨.single (ho.stands.mono hle (Nat.le_refl _)),
      by simpa [Key.property?, PropertyKey.Sliceable] using ho.isText⟩

/-! ### Targets -/

theorem withDefault_reads {target : Target} (ht : target.Stands text at_ lo) :
    Reads text lo (withDefault g m target) fun hi t => t.Stands text at_ hi ∧
      (target.IsParam text at_ lo → t.IsParam text at_ hi) :=
  (mark?_passes "=").bind fun _ => .ite
    (fun _ => hg.value.bind fun _ _ ⟨_, hle, ho⟩ => .pure
      ⟨Target.stands_withDefault ht (ho.stands.mono hle (Nat.le_refl _)) ho.isText,
        fun h => h.withDefault ho hle⟩)
    fun _ => .pure ⟨ht, id⟩

theorem element_reads : Reads text lo (element g m) (Target.Stands text lo) :=
  hg.target.bind fun _ _ ht => (withDefault_reads hg ht).mono fun _ _ h => h.1

theorem restElement_reads (at_ : Nat) :
    Reads text lo (restElement g m at_) (Target.Stands text lo) :=
  hg.target.bind fun _ _ ht => (spanFrom_reads at_).bind fun _ _ ⟨hle, _⟩ =>
    .pure ((Target.stands_rest ht .nil).mono (Nat.le_refl _) hle)

theorem field_reads : Reads text lo (field g m) (Field.Stands text lo) := by
  refine start_peeks.bind fun at_ => (mark?_passes "...").bind fun _ => .ite (fun _ => ?_)
    fun _ => (key_reads hg).bind fun _ k hk => ?_
  · exact (restElement_reads hg at_).bind fun _ _ ht => .pure (Field.stands_rest ht)
  · have hkeyed : Reads text _ (do return .keyed k.property? k.parts (← element g m))
        (Field.Stands text lo) :=
      (element_reads hg).bind fun _ _ ht => .pure (Field.stands_keyed hk.property hk.parts ht)
    split
    · exact .failure
    · rename_i id
      refine (mark?_passes ":").bind fun _ => .ite (fun _ => hkeyed) fun _ => ?_
      refine (mark?_passes "=").bind fun _ => .ite (fun _ => ?_) fun _ => .pure ?_
      · exact hg.value.bind fun _ o ⟨_, hle, ho⟩ => .pure (Field.stands_shorthandDefault
          (ho.stands.mono (Nat.le_trans hk.parts.le hle) (Nat.le_refl _)) ho.isText)
      · exact Field.stands_shorthand id hk.parts.le
    · exact (mark_passes ":").bind fun _ => hkeyed

theorem slots_reads : Reads text lo (slots g m) (InOrder (Slot.Stands text) lo) := by
  refine items_reads (fun lo => ?_) "]" g.bound
  refine (atMark_peeks ",").bind fun _ => .ite (fun _ => .pure Slot.stands_hole) fun _ => ?_
  refine start_peeks.bind fun at_ => (mark?_passes "...").bind fun _ => .ite (fun _ => ?_)
    fun _ => ?_
  · exact (restElement_reads hg at_).bind fun _ _ ht => .pure (Slot.stands_item ht)
  · exact (element_reads hg).bind fun _ _ ht => .pure (Slot.stands_item ht)

/-- What a bare target becomes with a span from its first token on and with notes. -/
def Makes (text : List Char) (at_ lo : Nat) (make : Span → List Node → Target) : Prop :=
  ∀ (stop hi : Nat) (notes : List Node), lo ≤ stop → stop ≤ hi →
    Text.isBoundary text stop = true → Node.StandAll text lo hi notes →
    (make ⟨at_, stop⟩ notes).IsParam text at_ hi

theorem bareTarget_begins (hc : c.In text) :
    Begins text c (bareTarget g m) (Makes text c.start) := by
  refine begins_ifMark hc (fun htoken => ?_) (begins_ifMark hc (fun htoken => ?_) ?_)
  · have hbegan := hc.began (Token.opens_of_isMark htoken (by decide))
    refine (items_reads (fun _ => field_reads hg) _ _).bind fun mid fields hfields =>
      (require_peeks _).bind fun _ => .pure fun stop hi notes hle hle' hboundary hnotes => ?_
    have hmid := hfields.le fun hf => hf.le
    exact .of_span
      ((Target.stands_object hfields hnotes).mono hc.start_le_ahead (Nat.le_refl _))
      (hc.opensFrom htoken _ rfl (Nat.le_trans hmid hle) hboundary) rfl
      (Span.solid_of_began (hbegan.mono (Nat.le_trans hmid hle)) hboundary) ⟨Nat.le_refl _, hle'⟩
  · have hbegan := hc.began (Token.opens_of_isMark htoken (by decide))
    refine (slots_reads hg).bind fun mid slots hslots => .pure
      fun stop hi notes hle hle' hboundary hnotes => ?_
    have hmid := hslots.le fun hs => hs.le
    exact .of_span
      ((Target.stands_array hslots hnotes).mono hc.start_le_ahead (Nat.le_refl _))
      (hc.opensFrom htoken _ rfl (Nat.le_trans hmid hle) hboundary) rfl
      (Span.solid_of_began (hbegan.mono (Nat.le_trans hmid hle)) hboundary) ⟨Nat.le_refl _, hle'⟩
  · refine (bindingName_begins hc).bind fun mid id hbegan => .pure
      fun stop hi notes hle hle' hboundary hnotes => ?_
    exact .of_span ((Target.stands_name hnotes).mono (Nat.le_of_lt hbegan.lt) (Nat.le_refl _))
      trivial rfl (Span.solid_of_began (hbegan.mono hle) hboundary) ⟨Nat.le_refl _, hle'⟩

theorem target_reads : Reads text lo (target g m) (Target.Stands text lo) := by
  refine .of_begins fun c hc hlo => begins_start ((bareTarget_begins hg hc).bind
    fun mid make hmake => (spanFrom_reads c.start).bind fun hi s ⟨hle, hs, hboundary⟩ => .pure ?_)
  subst hs
  exact (hmake hi hi [] hle (Nat.le_refl _) hboundary (.mono .nil (Nat.le_refl _) hle)).stands.mono
    hlo (Nat.le_refl _)

theorem typeNotes?_reads :
    Reads text lo (typeNotes? g m) fun hi o => Node.StandAll text lo hi (o.getD []) :=
  (mark?_passes ":").branch (.pure _) fun _ =>
    .ite (fun _ => hg.type.bind fun _ _ hnotes => .pure hnotes) fun _ => .pure .nil

theorem typedTarget_begins (hc : c.In text) (sign : String) :
    Begins text c (typedTarget g m sign) (Target.IsParam text c.start) := by
  refine begins_start ((bareTarget_begins hg hc).bind fun mid make hmake =>
    (spanFrom_reads c.start).bind fun stop bare ⟨hle, hbare, hboundary⟩ =>
      .optional (mark?_passes sign) ((typeNotes?_reads hg).bind fun hi o ho => ?_))
  subst hbare
  cases o with
  | none => exact .pure (hmake stop hi [] hle ho.le hboundary
      (.mono .nil (Nat.le_refl _) (Nat.le_trans hle ho.le)))
  | some notes =>
    refine (spanFrom_reads c.start).bind fun last s ⟨hle', hs, hboundary'⟩ => .pure ?_
    subst hs
    exact hmake last last notes (Nat.le_trans hle (Nat.le_trans ho.le hle')) (Nat.le_refl _)
      hboundary' (ho.mono hle hle')

theorem typedTarget_reads (sign : String) :
    Reads text lo (typedTarget g m sign) (Target.Stands text lo) :=
  .of_begins fun _ hc hlo => (typedTarget_begins hg hc sign).mono fun _ _ ht =>
    ht.stands.mono hlo (Nat.le_refl _)

/-! ### Parameters -/

theorem restParam_reads (hbegan : Began text at_ lo) (hopens : OpensFrom text "..." at_ lo) :
    Reads text lo (restParam g m at_) (Target.IsParam text at_) := by
  refine hg.target.bind fun _ target ht => (withDefault_reads hg ht).bind fun _ target ⟨ht, _⟩ =>
    (typeNotes?_reads hg).bind fun mid notes hnotes => (spanFrom_reads at_).bind
      fun hi s ⟨hle, hs, hboundary⟩ => .optional (mark?_passes "?") (.pure ?_)
  subst hs
  have hstands : (Target.rest ⟨at_, hi⟩ target (notes.getD [])).Stands text lo mid :=
    Target.stands_rest ht hnotes
  have hlo : lo ≤ hi := Nat.le_trans hstands.le hle
  exact .of_span (hstands.mono (Nat.le_of_lt hbegan.lt) hle) (hopens _ rfl hlo hboundary) rfl
    (Span.solid_of_began (hbegan.mono hlo) hboundary) ⟨Nat.le_refl _, Nat.le_refl _⟩

theorem plainParam_begins (hc : c.In text) :
    Begins text c (plainParam g m) (Target.IsParam text c.start) :=
  begins_start (begins_ifMark hc
    (fun htoken => restParam_reads hg (hc.began (Token.opens_of_isMark htoken (by decide)))
      (hc.opensFrom htoken))
    ((typedTarget_begins hg hc "?").bind fun _ _ ht =>
      (withDefault_reads hg ht.stands).mono fun _ _ h => h.2 ht))

theorem plainParam_reads : Reads text lo (plainParam g m) (Target.IsParam text lo) :=
  .of_begins fun _ hc hlo => (plainParam_begins hg hc).mono fun _ _ ht => ht.mono hlo (Nat.le_refl _)

theorem param_reads : Reads text lo (param g m) (Target.IsParam text lo) :=
  (accessWord?_passes.repeated g.bound).bind fun _ => plainParam_reads hg

theorem params_reads : Reads text lo (params g m) (InOrder (Target.IsParam text) lo) :=
  (mark_passes "(").bind fun _ => items_reads (fun _ => param_reads hg) ")" g.bound

theorem params_begins (hc : c.In text) : Begins text c (params g m)
    fun hi ts => Began text c.start hi ∧ InOrder (Target.IsParam text) c.start hi ts :=
  (mark_begins hc (by decide)).bind fun _ _ hbegan =>
    (items_reads (fun _ => param_reads hg) ")" g.bound).mono fun _ _ hts =>
      ⟨hbegan.mono (hts.le fun ht => ht.stands.le),
        hts.mono_left (Nat.le_of_lt hbegan.lt) fun hle ht => ht.mono hle (Nat.le_refl _)⟩

theorem constructorParam_reads : Reads text lo (constructorParam g m) (Target.Stands text lo) :=
  (accessWord?_passes.repeated g.bound).bind fun _ => (plainParam_reads hg).bind fun _ _ ht =>
    .ite (fun _ => .pure ht.stands) fun _ => (require_peeks _).bind fun _ =>
      .pure (Target.stands_undeclared ht.stands)

theorem constructorParams_reads :
    Reads text lo (constructorParams g m) (InOrder (Target.Stands text) lo) :=
  (mark_passes "(").bind fun _ => items_reads (fun _ => constructorParam_reads hg) ")" g.bound

end

end ParamLowering.Grammar
