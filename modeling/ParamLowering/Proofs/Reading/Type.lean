import ParamLowering.Grammar.Type
import ParamLowering.Proofs.Reading.Binding
set_option autoImplicit false

/-! Types leave names and keys that stand where they were read. -/

namespace ParamLowering.Grammar

open ParamLowering.Tree Parse

variable {text : List Char} {lo : Nat} {g : Rules} {m : Mode} {c : Cursor}

/-! ### Angle brackets -/

/-- The first character of a sign is passed over. -/
theorem skipOne_begins {d : Char} {cs : List Char} (hc : c.In text)
    (hrest : c.place.rest = d :: cs) (hd : d.utf8Size = 1) :
    Begins text c (resume (c.place.skip 1)) fun hi _ => c.start < hi := by
  have hskip := Place.Leads.skip_one hrest hd
  have hlt : c.start < (c.place.skip 1).offset :=
    Nat.lt_succ_of_le hc.start_le_place
  exact (resume_runs (hc.place_in.trans hskip) (Nat.le_of_lt hlt)).mono fun _ _ h => h ▸ hlt

theorem closeAngle_passes : Passes text closeAngle := by
  refine .of_begins fun c hc => begins_get ?_
  dsimp only
  split
  · exact (skipOne_begins hc ‹_› (by decide)).mono fun _ _ _ => trivial
  · exact .failure

theorem openAngle_begins (hc : c.In text) :
    Begins text c openAngle fun hi _ => c.start < hi := by
  refine begins_get ?_
  dsimp only
  split
  · exact skipOne_begins hc ‹_› (by decide)
  · exact .failure

theorem openAngle_passes : Passes text openAngle :=
  .of_begins fun _ hc => (openAngle_begins hc).mono fun _ _ _ => trivial

theorem atAngle_peeks : Peeks atAngle := token_peeks.seq fun _ => .pure _

theorem varianceWord?_passes : Passes text varianceWord? :=
  token_peeks.passes.seq fun _ => (nextIs_peeks _).passes.seq fun _ =>
    .ite (skip_passes.seq fun _ => .pure _) (.pure _)

section

variable (hg : g.Reads text)

include hg

theorem typeArguments_reads : Reads text lo (typeArguments g m) (Node.StandAll text lo) :=
  openAngle_passes.bind fun _ => (separated_reads (fun _ => hg.type) "," g.bound).bind
    fun _ _ htypes => closeAngle_passes.bind fun _ => .pure (.flatten htypes)

theorem typeArguments?_reads : Reads text lo (typeArguments? g m) (Node.StandAll text lo) :=
  atAngle_peeks.bind fun _ => onNewLine_peeks.bind fun _ =>
    .ite (fun _ => typeArguments_reads hg) fun _ => .pure .nil

/-! ### Type parameters -/

theorem typeParameter_reads : Reads text lo (typeParameter g m) (Node.StandAll text lo) := by
  refine (varianceWord?_passes.repeated g.bound).bind fun _ => ident_passes.bind fun id =>
    (word?_passes "extends").bind fun _ => .branch hg.type (.pure .nil) fun _ bound hbound => ?_
  refine (mark?_passes "=").bind fun _ => .branch hg.type (.pure .nil) fun _ default hdefault => ?_
  exact .pure (.name (.append hbound hdefault))

theorem typeParametersFrom_reads (bound : Nat) :
    Reads text lo (typeParametersFrom g m bound) (Node.StandAll text lo) := by
  induction bound generalizing lo with
  | zero => exact .failure
  | succ bound ih =>
    refine (atMark_peeks ">").bind fun _ => .ite
      (fun _ => closeAngle_passes.bind fun _ => .pure .nil) fun _ => ?_
    refine (typeParameter_reads hg).bind fun _ names hnames => (mark?_passes ",").bind fun _ => .ite
      (fun _ => ih.bind fun _ more hmore => .pure (.append hnames hmore)) fun _ => ?_
    exact closeAngle_passes.bind fun _ => .pure hnames

theorem typeParameters?_reads : Reads text lo (typeParameters? g m) (Node.StandAll text lo) :=
  (atMark_peeks "<").bind fun _ => .ite
    (fun _ => openAngle_passes.bind fun _ => typeParametersFrom_reads hg g.bound)
    fun _ => .pure .nil

/-- Something that type parameters may stand in front of. -/
theorem begins_typeParameters? {β : Type} {f : List Node → Parse β} {R : Nat → β → Prop}
    (hc : c.In text) (hread : ∀ hi names, Began text c.start hi → Reads text hi (f names) R)
    (hleft : Begins text c (f []) R) : Begins text c (typeParameters? g m >>= f) R := by
  rintro _ c' b rfl h
  obtain ⟨names, d, hnames, hrest⟩ := bind_eq_some.1 h
  obtain ⟨angle, e, hangle, hnames⟩ := bind_eq_some.1 hnames
  obtain ⟨rfl, rfl⟩ := Prod.mk.inj (Option.some.inj hangle)
  split at hnames
  · rename_i hthere
    have hopens := Token.opens_of_isMark (Bool.and_eq_true_iff.1 hthere).2 (by decide)
    have hread' : Begins text c (do openAngle; typeParametersFrom g m g.bound)
        fun hi _ => c.start < hi := (openAngle_begins hc).bind fun lo _ hlt =>
      (typeParametersFrom_reads hg g.bound).mono fun _ _ hnames => Nat.lt_of_lt_of_le hlt hnames.le
    obtain ⟨mid, -, hd, hlt⟩ := hread' c d names rfl hnames
    obtain ⟨hi, hle, hc', hb⟩ := hread mid names ⟨hlt, (hc.began hopens).opens⟩ d c' b hd hrest
    exact ⟨hi, Nat.le_trans (Nat.le_of_lt hlt) hle, hc', hb⟩
  · obtain ⟨rfl, rfl⟩ := Prod.mk.inj (Option.some.inj hnames)
    exact hleft _ c' b rfl hrest

end

/-! ### Function types -/

theorem assertionAhead_peeks : Peeks assertionAhead := get_peeks.seq fun _ => .pure _

theorem predicateAhead_peeks : Peeks predicateAhead :=
  token_peeks.seq fun _ => .ite (nextOnLineIs_peeks _) (.pure _)

theorem standAll_mentioned {hi : Nat} {span : Span} {targets : List Target}
    (h : InOrder (Target.IsParam text) lo hi targets) :
    Node.StandAll text lo hi (mentioned span targets) := by
  unfold mentioned
  split
  · exact .mono .nil (Nat.le_refl _) (h.le fun ht => ht.stands.le)
  · exact .single (Node.stands_declaration (.inr (.inr rfl))
      (h.map fun ht => Target.stands_undeclared ht.stands))

section

variable (hg : g.Reads text)

include hg

theorem predicate_reads : Reads text lo (predicate g m) (Node.StandAll text lo) := by
  refine anyName_passes.bind fun id => (word?_passes "is").bind fun _ =>
    .branch hg.type (.pure .nil) fun _ names hnames => .pure ?_
  split
  · exact hnames
  · exact .name hnames

theorem typeOrPredicate_reads : Reads text lo (typeOrPredicate g m) (Node.StandAll text lo) :=
  assertionAhead_peeks.bind fun _ => .ite
    (fun _ => skip_passes.bind fun _ => predicate_reads hg)
    fun _ => predicateAhead_peeks.bind fun _ => .ite (fun _ => predicate_reads hg) fun _ => hg.type

theorem returnType?_reads (sign : String) :
    Reads text lo (returnType? g m sign) (Node.StandAll text lo) :=
  (mark?_passes sign).branch (.pure _) fun _ => .ite
    (fun _ => typeOrPredicate_reads hg) fun _ => .pure .nil

theorem signatureType_reads (sign : String) :
    Reads text lo (signatureType g m sign) (Node.StandAll text lo) :=
  start_peeks.bind fun at_ => (typeParameters?_reads hg).bind fun _ _ hnames =>
    (params_reads hg).bind fun _ _ htargets => (spanFrom_peeks at_).bind fun _ =>
      (returnType?_reads hg sign).bind fun _ _ hresult =>
        .pure ((hnames.append (standAll_mentioned htargets)).append hresult)

theorem functionType_reads : Reads text lo (functionType g m) (Node.StandAll text lo) :=
  start_peeks.bind fun at_ => (typeParameters?_reads hg).bind fun _ _ hnames =>
    (params_reads hg).bind fun _ _ htargets => (spanFrom_peeks at_).bind fun _ =>
      (mark_passes "=>").bind fun _ => (typeOrPredicate_reads hg).bind fun _ _ hresult =>
        .pure ((hnames.append (standAll_mentioned htargets)).append hresult)

end

/-! ### Members -/

theorem memberEnd_passes : Passes text memberEnd :=
  (mark?_passes ";").seq fun _ => .ite (.pure _) <|
    (mark?_passes ",").seq fun _ => .ite (.pure _) <|
      get_peeks.passes.seq fun _ => (require_peeks _).passes

theorem leadsKey_peeks (name : String) : Peeks (leadsKey name) :=
  (atWord_peeks name).seq fun _ => .ite (nextIs_peeks _) (.pure _)

section

variable (hg : g.Reads text)

include hg

theorem indexSignature_reads : Reads text lo (indexSignature g m) (Node.StandAll text lo) :=
  (mark_passes "[").bind fun _ => ident_passes.bind fun _ => (mark_passes ":").bind fun _ =>
    hg.type.bind fun _ _ hkeys => (mark_passes "]").bind fun _ =>
      (typeNotes?_reads hg).bind fun _ _ hvalues => .pure (.name (hkeys.append hvalues))

theorem memberKey_reads : Reads text lo (memberKey g m) (Node.StandAll text lo) := by
  refine (key_reads hg).bind fun _ k hk => ?_
  split
  · exact .pure (.name hk.parts)
  · exact .pure hk.parts

theorem keyedMember_reads : Reads text lo (keyedMember g m) (Node.StandAll text lo) := by
  refine (leadsKey_peeks "readonly").bind fun _ => .optional skip_passes ?_
  refine (atMark_peeks "[").bind fun _ => (ahead_peeks _).bind fun _ => .ite
    (fun _ => indexSignature_reads hg) fun _ => ?_
  refine (leadsKey_peeks "get").bind fun _ => (leadsKey_peeks "set").bind fun _ =>
    .optional skip_passes ?_
  refine (memberKey_reads hg).bind fun _ names hnames => (mark?_passes "?").bind fun _ =>
    (atMark_peeks "(").bind fun _ => (atMark_peeks "<").bind fun _ => .ite (fun _ => ?_)
      fun _ => ?_
  · exact (signatureType_reads hg ":").bind fun _ _ hsignature => .pure (hnames.append hsignature)
  · exact (typeNotes?_reads hg).bind fun _ _ hnotes => .pure (hnames.append hnotes)

theorem typeMember_reads : Reads text lo (typeMember g m) (Node.StandAll text lo) := by
  have hend : ∀ hi names, Node.StandAll text lo hi names →
      Reads text hi (do memberEnd; return names) (Node.StandAll text lo) :=
    fun _ _ hnames => memberEnd_passes.bind fun _ => .pure hnames
  refine (atWord_peeks "new").bind fun _ => (nextIs_peeks _).passes.branch (.pure _) fun _ =>
    (atMark_peeks "(").bind fun _ => (atMark_peeks "<").bind fun _ => .ite (fun _ => ?_)
      fun _ => .branch (signatureType_reads hg ":") (keyedMember_reads hg) hend
  exact skip_passes.bind fun _ => (signatureType_reads hg ":").bind hend

theorem typeMembers_reads : Reads text lo (typeMembers g m) (Node.StandAll text lo) := by
  refine (mark_passes openBrace).bind fun _ => (repeated_reads (fun _ => ?_) g.bound).bind
    fun _ _ hmembers => .pure (.flatten hmembers)
  exact (mark?_passes closeBrace).bind fun _ =>
    .ite (fun _ => .absent) fun _ => (typeMember_reads hg).present

end

/-! ### Other types -/

theorem plusOrMinus?_passes : Passes text plusOrMinus? :=
  (mark?_passes "+").seq fun _ => .ite (.pure _) (mark?_passes "-")

theorem mappedModifier?_passes {p : Parse Bool} (hp : Passes text p) :
    Passes text (mappedModifier? p) :=
  plusOrMinus?_passes.seq fun _ => .ite (hp.seq fun _ => (require_peeks _).passes)
    (hp.seq fun _ => .pure _)

theorem entityName_passes : Passes text (entityName g) := by
  have hmembers : ∀ id : Ident, Passes text (do
      let _ ← repeated g.bound do
        if ← mark? "." then
          let _ ← anyName
          return some ()
        else return none
      return id) := fun id => by
    refine Passes.seq (Passes.repeated ?_ g.bound) fun _ => .pure _
    exact (mark?_passes ".").seq fun _ => .ite (anyName_passes.seq fun _ => .pure _) (.pure _)
  exact (atWord_peeks "this").passes.seq fun _ =>
    .ite (anyName_passes.seq hmembers) (ident_passes.seq hmembers)

theorem typeOperator?_passes : Passes text typeOperator? :=
  token_peeks.passes.seq fun _ => (nextIs_peeks _).passes.seq fun _ =>
    .ite (skip_passes.seq fun _ => .pure _) (.pure _)

theorem inferredBound?_reads {inCondition : Bool} {operand : Parse (List Node)}
    (h : Reads text lo operand (Node.StandAll text lo)) :
    Reads text lo (inferredBound? inCondition operand) (Node.StandAll text lo) := by
  refine (atWord_peeks "extends").bind fun _ => .ite (fun _ => ?_) fun _ => .pure .nil
  refine (Runs.attempt (S := fun hi o => Node.StandAll text lo hi (o.getD [])) ?_ .nil).bind
    fun _ found hfound => .pure hfound
  exact skip_passes.bind fun _ => h.bind fun _ names hnames => (atMark_peeks "?").bind fun _ =>
    (require_peeks _).bind fun _ => .pure hnames

theorem joinedTypes_reads (sign : String) {operand : Parse (List Node)}
    (h : ∀ lo, Reads text lo operand (Node.StandAll text lo)) :
    Reads text lo (joinedTypes g sign operand) (Node.StandAll text lo) :=
  (mark?_passes sign).bind fun _ => (separated_reads h sign g.bound).bind fun _ _ hoperands =>
    .pure (.flatten hoperands)

theorem functionAhead_peeks : Peeks (functionAhead g m) :=
  (atMark_peeks "<").seq fun _ => (atWord_peeks "new").seq fun _ => .ite (.pure _) <|
    (atWord_peeks "abstract").seq fun _ => .ite (nextIs_peeks _) (ahead_peeks _)

section

variable (hg : g.Reads text)

include hg

theorem mappedType_reads : Reads text lo (mappedType g m) (Node.StandAll text lo) := by
  refine (mark_passes openBrace).bind fun _ => (mappedModifier?_passes (word?_passes _)).bind
    fun _ => (mark_passes "[").bind fun _ => ident_passes.bind fun id =>
      (word_passes "in").bind fun _ => hg.type.bind fun _ keys hkeys => ?_
  refine (word?_passes "as").bind fun _ => .branch hg.type (.pure .nil) fun _ renamed hrenamed => ?_
  refine (mark_passes "]").bind fun _ => (mappedModifier?_passes (mark?_passes _)).bind fun _ =>
    (typeNotes?_reads hg).bind fun _ values hvalues => (mark?_passes ";").bind fun _ =>
      .optional (mark?_passes ",") ((mark_passes closeBrace).bind fun _ => .pure ?_)
  exact .name ((hkeys.append hrenamed).append hvalues)

theorem tupleElement_reads : Reads text lo (tupleElement g m) (Node.StandAll text lo) := by
  refine (mark?_passes "...").bind fun _ => (ahead_peeks _).bind fun _ => .ite (fun _ => ?_)
    fun _ => ?_
  · exact anyName_passes.bind fun _ => (mark?_passes "?").bind fun _ =>
      (mark_passes ":").bind fun _ => hg.type.bind fun _ _ hnames => .pure (.name hnames)
  · exact hg.type.bind fun _ _ hnames => (mark?_passes "?").bind fun _ => .pure hnames

theorem typeReference_reads : Reads text lo (typeReference g m) (Node.StandAll text lo) :=
  entityName_passes.bind fun _ => (typeArguments?_reads hg).bind fun _ _ hgiven =>
    .pure (.name hgiven)

theorem importType_reads : Reads text lo (importType g m) (Node.StandAll text lo) := by
  have hgiven : ∀ names, Node.StandAll text lo lo names → Reads text lo
      (do return names ++ (← typeArguments? g m)) (Node.StandAll text lo) :=
    fun names hnames => (typeArguments?_reads hg).bind fun _ _ hgiven =>
      .pure (hnames.append hgiven)
  have hend : Reads text lo (do
      mark ")"
      let names ← if ← mark? "." then pure [.name (← entityName g)] else pure []
      return names ++ (← typeArguments? g m)) (Node.StandAll text lo) :=
    (mark_passes ")").bind fun _ => (mark?_passes ".").bind fun _ => .ite
      (fun _ => entityName_passes.bind fun _ => hgiven _ (.name .nil)) fun _ => hgiven _ .nil
  refine (word_passes "import").bind fun _ => (mark_passes "(").bind fun _ =>
    token_peeks.bind fun _ => (require_peeks _).bind fun _ => skip_passes.bind fun _ =>
      (mark?_passes ",").bind fun _ => .ite (fun _ => ?_) fun _ => hend
  exact (atMark_peeks ")").bind fun _ => .ite (fun _ => hg.assignment.drop fun _ =>
    (mark?_passes ",").bind fun _ => hend) fun _ => hend

theorem typeQuery_reads : Reads text lo (typeQuery g m) (Node.StandAll text lo) :=
  (word_passes "typeof").bind fun _ => (atWord_peeks "import").bind fun _ => .ite
    (fun _ => importType_reads hg) fun _ => typeReference_reads hg

theorem primaryType_reads : Reads text lo (primaryType g m) (Node.StandAll text lo) := by
  refine token_peeks.bind fun t => ?_
  split
  · refine (nextIs_peeks _).bind fun _ => .ite
      (fun _ => skip_passes.bind fun _ => .pure .nil) fun _ => ?_
    exact .ite (fun _ => typeQuery_reads hg) fun _ => .ite (fun _ => importType_reads hg)
      fun _ => typeReference_reads hg
  · exact skip_passes.bind fun _ => .pure .nil
  · exact skip_passes.bind fun _ => .pure .nil
  · exact skip_passes.bind fun _ => .pure .nil
  · exact (template_reads (fun _ => hg.type) false).bind fun _ _ hparts => .pure (.flatten hparts)
  · exact skip_passes.bind fun _ => token_peeks.bind fun _ => (require_peeks _).bind fun _ =>
      skip_passes.bind fun _ => .pure .nil
  · exact skip_passes.bind fun _ => hg.type.bind fun _ _ hnames => (mark_passes ")").bind fun _ =>
      .pure hnames
  · exact skip_passes.bind fun _ => (items_reads (fun _ => tupleElement_reads hg) "]" g.bound).bind
      fun _ _ hnames => .pure (.flatten hnames)
  · exact (ahead_peeks _).bind fun _ => .ite (fun _ => mappedType_reads hg)
      fun _ => typeMembers_reads hg
  · exact .failure

theorem arrayType_reads : Reads text lo (arrayType g m) (Node.StandAll text lo) := by
  refine (primaryType_reads hg).bind fun _ names hnames =>
    (repeated_reads (Q := Node.StandAll text) (fun lo => ?_) g.bound).bind fun _ more hmore =>
      .pure (hnames.append (.flatten hmore))
  refine onNewLine_peeks.bind fun _ => .ite (fun _ => .absent) fun _ =>
    (mark?_passes "[").bind fun _ => .ite (fun _ => .absent) fun _ =>
      (mark?_passes "]").bind fun _ => .ite (fun _ => .pure (by simpa using .nil)) fun _ => ?_
  exact hg.type.bind fun _ index hindex => (mark_passes "]").bind fun _ =>
    .pure (by simpa using hindex)

theorem operatorType_reads (inCondition : Bool) (bound : Nat) :
    Reads text lo (operatorType g m inCondition bound) (Node.StandAll text lo) := by
  induction bound generalizing lo with
  | zero => exact .failure
  | succ bound ih =>
    refine (typeOperator?_passes.repeated g.bound).bind fun _ => (atWord_peeks "infer").bind
      fun _ => (nextIs_peeks _).passes.branch (.pure _) fun _ => .ite (fun _ => ?_) fun _ =>
        functionAhead_peeks.bind fun _ => .ite (fun _ => hg.type) fun _ => arrayType_reads hg
    exact skip_passes.bind fun _ => ident_passes.bind fun id => (inferredBound?_reads
      (joinedTypes_reads "|" fun _ => joinedTypes_reads "&" fun _ => ih)).bind
        fun _ more hmore => .pure (.name hmore)

theorem unionType_reads (inCondition : Bool) :
    Reads text lo (unionType g m inCondition) (Node.StandAll text lo) :=
  joinedTypes_reads "|" fun _ => joinedTypes_reads "&" fun _ =>
    operatorType_reads hg inCondition g.bound

theorem type_reads : Reads text lo (type g m) (Node.StandAll text lo) := by
  refine functionAhead_peeks.bind fun _ => .ite (fun _ => ?_) fun _ => ?_
  · exact (word?_passes "abstract").bind fun _ => (word?_passes "new").bind fun _ =>
      functionType_reads hg
  · refine (unionType_reads hg false).bind fun _ names hnames => (atWord_peeks "extends").bind
      fun _ => onNewLine_peeks.bind fun _ => .ite (fun _ => ?_) fun _ => .pure hnames
    exact skip_passes.bind fun _ => (unionType_reads hg true).bind fun _ _ hbound =>
      (mark_passes "?").bind fun _ => hg.type.bind fun _ _ htrue => (mark_passes ":").bind fun _ =>
        hg.type.bind fun _ _ hfalse => .pure (((hnames.append hbound).append htrue).append hfalse)

end

end ParamLowering.Grammar
