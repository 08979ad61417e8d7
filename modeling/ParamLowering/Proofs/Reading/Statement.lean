import ParamLowering.Grammar.Statement
import ParamLowering.Proofs.Reading.Expression
set_option autoImplicit false

/-! Statements stand where they were read, and begin with the token from which they were read. -/

namespace ParamLowering.Grammar

open ParamLowering.Tree Parse

variable {text : List Char} {lo lo' hi at_ : Nat} {g : Rules} {m : Mode} {c : Cursor}

theorem groupFrom_reads {parts : List Node} (hat : Starts text at_ lo')
    (h : Node.StandAll text lo' lo parts) :
    Reads text lo (groupFrom at_ parts) (Node.StandsAt text at_) :=
  (spanFrom_reads at_).bind fun _ _ hspan => .pure (.group hat hspan h)

/-- A construct that ends with its statement. -/
theorem ended_reads {parts : List Node} (hat : Starts text at_ lo')
    (h : Node.StandAll text lo' lo parts) :
    Reads text lo (do semicolon; groupFrom at_ parts) (Node.StandsAt text at_) :=
  semicolon_passes.bind fun _ => groupFrom_reads hat h

theorem atStatementEnd_peeks : Peeks atStatementEnd := get_peeks.seq fun _ => .pure _

/-! ### Variables -/

/-- A declaration of variables whose targets stand one behind the other. -/
def Declares (text : List Char) (lo hi : Nat) (n : Node) : Prop :=
  ∃ span kind targets, n = .declaration span kind targets ∧
    (kind = .var ∨ kind = .letBinding ∨ kind = .constBinding) ∧
      InOrder (Target.Stands text) lo hi targets

theorem Declares.stands {n : Node} (h : Declares text lo hi n) : n.Stands text lo hi := by
  obtain ⟨span, kind, targets, rfl, hkind, htargets⟩ := h
  exact Node.stands_declaration hkind htargets

theorem Declares.widened {n : Node} {s : Span} (h : Declares text lo lo' n)
    (hat : Starts text at_ lo) (hs : lo' ≤ hi ∧ s = ⟨at_, hi⟩ ∧ Text.isBoundary text hi = true) :
    (widened n s).StandsAt text at_ hi := by
  obtain ⟨span, kind, targets, rfl, hkind, htargets⟩ := h
  obtain ⟨hle, rfl, -⟩ := hs
  exact ⟨(Node.stands_declaration hkind htargets).mono hat.le hle, rfl, hat.boundary⟩

theorem variableKind?_peeks : Peeks (variableKind? m) :=
  (atWord_peeks "var").seq fun _ => .ite (.pure _) <| .ite (.pure _) <|
    (atWord_peeks "const").seq fun _ => .ite (.pure _) <| (atWord_peeks "let").seq fun _ =>
      (nextIs_peeks _).seq fun _ => .ite (.pure _) (.pure _)

theorem variableKind?_eq_some {kind : DeclarationKind} {c' : Cursor}
    (h : variableKind? m c = some (some kind, c')) :
    kind = .var ∨ kind = .letBinding ∨ kind = .constBinding := by
  obtain ⟨isVar, d, -, h⟩ := bind_eq_some.1 h
  split at h
  · exact .inl (Option.some.inj (Prod.mk.inj (Option.some.inj h)).1).symm
  split at h
  · cases h
  obtain ⟨isConst, d, -, h⟩ := bind_eq_some.1 h
  split at h
  · exact .inr (.inr (Option.some.inj (Prod.mk.inj (Option.some.inj h)).1).symm)
  obtain ⟨isLet, d, -, h⟩ := bind_eq_some.1 h
  obtain ⟨binds, d, -, h⟩ := bind_eq_some.1 h
  split at h
  · exact .inr (.inl (Option.some.inj (Prod.mk.inj (Option.some.inj h)).1).symm)
  · cases h

theorem resourcesAhead_peeks : Peeks (resourcesAhead m) :=
  .ite (.pure _) (get_peeks.seq fun _ => .pure _)

section

variable (hg : g.Reads text)

include hg

theorem declarator_reads (kind : DeclarationKind) :
    Reads text lo (declarator g m kind) (Target.Stands text lo) := by
  refine (atWord_peeks "let").bind fun _ => (require_peeks _).bind fun _ =>
    (typedTarget_reads hg "!").bind fun _ target htarget => (mark?_passes "=").bind fun _ =>
      .ite (fun _ => ?_) fun _ => .pure htarget
  exact hg.value.bind fun _ _ ⟨_, hle, ho⟩ => .pure
    (Target.stands_withDefault htarget (ho.stands.mono hle (Nat.le_refl _)) ho.isText)

theorem declarators_reads (kind : DeclarationKind) :
    Reads text lo (declarators g m kind) (InOrder (Target.Stands text) lo) :=
  separated_reads (fun _ => declarator_reads hg kind) "," g.bound

theorem resources_begins (hc : c.In text) :
    Begins text c (resources g m) (Declares text c.start) := by
  have hrest : ∀ {lo}, c.start ≤ lo → Reads text lo (do
      let targets ← declarators g m .var
      return .declaration (← spanFrom c.start) .constBinding (targets.map .undeclared))
        (Declares text c.start) := fun hle =>
    (declarators_reads hg .var).bind fun _ _ htargets => (spanFrom_peeks c.start).bind fun span =>
      .pure ⟨span, _, _, rfl, .inr (.inr rfl), (htargets.mono_left hle
        fun hle ht => ht.mono hle (Nat.le_refl _)).map Target.stands_undeclared⟩
  exact begins_start (begins_word? hc (fun _ => (word_passes "using").bind fun _ =>
    hrest hc.start_le_ahead) ((word_begins hc "using").bind fun _ _ hbegan => hrest hbegan.le))

theorem variableList?_offers (hc : c.In text) :
    Offers text c (variableList? g m) (Declares text c.start) := by
  refine resourcesAhead_peeks.offer fun _ => .ite (fun _ => .given (resources_begins hg hc))
    fun _ => .peek variableKind?_peeks fun kind hkind => ?_
  cases kind with
  | none => exact .nothing
  | some kind =>
    refine .start (.of_runs ((skip_goes hc).bind fun _ _ hle => (declarators_reads hg kind).bind
      fun _ targets htargets => (spanFrom_peeks c.start).bind fun span => .pure ⟨_, rfl, ?_⟩))
    exact ⟨span, kind, targets, rfl, variableKind?_eq_some hkind,
      htargets.mono_left hle fun hle ht => ht.mono hle (Nat.le_refl _)⟩

theorem passLeftover_passes : Passes text (passLeftover g m) := by
  refine atStatementEnd_peeks.passes.seq fun _ => .ite (.pure _) <|
    (Runs.passes fun _ => hg.expression).attempt.seq fun _ =>
      (Passes.repeated ?_ g.bound).seq fun _ => .pure _
  exact atStatementEnd_peeks.passes.seq fun _ => .ite (.pure _) <| token_peeks.passes.seq fun _ =>
    (require_peeks _).passes.seq fun _ => skip_passes.seq fun _ => .pure _

theorem variableStatement_begins (hc : c.In text) (hat : Starts text at_ c.start) :
    Begins text c (variableStatement g m at_) (Node.StandsAt text at_) :=
  (variableList?_offers hg hc).bind (fun _ _ hn => (passLeftover_passes hg).bind fun _ =>
    semicolon_passes.bind fun _ => (spanFrom_reads at_).bind fun _ _ hspan =>
      .pure (hn.widened hat hspan)) .failure

/-! ### Control flow -/

theorem expressionInParentheses_reads :
    Reads text lo (expressionInParentheses g m) (Node.Stands text lo) :=
  (mark_passes "(").bind fun _ => hg.expression.bind fun _ _ hn => (mark_passes ")").bind fun _ =>
    .pure hn

theorem single_reads : Reads text lo (single g m) (Node.Stands text lo) :=
  hg.statement.mono fun _ _ hn => hn.stands

theorem block_begins (hc : c.In text) :
    Begins text c (block g m) (Node.StandsAt text c.start) :=
  (body_begins hg hc).bind fun _ _ ⟨hstart, hb⟩ =>
    .pure ⟨Node.stands_block hb.standAll, hstart, hc.isBoundary_start⟩

theorem block_reads : Reads text lo (block g m) (Node.Stands text lo) :=
  (body_reads hg).bind fun _ _ hb => .pure (Node.stands_block hb.standAll)

theorem ifStatement_begins (hc : c.In text) :
    Begins text c (ifStatement g m) (Node.StandsAt text c.start) := by
  refine begins_start ((word_begins hc "if").bind fun _ _ hbegan =>
    (expressionInParentheses_reads hg).bind fun _ _ htest => (single_reads hg).bind
      fun _ _ htrue => (word?_passes "else").bind fun _ => .ite (fun _ => ?_) fun _ =>
        groupFrom_reads (hc.starts hbegan.le) (.cons htest (.single htrue)))
  exact (single_reads hg).bind fun _ _ hfalse =>
    groupFrom_reads (hc.starts hbegan.le) (.cons htest (.cons htrue (.single hfalse)))

theorem expressionUnless_reads (sign : String) :
    Reads text lo (expressionUnless g m sign) (Node.StandAll text lo) :=
  (atMark_peeks sign).bind fun _ => .ite (fun _ => .pure .nil) fun _ =>
    hg.expression.bind fun _ _ hn => .pure (.single hn)

theorem loopRest_reads : Reads text lo (loopRest g m) (Node.StandAll text lo) := by
  refine (word?_passes "of").bind fun _ => .ite
    (fun _ => hg.assignment.bind fun _ _ ho => .pure (.single ho)) fun _ =>
      (word?_passes "in").bind fun _ => .ite
        (fun _ => hg.expression.bind fun _ _ hn => .pure (.single hn)) fun _ => ?_
  exact (mark_passes ";").bind fun _ => (expressionUnless_reads hg ";").bind fun _ _ htest =>
    (mark_passes ";").bind fun _ => (expressionUnless_reads hg ")").bind fun _ _ hstep =>
      .pure (htest.append hstep)

theorem forStatement_begins (hc : c.In text) :
    Begins text c (forStatement g m) (Node.StandsAt text c.start) := by
  refine begins_start ((word_begins hc "for").bind fun lo _ hbegan =>
    (word?_passes "await").bind fun _ => (mark_passes "(").bind fun _ =>
      (atMark_peeks ";").bind fun _ => ?_)
  extract_lets behind
  have hbehind : ∀ mid first, Node.StandAll text lo mid first →
      Reads text mid (behind first) (Node.StandsAt text c.start) := fun mid first hfirst =>
    (loopRest_reads hg).bind fun _ _ hrest => (mark_passes ")").bind fun _ =>
      (single_reads hg).bind fun _ _ hinner =>
        groupFrom_reads (hc.starts hbegan.le) ((hfirst.append hrest).append (.single hinner))
  refine .ite (fun _ => hbehind lo [] .nil) fun _ => .of_begins fun d hd hle =>
    (variableList?_offers hg hd).bind (fun _ n hn => ?_) ?_
  · exact hbehind _ _ (.single (hn.stands.mono hle (Nat.le_refl _)))
  · exact (hg.expressionAt hd).bind fun _ _ hfirst =>
      hbehind _ _ (.single (hfirst.mono hle (Nat.le_refl _)))

theorem whileStatement_begins (hc : c.In text) :
    Begins text c (whileStatement g m) (Node.StandsAt text c.start) :=
  begins_start ((word_begins hc "while").bind fun _ _ hbegan =>
    (expressionInParentheses_reads hg).bind fun _ _ htest => (single_reads hg).bind
      fun _ _ hinner => groupFrom_reads (hc.starts hbegan.le) (.cons htest (.single hinner)))

theorem doStatement_begins (hc : c.In text) :
    Begins text c (doStatement g m) (Node.StandsAt text c.start) :=
  begins_start ((word_begins hc "do").bind fun _ _ hbegan => (single_reads hg).bind
    fun _ _ hinner => (word_passes "while").bind fun _ =>
      (expressionInParentheses_reads hg).bind fun _ _ htest => (mark?_passes ";").bind fun _ =>
        groupFrom_reads (hc.starts hbegan.le)
          (Node.StandAll.prepend (.single hinner) (.single htest)))

theorem switchCase?_reads :
    Reads text lo (switchCase? g m) fun hi o => ∀ ns ∈ o, Node.StandAll text lo hi ns := by
  refine (mark?_passes closeBrace).bind fun _ => .ite (fun _ => .absent) fun _ =>
    (word?_passes "default").bind fun _ => ?_
  extract_lets behind
  have hbehind : ∀ mid test, Node.StandAll text lo mid test →
      Reads text mid (behind test) fun hi o => ∀ ns ∈ o, Node.StandAll text lo hi ns := by
    refine fun mid test htest => (mark_passes ":").bind fun _ =>
      (repeated_reads (Q := Node.Stands text) (fun _ => ?_) g.bound).bind fun _ inner hinner =>
        .pure (by simpa using htest.append (.of_inOrder hinner))
    exact (atMark_peeks closeBrace).bind fun _ => (atWord_peeks "case").bind fun _ =>
      (atWord_peeks "default").bind fun _ =>
        .ite (fun _ => .absent) fun _ => (hg.statement.mono fun _ _ hn => hn.stands).present
  exact .ite (fun _ => hbehind lo [] .nil) fun _ => (word_passes "case").bind fun _ =>
    hg.expression.bind fun _ _ htest => hbehind _ _ (.single htest)

theorem switchStatement_begins (hc : c.In text) :
    Begins text c (switchStatement g m) (Node.StandsAt text c.start) :=
  begins_start ((word_begins hc "switch").bind fun _ _ hbegan =>
    (expressionInParentheses_reads hg).bind fun _ _ hvalue => (mark_passes openBrace).bind
      fun _ => (repeated_reads (fun _ => switchCase?_reads hg) g.bound).bind fun _ _ hcases =>
        groupFrom_reads (hc.starts hbegan.le) (.cons hvalue (.flatten hcases)))

theorem handler?_reads : Reads text lo (handler? g m) (Node.StandAll text lo) := by
  refine start_peeks.bind fun at_ => (word?_passes "catch").bind fun _ => .ite (fun _ => ?_)
    fun _ => .pure .nil
  refine (mark?_passes "(").bind fun _ => ?_
  extract_lets behind
  have hbehind : ∀ mid param, InOrder (Target.Stands text) lo mid param →
      Reads text mid (behind param) (Node.StandAll text lo) := fun mid param hparam =>
    (body_reads hg).bind fun _ _ hb => (spanFrom_peeks at_).bind fun _ =>
      .pure (.single (Node.stands_handler hparam hb.standAll))
  exact .ite (fun _ => (typedTarget_reads hg "?").bind fun mid _ ht => (mark_passes ")").bind
    fun _ => hbehind mid _ (.cons ht (.nil (Nat.le_refl _)))) fun _ =>
      hbehind lo [] (.nil (Nat.le_refl _))

theorem tryStatement_begins (hc : c.In text) :
    Begins text c (tryStatement g m) (Node.StandsAt text c.start) :=
  begins_start ((word_begins hc "try").bind fun _ _ hbegan => (block_reads hg).bind
    fun _ _ hinner => (handler?_reads hg).bind fun mid _ hhandlers =>
      (word?_passes "finally").bind fun _ => .made (S := Node.StandAll text mid)
        ((block_reads hg).mono fun _ _ hn => .single hn) .nil fun _ _ hlast =>
          groupFrom_reads (hc.starts hbegan.le) (.append (.cons hinner hhandlers) hlast))

theorem returnStatement_begins (hc : c.In text) :
    Begins text c (returnStatement g m) (Node.StandsAt text c.start) :=
  begins_start ((skip_goes hc).bind fun _ _ hle => atStatementEnd_peeks.bind fun _ =>
    .ite (fun _ => ended_reads (hc.starts hle) .nil) fun _ =>
      hg.expression.bind fun _ _ hvalue => ended_reads (hc.starts hle) (.single hvalue))

theorem throwStatement_begins (hc : c.In text) :
    Begins text c (throwStatement g m) (Node.StandsAt text c.start) :=
  begins_start ((skip_goes hc).bind fun _ _ hle => onNewLine_peeks.bind fun _ =>
    (require_peeks _).bind fun _ => hg.expression.bind fun _ _ hvalue =>
      ended_reads (hc.starts hle) (.single hvalue))

omit hg in
theorem jumpStatement_begins (hc : c.In text) :
    Begins text c jumpStatement (Node.StandsAt text c.start) :=
  begins_start ((skip_goes hc).bind fun _ _ hle => atStatementEnd_peeks.bind fun _ =>
    .ite (fun _ => ended_reads (hc.starts hle) .nil) fun _ =>
      ident_passes.bind fun _ => ended_reads (hc.starts hle) (.name .nil))

theorem withStatement_begins (hc : c.In text) :
    Begins text c (withStatement g m) (Node.StandsAt text c.start) :=
  begins_start ((word_begins hc "with").bind fun _ _ hbegan =>
    (expressionInParentheses_reads hg).bind fun _ _ hvalue => (single_reads hg).bind
      fun _ _ hinner => groupFrom_reads (hc.starts hbegan.le) (.cons hvalue (.single hinner)))

theorem labelled_begins (hc : c.In text) :
    Begins text c (labelled g m) (Node.StandsAt text c.start) :=
  begins_start ((ident_begins hc).bind fun _ _ ⟨hbegan, _⟩ => (mark_passes ":").bind fun _ =>
    (single_reads hg).bind fun _ _ hinner =>
      groupFrom_reads (hc.starts hbegan.le) (.name (.single hinner)))

theorem expressionStatement_begins (hc : c.In text) :
    Begins text c (expressionStatement g m) (Node.StandsAt text c.start) :=
  begins_start ((hg.expressionAt hc).bind fun _ _ hn =>
    ended_reads (hc.starts (Nat.le_refl _)) (.single hn))

/-! ### Declarations of types -/

theorem typeAlias_begins (hc : c.In text) (hat : Starts text at_ c.start) :
    Begins text c (typeAlias g m at_) (Node.StandsAt text at_) :=
  (word_begins hc "type").bind fun _ _ hbegan => ident_passes.bind fun _ =>
    (typeParameters?_reads hg).bind fun _ _ hown => (mark_passes "=").bind fun _ =>
      hg.type.bind fun _ _ hnames =>
        ended_reads (hat.mono hbegan.le) (.name (hown.append hnames))

theorem interface_begins (hc : c.In text) (hat : Starts text at_ c.start) :
    Begins text c (interface g m at_) (Node.StandsAt text at_) :=
  (word_begins hc "interface").bind fun _ _ hbegan => ident_passes.bind fun _ =>
    (typeParameters?_reads hg).bind fun _ _ hown => (heritage?_reads hg "extends").bind
      fun _ _ hbases => (typeMembers_reads hg).bind fun _ _ hmembers =>
        groupFrom_reads (hat.mono hbegan.le) (.name ((hown.append hbases).append hmembers))

theorem enumMember_reads : Reads text lo (enumMember g m) (Node.StandAll text lo) := by
  refine (key_reads hg).bind fun mid k hk => ?_
  extract_lets behind
  have hbehind : ∀ names, Node.StandAll text lo mid names →
      Reads text mid (behind names) (Node.StandAll text lo) := fun names hnames =>
    (mark?_passes "=").bind fun _ => .ite
      (fun _ => hg.assignment.bind fun _ _ ho => .pure (hnames.append (.single ho)))
      fun _ => .pure hnames
  split
  · exact hbehind _ (.name hk.parts)
  · exact .bind (Q := fun _ _ => False) .failure nofun
  · exact hbehind _ hk.parts

theorem enumDeclaration_begins (hc : c.In text) (hat : Starts text at_ c.start) :
    Begins text c (enumDeclaration g m at_) (Node.StandsAt text at_) :=
  (word_begins hc "enum").bind fun _ _ hbegan => ident_passes.bind fun _ =>
    (mark_passes openBrace).bind fun _ =>
      (items_reads (fun _ => enumMember_reads hg) closeBrace g.bound).bind fun _ _ hmembers =>
        groupFrom_reads (hat.mono hbegan.le) (.name (.flatten hmembers))

theorem namespaceBody_reads : Reads text lo (namespaceBody g m) (Node.StandAll text lo) :=
  (mark_passes openBrace).bind fun _ => (repeated_reads (fun _ => blockEnd?_passes.bind fun _ =>
    .ite (fun _ => .absent) fun _ => hg.item.present) g.bound).mono fun _ _ h => .of_inOrder h

theorem namespaceDeclaration_begins (hc : c.In text) (hat : Starts text at_ c.start) :
    Begins text c (namespaceDeclaration g m at_) (Node.StandsAt text at_) := by
  refine (skip_goes hc).bind fun lo _ hle => token_peeks.bind fun t => ?_
  split
  · exact skip_passes.bind fun _ => (atMark_peeks openBrace).bind fun _ => .ite
      (fun _ => (namespaceBody_reads hg).bind fun _ _ hinner =>
        groupFrom_reads (hat.mono hle) hinner) fun _ => ended_reads (hat.mono hle) .nil
  · have hnames : Passes text (separated g.bound "." ident) := ident_passes.separated "." g.bound
    exact hnames.bind fun ids => (namespaceBody_reads hg).bind fun _ _ hinner =>
      groupFrom_reads (hat.mono hle) ((Node.StandAll.names ids).append hinner)

theorem globalDeclaration_reads (hat : Starts text at_ lo) :
    Reads text lo (globalDeclaration g m at_) (Node.StandsAt text at_) :=
  ident_passes.bind fun _ => (namespaceBody_reads hg).bind fun _ _ hinner =>
    groupFrom_reads hat (.name hinner)

omit hg in
theorem typeDeclaration?_peeks : Peeks (typeDeclaration? m) := by
  refine .ite (.pure _) (token_peeks.seq fun t => ?_)
  have hahead : ∀ {p : Parse Bool} {kind : TypeDeclaration}, Peeks p →
      Peeks (do return if ← p then some kind else none) := fun hp => hp.seq fun _ => .pure _
  split
  · exact hahead (nextOnLineIs_peeks _)
  · exact hahead (nextOnLineIs_peeks _)
  · exact .pure _
  · exact hahead (nextIs_peeks _)
  · exact hahead (nextOnLineIs_peeks _)
  · exact hahead (nextOnLineIs_peeks _)
  · exact hahead (nextOnLineIs_peeks _)
  · exact .pure _

theorem typeDeclaration_begins (hc : c.In text) (hat : Starts text at_ c.start)
    (kind : TypeDeclaration) :
    Begins text c (typeDeclaration g m at_ kind) (Node.StandsAt text at_) := by
  cases kind with
  | typeAlias => exact typeAlias_begins hg hc hat
  | interface => exact interface_begins hg hc hat
  | enumeration => exact enumDeclaration_begins hg hc hat
  | constantEnumeration =>
    exact (skip_goes hc).bind fun _ _ hle => .of_begins fun _ hd hle' =>
      enumDeclaration_begins hg hd (hat.mono (Nat.le_trans hle hle'))
  | namespaceBlock => exact namespaceDeclaration_begins hg hc hat
  | abstractClass =>
    exact (skip_goes hc).bind fun _ _ hle => .of_begins fun _ hd hle' =>
      classDeclaration_begins hg hd (hat.mono (Nat.le_trans hle hle'))

/-! ### Statements -/

theorem declaration?_offers (hc : c.In text) (hat : Starts text at_ c.start) :
    Offers text c (declaration? g m at_) (Node.StandsAt text at_) := by
  refine typeDeclaration?_peeks.offer fun kind => ?_
  cases kind with
  | some kind => exact .given (typeDeclaration_begins hg hc hat kind)
  | none =>
    exact resourcesAhead_peeks.offer fun _ => variableKind?_peeks.offer fun _ =>
      .ite (fun _ => .given (variableStatement_begins hg hc hat)) fun _ =>
        atFunction_peeks.offer fun _ =>
          .ite (fun _ => .given (functionDeclaration_begins hg hc hat)) fun _ =>
            (atWord_peeks "class").offer fun _ =>
              .ite (fun _ => .given (classDeclaration_begins hg hc hat)) fun _ => .nothing

omit hg in
theorem ambientAhead_peeks : Peeks (ambientAhead m) :=
  (atWord_peeks "declare").seq fun _ => .ite (nextOnLineIs_peeks _) (.pure _)

/-- A declaration that has to be there. -/
theorem declaration_begins (hc : c.In text) (hat : Starts text at_ c.start) {other : Parse Node}
    (hother : Begins text c other (Node.StandsAt text at_)) : Begins text c (do
      match ← declaration? g m at_ with
      | some node => return node
      | none => other) (Node.StandsAt text at_) :=
  (declaration?_offers hg hc hat).bind (fun _ _ hn => .pure hn) hother

theorem ambient_begins (hc : c.In text) :
    Begins text c (ambient g m) (Node.StandsAt text c.start) :=
  begins_start ((word_begins hc "declare").bind fun _ _ hbegan => (atWord_peeks "global").bind
    fun _ => .ite (fun _ => globalDeclaration_reads hg (hc.starts hbegan.le)) fun _ =>
      .of_begins fun _ hd hle =>
        declaration_begins hg hd (hc.starts (Nat.le_trans hbegan.le hle)) .failure)

theorem wordStatement?_offers (hc : c.In text) (name : String) :
    Offers text c (wordStatement? g m name) (Node.StandsAt text c.start) := by
  refine .ite (fun _ => .given (ifStatement_begins hg hc)) fun _ => ?_
  refine .ite (fun _ => .given (forStatement_begins hg hc)) fun _ => ?_
  refine .ite (fun _ => .given (whileStatement_begins hg hc)) fun _ => ?_
  refine .ite (fun _ => .given (doStatement_begins hg hc)) fun _ => ?_
  refine .ite (fun _ => .given (switchStatement_begins hg hc)) fun _ => ?_
  refine .ite (fun _ => .given (tryStatement_begins hg hc)) fun _ => ?_
  refine .ite (fun _ => .given (returnStatement_begins hg hc)) fun _ => ?_
  refine .ite (fun _ => .given (throwStatement_begins hg hc)) fun _ => ?_
  refine .ite (fun _ => .given (jumpStatement_begins hc)) fun _ => ?_
  refine .ite (fun _ => .given (withStatement_begins hg hc)) fun _ => ?_
  refine .ite (fun _ => .start (.of_runs ?_)) fun _ => .nothing
  exact (skip_goes hc).bind fun _ _ hle => semicolon_passes.bind fun _ =>
    (groupFrom_reads (hc.starts hle) .nil).bind fun _ _ hn => .pure ⟨_, rfl, hn⟩

theorem otherStatement_begins (hc : c.In text) :
    Begins text c (otherStatement g m) (Node.StandsAt text c.start) := by
  refine ambientAhead_peeks.bind fun _ => .ite (fun _ => ambient_begins hg hc) fun _ =>
    begins_start (declaration_begins hg hc (hc.starts (Nat.le_refl _)) ?_)
  exact token_peeks.bind fun _ => (nextIs_peeks _).bind fun _ =>
    .ite (fun _ => labelled_begins hg hc) fun _ => expressionStatement_begins hg hc

theorem statement_begins (hc : c.In text) :
    Begins text c (statement g m) (Node.StandsAt text c.start) := by
  refine token_peeks.bind fun t => ?_
  split
  · exact begins_start ((skip_goes hc).bind fun _ _ hle => groupFrom_reads (hc.starts hle) .nil)
  · exact block_begins hg hc
  · exact (wordStatement?_offers hg hc _).bind (fun _ _ hn => .pure hn) (otherStatement_begins hg hc)
  · exact otherStatement_begins hg hc

end

end ParamLowering.Grammar
