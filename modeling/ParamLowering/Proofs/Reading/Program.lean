import ParamLowering.Grammar.Program
import ParamLowering.Proofs.Reading.Markup
import ParamLowering.Proofs.Reading.Statement
set_option autoImplicit false

/-!
Whole files stand in their text.

The record of productions is tied to itself a number of times; by induction on that number all
its productions read parts that stand where they were read. So the tree of every file that can be
read addresses the text of the file.
-/

namespace ParamLowering.Grammar

open ParamLowering.Tree Parse

variable {text : List Char} {lo lo' at_ : Nat} {g : Rules} {m : Mode} {c : Cursor}

/-- A construct of parts of which nobody asks where it begins. -/
theorem group_reads {parts : List Node} (h : Node.StandAll text lo' lo parts) :
    Reads text lo (groupFrom at_ parts) (Node.Stands text lo') :=
  (spanFrom_peeks at_).bind fun _ => .pure (Node.stands_group h)

/-! ### Imports and exports -/

theorem moduleName_passes : Passes text moduleName := by
  refine token_peeks.passes.seq fun t => ?_
  split
  · exact skip_passes.seq fun _ => .pure _
  · exact anyName_passes.seq fun _ => .pure _

theorem specifier_reads (binds : Bool) :
    Reads text lo (specifier g m binds) (Node.StandAll text lo) := by
  refine (Passes.repeated ?_ g.bound).bind fun names => ?_
  · exact token_peeks.passes.seq fun _ => .ite (.pure _) <| get_peeks.passes.seq fun _ =>
      moduleName_passes.seq fun _ => .pure _
  · have hnamed : ∀ (b : Bool) (ids : List Ident),
        Reads text lo (do require b; return ids.map .name) (Node.StandAll text lo) :=
      fun b ids => (require_peeks b).bind fun _ => .pure (.names ids)
    dsimp only
    split
    · exact hnamed _ _
    · exact hnamed _ _
    · exact hnamed _ _
    · exact hnamed _ _
    · exact .failure

theorem specifiers_reads (binds : Bool) :
    Reads text lo (specifiers g m binds) (Node.StandAll text lo) :=
  (mark_passes openBrace).bind fun _ =>
    (items_reads (fun _ => specifier_reads binds) closeBrace g.bound).bind fun _ _ hnames =>
      .pure (.flatten hnames)

theorem wholeModule_reads : Reads text lo wholeModule (Node.StandAll text lo) :=
  (mark_passes "*").bind fun _ => (word_passes "as").bind fun _ => ident_passes.bind fun _ =>
    .pure (.name .nil)

theorem importClause_reads : Reads text lo (importClause g m) (Node.StandAll text lo) := by
  refine (atMark_peeks "*").bind fun _ => .ite (fun _ => wholeModule_reads) fun _ =>
    (atMark_peeks openBrace).bind fun _ => .ite (fun _ => specifiers_reads true) fun _ =>
      ident_passes.bind fun id => (mark?_passes ",").bind fun _ => .ite (fun _ => ?_) fun _ =>
        .pure (.name .nil)
  exact (atMark_peeks "*").bind fun _ => .branch wholeModule_reads (specifiers_reads true)
    fun _ _ hmore => .pure (.name hmore)

theorem importedReference_reads :
    Reads text lo (importedReference g) (Node.StandAll text lo) := by
  refine (atWord_peeks "require").bind fun _ => (nextIs_peeks _).passes.branch (.pure _)
    fun _ => .ite (fun _ => ?_) fun _ => entityName_passes.bind fun _ => .pure (.name .nil)
  exact skip_passes.bind fun _ => (mark_passes "(").bind fun _ => token_peeks.bind fun _ =>
    (require_peeks _).bind fun _ => skip_passes.bind fun _ => (mark_passes ")").bind fun _ =>
      .pure .nil

theorem importEquals?_reads :
    Reads text lo (importEquals? g m at_) fun hi o => ∀ n ∈ o, n.Stands text lo hi := by
  refine token_peeks.bind fun _ => .ite (fun _ => .absent) fun _ => (nextIs_peeks _).bind
    fun _ => .ite (fun _ => .absent) fun _ => ident_passes.bind fun id => ?_
  exact (mark_passes "=").bind fun _ => importedReference_reads.bind fun _ _ hnames =>
    semicolon_passes.bind fun _ => (group_reads (.name hnames)).present

theorem typeOnly_passes : Passes text (typeOnly m) :=
  (atWord_peeks "type").passes.seq fun _ => .ite ((nextIs_peeks _).passes.seq fun _ =>
    .ite skip_passes (.pure _)) (.pure _)

section

variable (hg : g.Reads text)

include hg

theorem modulePath_reads : Reads text lo (modulePath g m) (Node.StandAll text lo) := by
  refine token_peeks.bind fun t => ?_
  split
  · refine skip_passes.bind fun _ => (atWord_peeks "with").bind fun _ => ?_
    extract_lets behind
    have hbehind : ∀ attributed, Reads text lo (behind attributed) (Node.StandAll text lo) :=
      fun _ => .ite (fun _ => skip_passes.bind fun _ => .of_begins fun _ hd hle =>
        (objectLiteral_begins hg hd).bind fun _ _ ho =>
          .pure (.single (ho.stands.mono hle (Nat.le_refl _)))) fun _ => .pure .nil
    exact .ite (fun _ => hbehind false) fun _ => .ite (fun _ => hbehind true) fun _ =>
      (atWord_peeks "assert").bind fun _ => onNewLine_peeks.bind fun _ => hbehind _
  · exact .failure

theorem fromModule_reads : Reads text lo (fromModule g m) (Node.StandAll text lo) :=
  (word_passes "from").bind fun _ => modulePath_reads hg

theorem importFrom_reads : Reads text lo (importFrom g m at_) (Node.Stands text lo) := by
  have hend : ∀ mid names, Node.StandAll text lo mid names →
      Reads text mid (do semicolon; groupFrom at_ names) (Node.Stands text lo) :=
    fun _ _ hnames => semicolon_passes.bind fun _ => group_reads hnames
  refine token_peeks.bind fun t => ?_
  dsimp only
  split
  · exact (modulePath_reads hg).bind hend
  · exact importClause_reads.bind fun _ _ hnames => (fromModule_reads hg).bind fun _ _ hmore =>
      hend _ _ (hnames.append hmore)

theorem importDeclaration_reads :
    Reads text lo (importDeclaration g m) (Node.Stands text lo) :=
  start_peeks.bind fun _ => (word_passes "import").bind fun _ => typeOnly_passes.bind fun _ =>
    importEquals?_reads.orElse (fun _ _ hn => .pure hn) (importFrom_reads hg)

theorem exportDefault_begins (hc : c.In text) :
    Begins text c (exportDefault g m) (Node.Stands text c.start) := by
  refine begins_start (atFunction_peeks.bind fun _ => .ite (fun _ => ?_) fun _ =>
    (atWord_peeks "class").bind fun _ => .ite (fun _ => ?_) fun _ =>
      typeDeclaration?_peeks.bind fun kind => ?_)
  · exact (functionExpression_begins hc fun _ => signature_reads hg).mono fun _ _ hn => hn.stands
  · exact (classExpression_begins hg hc).mono fun _ _ hn => hn.stands
  · split
    · exact (skip_goes hc).bind fun _ _ hle => .of_begins fun _ hd hle' =>
        (classExpression_begins hg hd).mono fun _ _ hn =>
          hn.stands.mono (Nat.le_trans hle hle') (Nat.le_refl _)
    · exact (interface_begins hg hc (hc.starts (Nat.le_refl _))).mono fun _ _ hn => hn.stands
    · exact (hg.assignmentAt hc).bind fun _ _ ho => semicolon_passes.bind fun _ =>
        .pure ho.stands

theorem typedExport?_reads :
    Reads text lo (typedExport? g m at_) fun hi o => ∀ n ∈ o, n.Stands text lo hi := by
  refine .ite (fun _ => .absent) fun _ => (mark?_passes "=").bind fun _ => .ite (fun _ => ?_)
    fun _ => (atWord_peeks "as").bind fun _ => (nextIs_peeks _).bind fun _ => .ite (fun _ => ?_)
      fun _ => (word?_passes "import").bind fun _ => .ite (fun _ => ?_) fun _ => .absent
  · exact hg.expression.bind fun _ _ hn => semicolon_passes.bind fun _ => .pure (by simpa using hn)
  · exact skip_passes.bind fun _ => skip_passes.bind fun _ => ident_passes.bind fun id =>
      semicolon_passes.bind fun _ => .pure (by simpa using Node.stands_name id (Nat.le_refl _))
  · exact typeOnly_passes.bind fun _ =>
      importEquals?_reads.orElse (fun _ _ hn => .pure (by simpa using hn)) .failure

theorem namedExport?_reads :
    Reads text lo (namedExport? g m at_) fun hi o => ∀ n ∈ o, n.Stands text lo hi := by
  have hend : ∀ {mid names}, Node.StandAll text lo mid names →
      Reads text mid (do semicolon; return some (← groupFrom at_ names))
        fun hi o => ∀ n ∈ o, n.Stands text lo hi := fun hnames =>
    semicolon_passes.bind fun _ => (group_reads hnames).present
  have htypeOnly : Passes text (namedExport?.typeOnlyNames m) :=
    (atWord_peeks "type").passes.seq fun _ => .ite ((nextIs_peeks _).passes.seq fun _ =>
      .ite skip_passes (.pure _)) (.pure _)
  refine htypeOnly.bind fun _ => (mark?_passes "*").bind fun _ => .ite (fun _ => ?_) fun _ =>
    (atMark_peeks openBrace).bind fun _ => .ite (fun _ => ?_) fun _ => .absent
  · have hfrom : ∀ names, Node.StandAll text lo lo names → Reads text lo (do
        let more ← fromModule g m
        semicolon
        return some (← groupFrom at_ (names ++ more))) fun hi o => ∀ n ∈ o, n.Stands text lo hi :=
      fun _ hnames => (fromModule_reads hg).bind fun _ _ hmore => hend (hnames.append hmore)
    exact (word?_passes "as").bind fun _ => .ite
      (fun _ => moduleName_passes.bind fun ids => hfrom _ (.names ids)) fun _ => hfrom _ .nil
  · exact (specifiers_reads false).bind fun _ _ hnames => (atWord_peeks "from").bind fun _ =>
      .branch (fromModule_reads hg) (.pure .nil) fun _ _ hmore => hend (hnames.append hmore)

theorem exportDeclaration_reads :
    Reads text lo (exportDeclaration g m) (Node.Stands text lo) := by
  refine start_peeks.bind fun at_ => (word_passes "export").bind fun _ =>
    (word?_passes "default").bind fun _ => .ite (fun _ => .of_begins fun _ hd hle => ?_) fun _ =>
      (typedExport?_reads hg).orElse (fun _ _ hn => .pure hn) <|
        (namedExport?_reads hg).orElse (fun _ _ hn => .pure hn) <|
          ambientAhead_peeks.bind fun _ => .ite (fun _ => .of_begins fun _ hd hle => ?_)
            fun _ => .of_begins fun _ hd hle => begins_start ?_
  · exact (exportDefault_begins hg hd).mono fun _ _ hn => hn.mono hle (Nat.le_refl _)
  · exact (ambient_begins hg hd).mono fun _ _ hn => hn.stands.mono hle (Nat.le_refl _)
  · exact (declaration_begins hg hd (hd.starts (Nat.le_refl _)) .failure).mono fun _ _ hn =>
      hn.stands.mono hle (Nat.le_refl _)

theorem item_reads : Reads text lo (item g m) (Node.Stands text lo) := by
  have hstatement : ∀ {m : Mode}, Reads text lo (g.statement m) (Node.Stands text lo) :=
    hg.statement.mono fun _ _ hn => hn.stands
  refine (atWord_peeks "export").bind fun _ => .ite (fun _ => exportDeclaration_reads hg) fun _ =>
    (atWord_peeks "import").bind fun _ => .ite (fun _ => ?_) fun _ => hstatement
  exact (nextIs_peeks _).bind fun _ =>
    .ite (fun _ => hstatement) fun _ => importDeclaration_reads hg

end

/-! ### Files -/

theorem Rules.stuck_reads : Rules.stuck.Reads text where
  expressionAt _ := .failure
  assignmentAt _ := .failure
  operandAt _ := .failure
  target := .failure
  type := .failure
  statementAt _ := .failure
  item := .failure
  element := nofun

theorem rules_reads (bound depth : Nat) : (rules bound depth).Reads text := by
  induction depth with
  | zero => exact Rules.stuck_reads
  | succ depth ih =>
    exact {
      expressionAt := expression_begins ih
      assignmentAt := assignment_begins ih
      operandAt := fun hc => operand_begins ih hc _
      target := target_reads ih
      type := type_reads ih
      statementAt := statement_begins ih
      item := item_reads ih
      element := markup_encloses ih }

theorem program_reads (hg : g.Reads text) :
    Reads text lo (program g m) (InOrder (Node.Stands text) lo) :=
  repeated_reads (fun _ => token_peeks.bind fun _ =>
    .ite (fun _ => .absent) fun _ => hg.item.present) g.bound

/-- The statements of a file stand side by side in its text. -/
theorem parse_standAll {dialect : Dialect} {source : List Char} {statements : List Node}
    (h : parse dialect source = some statements) :
    ∃ hi, Node.StandAll source 0 hi statements := by
  obtain ⟨⟨ns, c⟩, hrun, rfl⟩ := Option.map_eq_some_iff.1 h
  obtain ⟨hi, -, -, hin⟩ := program_reads (rules_reads _ _) _ _ _ ⟨.source, Nat.zero_le _⟩ hrun
  exact ⟨hi, .of_inOrder hin⟩

/-- The functions of a file address its text. -/
theorem parse_fitAll {dialect : Dialect} {source : List Char} {statements : List Node}
    (h : parse dialect source = some statements) : Node.FitAll source statements := by
  obtain ⟨hi, hstand⟩ := parse_standAll h
  exact hstand.fits

/-- The parts of a file lie in ranges of its text of which no two overlap. -/
theorem parse_placed {dialect : Dialect} {source : List Char} {statements : List Node}
    (h : parse dialect source = some statements) : Tree.Placed source statements := by
  obtain ⟨hi, -, -, rs, hrs, hspread⟩ := parse_standAll h
  exact ⟨rs, hspread.apart, Node.allPlaced_iff.2 hrs⟩

end ParamLowering.Grammar
